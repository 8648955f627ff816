import PackedRecord.Proofs.MachineWords
import PackedRecord.Proofs.ReversedWindows
import PackedRecord.Store.Transient

/-!
# Windows of integers

An integer of its range is written as its two's complement pattern, least significant byte first or
last, and a window is read as the integer of its pattern.  Integers come to a codec as numbers of
either integer kind, as flags, and as codes that no table lists; they are written alike.

* `Value.IsInteger` — the values that are integers.
* `Word.held` — the integer that a window holds; the windows of `n` bytes hold those of their range.
* `Codec.writeInteger_eq`, `Codec.readInteger_held` — integers are written and read as patterns.
* `Codec.byShifts` — the codecs of words work by shifts and masks.
* `integer_windows_kept` — all of it for every width of words.
-/

namespace PackedRecord

attribute [local instance] corePow

/-! ## Integers among the values -/

/-- The number is an integer, of the signed or the unsigned kind. -/
inductive Number.IsInteger : Number → Bool → Int → Prop where
  | int (i : Int64) : IsInteger (.int i) true i.toInt
  | nat (n : UInt64) : IsInteger (.nat n) false n.toNat

/-- The value is an integer: a number of either integer kind, a flag as zero or one, or a code that
no entry of a table has. -/
inductive Value.IsInteger : Value → Int → Prop where
  | number {x : Number} {signed : Bool} {v : Int} (h : x.IsInteger signed v) :
    IsInteger (.number x) v
  | flag (b : Bool) : IsInteger (.bool b) b.toNat
  | unlisted (code : Int64) : IsInteger (.choice (.unlisted code)) code.toInt

namespace Number.IsInteger

variable {x : Number} {signed : Bool} {v : Int}

theorem toInt?_eq (h : x.IsInteger signed v) : x.toInt? = int64? v := by
  cases h with
  | int i => exact (int64?_toInt i).symm
  | nat n => rfl

theorem toNat?_eq (h : x.IsInteger signed v) : x.toNat? = uint64? v := by
  cases h with
  | int i => rfl
  | nat n => exact (uint64?_eq_some_iff.2 rfl).symm

end Number.IsInteger

/-- An integer is taken for a number that is the same integer. -/
theorem Value.IsInteger.integerOf?_eq {x : Value} {v : Int} (h : x.IsInteger v) :
    ∃ y signed, Codec.integerOf? x = some y ∧ Number.IsInteger y signed v := by
  cases h with
  | number h => exact ⟨_, _, rfl, h⟩
  | flag b => cases b <;> exact ⟨_, _, rfl, .nat _⟩
  | unlisted code => exact ⟨_, _, rfl, .int code⟩

/-! ## Integers of a window -/

namespace Word

variable {n : Nat} {v : Int}

/-- The integer that a window holds. -/
def held (signed : Bool) (order : ByteOrder) (window : Bytes) : Int :=
  if signed then readSigned order window else read order window

theorem inRange_iff (hpos : 0 < n) (signed : Bool) : InRange signed n v ↔
    if signed then -2 ^ (8 * n - 1) ≤ v ∧ v < 2 ^ (8 * n - 1) else 0 ≤ v ∧ v < 2 ^ (8 * n) := by
  cases signed with
  | true => exact fitsSigned_iff hpos
  | false =>
    have hcast : ((2 ^ (8 * n) : Nat) : Int) = 2 ^ (8 * n) := Int.natCast_pow 2 _
    simp only [InRange, Bool.false_eq_true, if_false, fitsUnsigned_iff, ← hcast]
    omega

theorem natCast_complement (n : Nat) (v : Int) : (complement n v : Int) = v % 2 ^ (8 * n) := by
  have hcast : ((256 ^ n : Nat) : Int) = 256 ^ n := Int.natCast_pow 256 n
  rw [complement, Int.toNat_of_nonneg (Int.emod_nonneg v (Int.ne_of_gt (pow_pos n))), ← hcast,
    pow_bytes, Int.natCast_pow]
  rfl

/-- An unsigned number that fits is its own pattern. -/
theorem complement_natCast {v : Nat} (h : FitsUnsigned n v) : complement n v = v := by
  have hcast : ((256 ^ n : Nat) : Int) = 256 ^ n := Int.natCast_pow 256 n
  have hlt : (v : Int) < 256 ^ n := by
    rw [← hcast]
    exact Int.ofNat_lt.2 h
  rw [complement, Int.emod_eq_of_lt (Int.natCast_nonneg v) hlt, Int.toNat_natCast]

variable (order : ByteOrder)

theorem inRange_held (signed : Bool) (window : Bytes) :
    InRange signed window.length (held signed order window) := by
  have hfits := fitsUnsigned_read order window
  cases signed with
  | true => exact fitsSigned_signedValue hfits
  | false =>
    refine ⟨Int.natCast_nonneg _, ?_⟩
    rwa [held, if_neg Bool.false_ne_true, Int.toNat_natCast]

/-- **A window holds the integer that it was written for.** -/
theorem held_writeSigned {signed : Bool} (h : InRange signed n v) :
    held signed order (writeSigned order n v) = v := by
  cases signed with
  | true => exact readSigned_writeSigned order h
  | false =>
    obtain ⟨hnonneg, hfits⟩ : 0 ≤ v ∧ FitsUnsigned n v.toNat := h
    have hpattern : complement n v = v.toNat := by
      rw [← Int.toNat_of_nonneg hnonneg, complement_natCast hfits, Int.toNat_natCast]
    rw [held, if_neg Bool.false_ne_true, writeSigned, read_write order (complement_lt n v),
      hpattern, Int.toNat_of_nonneg hnonneg]

/-- **The integer that a window holds is written as the window.** -/
theorem writeSigned_held (signed : Bool) (window : Bytes) :
    writeSigned order window.length (held signed order window) = window := by
  cases signed with
  | true => exact writeSigned_readSigned order window
  | false =>
    rw [held, if_neg Bool.false_ne_true, writeSigned,
      complement_natCast (fitsUnsigned_read order window), write_read]

end Word

namespace Codec

variable (name : String) (order : ByteOrder) {width : Nat}

theorem writeSigned_int64? (hle : width ≤ 8) (v : Int) :
    (int64? v).elim (.error (.outOfRange name width)) (writeSigned name order width) =
      if Word.InRange true width v then .ok (Word.writeSigned order width v)
      else .error (.outOfRange name width) := by
  cases hi : int64? v with
  | none =>
    have hnot : ¬Word.InRange true width v := fun hfits =>
      int64?_eq_none_iff.1 hi (Word.FitsSigned.mono hfits hle)
    rw [if_neg hnot]
    rfl
  | some i =>
    obtain rfl := int64?_eq_some_iff.1 hi
    rfl

theorem writeUnsigned_uint64? (hle : width ≤ 8) (v : Int) :
    (uint64? v).elim (.error (.outOfRange name width)) (writeUnsigned name order width) =
      if Word.InRange false width v then .ok (Word.writeSigned order width v)
      else .error (.outOfRange name width) := by
  cases hn : uint64? v with
  | none =>
    have hnot : ¬Word.InRange false width v := by
      rintro ⟨hnonneg, hfits⟩
      have hback : v = (UInt64.ofNat v.toNat).toNat := by
        rw [hfits.toNat_ofNat hle, Int.toNat_of_nonneg hnonneg]
      rw [uint64?_eq_some_iff.2 hback] at hn
      cases hn
    rw [if_neg hnot]
    rfl
  | some n =>
    obtain rfl := uint64?_eq_some_iff.1 hn
    rw [Option.elim_some, writeUnsigned]
    by_cases hfits : Word.FitsUnsigned width n.toNat
    · rw [if_pos hfits, if_pos ⟨Int.natCast_nonneg _, hfits⟩, Word.writeSigned,
        Word.complement_natCast hfits]
    · rw [if_neg hfits, if_neg fun h => hfits h.2]

/-- **An integer of the range is written as its two's complement pattern, any other refused.** -/
theorem writeInteger_eq (hle : width ≤ 8) (signed : Bool) {x : Value} {v : Int}
    (h : x.IsInteger v) : writeInteger name order width signed x =
      if Word.InRange signed width v then .ok (Word.writeSigned order width v)
      else .error (.outOfRange name width) := by
  obtain ⟨y, kind, hy, hinteger⟩ := h.integerOf?_eq
  rw [writeInteger_of_integerOf? name order width hy]
  cases signed with
  | true => rw [writeInteger_signed, hinteger.toInt?_eq, writeSigned_int64? name order hle]
  | false => rw [writeInteger_unsigned, hinteger.toNat?_eq, writeUnsigned_uint64? name order hle]

/-- **A window is read as the integer that it holds**, of the kind of the member. -/
theorem readInteger_held (signed : Bool) {window : Bytes} (hle : window.length ≤ 8) :
    ∃ y : Number, readInteger order signed window = .number y ∧
      y.IsInteger signed (Word.held signed order window) := by
  cases signed with
  | true =>
    refine ⟨_, rfl, ?_⟩
    rw [Word.held, if_pos rfl, ← toInt_signedWord hle]
    exact .int _
  | false =>
    refine ⟨_, rfl, ?_⟩
    rw [Word.held, if_neg Bool.false_ne_true, ← toNat_unsignedWord hle]
    exact .nat _

/-- **Writing the integer that was read gives the window back.** -/
theorem writeInteger_readInteger (signed : Bool) {window : Bytes} (hle : window.length ≤ 8) :
    writeInteger name order window.length signed (readInteger order signed window) =
      .ok window := by
  obtain ⟨y, hy, hinteger⟩ := readInteger_held order signed hle
  rw [hy, writeInteger_eq name order hle signed (.number hinteger),
    if_pos (Word.inRange_held order signed window), Word.writeSigned_held]

/-- An integer is stored in a window: taken exactly if it is in the range, held as its two's
complement pattern, and read as a number of the member's kind. -/
structure StoresInteger (name : String) (order : ByteOrder) (width : Nat) (signed : Bool)
    (written : Except Error Bytes) (v : Int) : Prop where
  taken : (∃ window, written = .ok window) ↔
    if signed then -2 ^ (8 * width - 1) ≤ v ∧ v < 2 ^ (8 * width - 1)
    else 0 ≤ v ∧ v < 2 ^ (8 * width)
  refused : ∀ e, written = .error e → e = .outOfRange name width
  held : ∀ window, written = .ok window →
    window.length = width ∧ (Word.read order window : Int) = v % 2 ^ (8 * width)
  readBack : ∀ window, written = .ok window →
    ∃ y : Number, readInteger order signed window = .number y ∧ y.IsInteger signed v

theorem storesInteger_writeInteger (hpos : 0 < width) (hle : width ≤ 8) (signed : Bool) {x : Value}
    {v : Int} (h : x.IsInteger v) :
    StoresInteger name order width signed (writeInteger name order width signed x) v := by
  rw [writeInteger_eq name order hle signed h]
  by_cases hrange : Word.InRange signed width v
  · rw [if_pos hrange]
    have hlen : (Word.writeSigned order width v).length = width := Word.length_writeSigned ..
    refine ⟨iff_of_true ⟨_, rfl⟩ ((Word.inRange_iff hpos signed).1 hrange), ?_, ?_, ?_⟩
    · intro e he
      cases he
    · intro window hok
      cases hok
      refine ⟨hlen, ?_⟩
      rw [Word.writeSigned, Word.read_write order (Word.complement_lt width v),
        Word.natCast_complement]
    · intro window hok
      cases hok
      obtain ⟨y, hy, hinteger⟩ := readInteger_held order signed (hlen.trans_le hle)
      rw [Word.held_writeSigned order hrange] at hinteger
      exact ⟨y, hy, hinteger⟩
  · rw [if_neg hrange]
    refine ⟨iff_of_false (by simp) (mt (Word.inRange_iff hpos signed).2 hrange), ?_, ?_, ?_⟩
    · intro e he
      exact (Except.error.inj he).symm
    all_goals
      intro window hok
      cases hok

/-! ## Codecs by shifts -/

/-- The codecs of words of some width check, cut and extend words by shifts and masks. -/
structure ByShifts (name : String) (width : Nat) : Prop where
  writeSigned (order : ByteOrder) (i : Int64) : Codec.writeSigned name order width i =
    if Word.withinSigned width i then
      .ok (Word.write order width (i.toUInt64 &&& Word.lowBytes width).toNat)
    else .error (.outOfRange name width)
  writeUnsigned (order : ByteOrder) (n : UInt64) : Codec.writeUnsigned name order width n =
    if Word.withinUnsigned width n then .ok (Word.write order width n.toNat)
    else .error (.outOfRange name width)
  signedWord (order : ByteOrder) (window : Bytes) (h : window.length = width) :
    Codec.signedWord order window = Word.extended width (Codec.unsignedWord order window)

theorem byShifts (hpos : 0 < width) (hle : width ≤ 8) : ByShifts name width where
  writeSigned order i := by
    simp only [Word.withinSigned_iff hpos hle, Word.toNat_and_lowBytes hle]
    rfl
  writeUnsigned order n := by
    simp only [Word.withinUnsigned_iff hle]
    rfl
  signedWord order window h := by
    subst h
    have hfits : Word.FitsUnsigned window.length (Codec.unsignedWord order window).toNat := by
      rw [toNat_unsignedWord hle]
      exact Word.fitsUnsigned_read order window
    rw [← Int64.toInt_inj, toInt_signedWord hle, Word.toInt_extended hpos hle hfits,
      toNat_unsignedWord hle, Word.readSigned]

end Codec

/-- **Windows of words keep the integers of their range.**  An integer is taken exactly if it lies
in the range of the window and is refused as out of range otherwise.  The window then holds its
two's complement pattern and is read as the integer, of the kind of the member.  What is read from a
window is written as the same window.  The codecs may as well work with shifts and masks on words of
64 bits.  In big order, windows of integers, floats, enums, bit sets, points in time and spans are
written from behind, and read as the windows from behind are in little order. -/
theorem integer_windows_kept {σ : Type} [Heap σ] (name : String) (signed : Bool) {width : Nat}
    (hw : IsWordWidth width) :
    (∀ (order : ByteOrder) (x : Value) (v : Int), x.IsInteger v →
      Codec.StoresInteger name order width signed
        (Codec.writeInteger name order width signed x) v) ∧
    (∀ (order : ByteOrder) (window : Bytes), window.length = width →
      Codec.writeInteger name order width signed (Codec.readInteger order signed window) =
        .ok window) ∧
    Codec.ByShifts name width ∧
    ∀ codec : Scalar, codec.isOrdered = true → ∀ (heap : Option σ) (window : Bytes),
      (∀ (n : Nat) (x : Value), codec.write name .big n x heap =
        ((codec.write name .little n x heap).1.map List.reverse,
          (codec.write name .little n x heap).2)) ∧
      codec.read name .big window.reverse heap = codec.read name .little window heap := by
  refine ⟨?_, ?_, Codec.byShifts name hw.pos hw.le_eight, ?_⟩
  · intro order x v hx
    exact Codec.storesInteger_writeInteger name order hw.pos hw.le_eight signed hx
  · intro order window hlen
    subst hlen
    exact Codec.writeInteger_readInteger name order signed hw.le_eight
  · intro codec hcodec heap window
    exact ⟨fun n x => codec.write_big hcodec name n x heap, codec.read_big hcodec name window heap⟩

/-- Two less than zero is stored in two bytes and read back, and so is the window of the greatest
integer but one; an integer just above the range is refused.  A second of four bytes is the same
window from behind in the other order. -/
theorem integer_windows_kept_pair : IsWordWidth 2 ∧
    (Value.number (.int (-2))).IsInteger (-2) ∧
    (∃ window, Codec.writeInteger "n" .big 2 true (.number (.int (-2))) = .ok window ∧
      Word.read .big window = 65534 ∧
      ∃ y : Number, Codec.readInteger .big true window = .number y ∧ y.IsInteger true (-2)) ∧
    (Value.number (.nat 32768)).IsInteger 32768 ∧
    Codec.writeInteger "n" .big 2 true (.number (.nat 32768)) = .error (.outOfRange "n" 2) ∧
    Codec.writeInteger "n" .little 2 true (Codec.readInteger .little true [254, 127]) =
      .ok [254, 127] ∧
    (Scalar.write (σ := TransientStore) "n" .big 4 (.duration .seconds) (.span ⟨1, .seconds⟩)
      none).1 = .ok [0, 0, 0, 1] := by
  have htwo : IsWordWidth 2 := by simp [IsWordWidth]
  have hminus : (Value.number (.int (-2))).IsInteger (-2) := .number (.int (-2))
  have hlarge : (Value.number (.nat 32768)).IsInteger 32768 := .number (.nat 32768)
  obtain ⟨hstores, hback, -, hreverse⟩ :=
    integer_windows_kept (σ := TransientStore) "n" true htwo
  obtain ⟨window, hwindow⟩ := (hstores .big _ _ hminus).taken.2 (by decide)
  refine ⟨htwo, hminus, ⟨window, hwindow, ?_, (hstores .big _ _ hminus).readBack window hwindow⟩,
    hlarge, ?_, hback .little [254, 127] rfl, ?_⟩
  · have hheld := ((hstores .big _ _ hminus).held window hwindow).2
    norm_num at hheld
    exact_mod_cast hheld
  · rcases hwrite : Codec.writeInteger "n" .big 2 true (.number (.nat 32768)) with e | window'
    · rw [(hstores .big _ _ hlarge).refused e hwrite]
    · exact absurd ((hstores .big _ _ hlarge).taken.1 ⟨window', hwrite⟩) (by decide)
  · have hbig := (hreverse (.duration .seconds) rfl none []).1 4 (.span ⟨1, .seconds⟩)
    rw [hbig]
    rfl

end PackedRecord
