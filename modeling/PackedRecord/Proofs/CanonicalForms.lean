import PackedRecord.Proofs.DurableHeaps
import PackedRecord.Proofs.NoFaults

/-!
# Canonical forms of values

A writer accepts a value in several forms and writes them alike.  Whatever it accepts has a
canonical form, the one that a reader gives back.

* `HasForm` — some canonical value is written like the given one, on every heap.
* `Scalar.Admits` — what is left out: values that are no number, and texts with a NUL in strings
  of fixed width.
* `Scalar.hasForm` — every value that a codec has written has a canonical form.
* `Scalar.write_blank` — a window of zeros is written for some value, so that null has one too.
-/

namespace PackedRecord

/-- Some canonical value is written like this one. -/
def HasForm {α β : Type} (canonical : α → Prop) (write : α → β) (a : α) : Prop :=
  ∃ a₀, canonical a₀ ∧ write a₀ = write a

/-! ## Values that read back -/

/-- Values of which nothing is lost that cannot be read back at all. -/
def Scalar.Admits : Scalar → Value → Prop
  | float, v => ∀ x, v = .number (.float x) → x.isNaN = false
  | fixedText _, v => ∀ s, Codec.textOf? v = some s → '\x00' ∉ s.toList
  | _, _ => True

namespace Codec

variable {name : String} {order : ByteOrder} {width : Nat} {v : Value} {window : Bytes}

/-! ## Integers, flags and floats -/

theorem fits_of_writeSigned {i : Int64} (h : writeSigned name order width i = .ok window) :
    Word.FitsSigned width i.toInt := by
  unfold writeSigned at h
  split at h
  · assumption
  · cases h

theorem fits_of_writeUnsigned {n : UInt64} (h : writeUnsigned name order width n = .ok window) :
    Word.FitsUnsigned width n.toNat := by
  unfold writeUnsigned at h
  split at h
  · assumption
  · cases h

theorem flag_form (h : writeFlag name order width v = .ok window) :
    HasForm (Scalar.bool.Canonical width) (writeFlag name order width) v := by
  unfold writeFlag at h
  cases hb : flag? v with
  | none =>
    rw [hb] at h
    cases h
  | some b =>
    refine ⟨.bool b, ⟨b, rfl⟩, ?_⟩
    simp only [writeFlag, hb]
    rfl

theorem integer_form {signed : Bool}
    (h : writeInteger name order width signed v = .ok window) :
    HasForm ((Scalar.integer signed).Canonical width) (writeInteger name order width signed) v := by
  cases hn : integerOf? v with
  | none =>
    simp only [writeInteger, hn] at h
    cases h
  | some n =>
    cases signed with
    | true =>
      cases hi : n.toInt? with
      | none =>
        simp only [writeInteger, hn, hi] at h
        cases h
      | some i =>
        have hwrite : writeInteger name order width true v = writeSigned name order width i := by
          simp only [writeInteger, hn, hi, if_true]
        rw [hwrite] at h
        exact ⟨.number (.int i), ⟨i, rfl, fits_of_writeSigned h⟩, hwrite.symm⟩
    | false =>
      cases hm : n.toNat? with
      | none =>
        simp only [writeInteger, hn, hm, Bool.false_eq_true, if_false] at h
        cases h
      | some m =>
        have hwrite : writeInteger name order width false v =
            writeUnsigned name order width m := by
          simp only [writeInteger, hn, hm, Bool.false_eq_true, if_false]
        rw [hwrite] at h
        exact ⟨.number (.nat m), ⟨m, rfl, fits_of_writeUnsigned h⟩, hwrite.symm⟩

/-- The nearest double of an admitted number is a number. -/
theorem isNaN_of_admits (ha : Scalar.float.Admits v) {x : Double} (hx : v.double? = some x) :
    x.isNaN = false := by
  cases v with
  | number n =>
    cases hx
    cases n with
    | int i => exact Double.isNaN_ofInt _
    | nat n => exact Double.isNaN_ofInt _
    | float x => exact ha x rfl
  | _ => cases hx

theorem writeFloat_of_double? {x : Double} (hx : v.double? = some x) :
    writeFloat name order width v = writeFloat name order width (.number (.float x)) := by
  have hself : (Value.number (.float x)).double? = some x := rfl
  simp only [writeFloat, hx, hself]

theorem float_form (hs : width = 4 ∨ width = 8) (ha : Scalar.float.Admits v)
    (h : writeFloat name order width v = .ok window) :
    HasForm (Scalar.float.Canonical width) (writeFloat name order width) v := by
  cases hx : v.double? with
  | none =>
    simp only [writeFloat, hx] at h
    cases h
  | some x =>
    have hnumber := isNaN_of_admits ha hx
    rcases hs with rfl | rfl
    · have hrounded := Double.isNaN_ofSingle_toSingle hnumber
      refine ⟨.number (.float (.ofSingle x.toSingle)),
        ⟨_, rfl, hrounded, fun _ => ⟨x.toSingle, rfl⟩⟩, ?_⟩
      have hself : (Value.number (.float (.ofSingle x.toSingle))).double? =
          some (.ofSingle x.toSingle) := rfl
      simp only [writeFloat, hx, hself, if_true, Double.toSingle_ofSingle hrounded]
    · exact ⟨.number (.float x), ⟨x, rfl, hnumber, fun h => by cases h⟩,
        (writeFloat_of_double? hx).symm⟩

/-! ## Texts and bytes -/

theorem textBytes_eq {charset : Charset} {bytes : Bytes}
    (h : textBytes name charset v = .ok bytes) :
    ∃ s, textOf? v = some s ∧ charset.Allows s ∧ bytes = Text.Utf8.encode s := by
  unfold textBytes at h
  cases hs : textOf? v with
  | none =>
    rw [hs] at h
    cases h
  | some s =>
    simp only [hs] at h
    split at h
    · cases h
    · rename_i hallows
      cases h
      refine ⟨s, rfl, fun hascii => ?_, rfl⟩
      by_contra hnot
      exact hallows ⟨hascii, by simpa using hnot⟩

theorem fixedText_form {charset : Charset} (ha : (Scalar.fixedText charset).Admits v)
    (h : writeFixedText name width charset v = .ok window) :
    HasForm ((Scalar.fixedText charset).Canonical width) (writeFixedText name width charset) v := by
  cases hb : textBytes name charset v with
  | error e =>
    simp only [writeFixedText, hb] at h
    cases h
  | ok bytes =>
    obtain ⟨s, hs, hallows, rfl⟩ := textBytes_eq hb
    simp only [writeFixedText, hb] at h
    split at h
    · cases h
    · rename_i hfits
      refine ⟨.text s, ⟨s, rfl, ha s hs, hallows, by omega⟩, ?_⟩
      simp only [writeFixedText, hb, textBytes_of_allows name hallows]

theorem raw_form (h : writeRaw name width v = .ok window) :
    HasForm (Scalar.raw.Canonical width) (writeRaw name width) v := by
  unfold writeRaw at h
  cases v with
  | bytes content =>
    simp only [Value.bytes?] at h
    split at h
    · rename_i hlen
      exact ⟨.bytes content, ⟨content, rfl, hlen⟩, rfl⟩
    · cases h
  | _ => cases h

/-! ## Enums and bit fields -/

theorem holds_read {t : EnumTable} (code : Int64) : t.Holds code (t.read code) := by
  unfold EnumTable.read
  cases he : t.entryOfCode? code with
  | none =>
    refine ⟨rfl, fun e hmem hcode => ?_⟩
    have := List.find?_eq_none.1 he e (List.mem_reverse.2 hmem)
    exact this (beq_iff_eq.2 hcode)
  | some e =>
    have hmem := List.mem_reverse.1 (List.mem_of_find?_eq_some he)
    have hcode : e.code = code := by simpa using List.find?_some he
    rw [← hcode]
    exact hmem

theorem codeFits_of_writeCode {signed : Bool} {code : Int64}
    (h : writeCode name order signed width code = .ok window) :
    EnumTable.codeFits signed width code = true := by
  unfold writeCode at h
  unfold EnumTable.codeFits
  cases signed with
  | true =>
    simp only [if_true] at h ⊢
    exact decide_eq_true (fits_of_writeSigned h)
  | false =>
    simp only [Bool.false_eq_true, if_false] at h ⊢
    split at h
    · cases h
    · rename_i hsign
      have hnonneg : 0 ≤ code.toInt := by omega
      have hfits := fits_of_writeUnsigned h
      rw [toNat_toUInt64_of_nonneg hnonneg] at hfits
      exact decide_eq_true ⟨hnonneg, hfits⟩

theorem choice_form {t : EnumTable} (ht : t.Distinct)
    (h : writeChoice name order width t v = .ok window) :
    HasForm ((Scalar.enumeration t).Canonical width) (writeChoice name order width t) v := by
  rw [writeChoice_eq] at h
  cases hcode : t.code? v with
  | none =>
    rw [hcode] at h
    cases h
  | some code =>
    rw [hcode] at h
    have hback := (EnumTable.code_of_holds ht (holds_read code)).1
    refine ⟨.choice (t.read code),
      ⟨ht, t.read code, code, rfl, holds_read code, codeFits_of_writeCode h⟩, ?_⟩
    rw [writeChoice_eq, writeChoice_eq, hcode, hback]

/-- Every window is written for the bit set that is read from it. -/
theorem bits_of_window (name : String) (order : ByteOrder) (window : Bytes) :
    ∃ words, Scalar.bitField.Canonical window.length (.bits words) ∧
      writeBits name order window.length (.bits words) = .ok window := by
  obtain ⟨words, -, hcount, hnumber⟩ := bitNumber_of_readBits order window
  have hfits := Word.fitsUnsigned_read order window
  rw [← hnumber] at hfits
  refine ⟨words, ⟨words, rfl, hcount, hfits⟩, ?_⟩
  rw [writeBits_bits, if_pos hfits, hnumber, Word.write_read]

theorem bits_form (h : writeBits name order width v = .ok window) :
    HasForm (Scalar.bitField.Canonical width) (writeBits name order width) v := by
  obtain rfl := writeBits_spans name order width v window h
  obtain ⟨words, hcanonical, hwrite⟩ := bits_of_window name order window
  exact ⟨.bits words, hcanonical, hwrite.trans h.symm⟩

/-! ## Points in time and spans -/

theorem writeCount_eq {count : Option Int64} (h : writeCount name order width count = .ok window) :
    ∃ i, count = some i ∧ Word.FitsSigned width i.toInt := by
  cases count with
  | none => cases h
  | some i => exact ⟨i, rfl, fits_of_writeSigned h⟩

theorem timestamp_form {unit : Time.Unit}
    (h : writeTimestamp name order width unit v = .ok window) :
    HasForm ((Scalar.timestamp unit).Canonical width) (writeTimestamp name order width unit) v := by
  obtain ⟨count, hfits, hwrite⟩ : ∃ count : Int64, Word.FitsSigned width count.toInt ∧
      writeTimestamp name order width unit v = writeSigned name order width count := by
    cases v with
    | instant t =>
      obtain ⟨i, hi, hfits⟩ := writeCount_eq h
      exact ⟨i, hfits, by rw [writeTimestamp, hi, writeCount]⟩
    | number n =>
      obtain ⟨i, hi, hfits⟩ := writeCount_eq h
      exact ⟨i, hfits, by rw [writeTimestamp, hi, writeCount]⟩
    | _ => cases h
  by_cases hat : ∃ t : Time.Instant, t.IsAt unit count
  · obtain ⟨t, ht⟩ := hat
    exact ⟨.instant t, ⟨count, hfits, .inl ⟨t, rfl, ht⟩⟩,
      (writeTimestamp_of_isAt ht).trans hwrite.symm⟩
  · exact ⟨.number (.int count), ⟨count, hfits, .inr ⟨rfl, fun t ht => hat ⟨t, ht⟩⟩⟩,
      hwrite.symm⟩

theorem duration_form {unit : Time.Unit}
    (h : writeDuration name order width unit v = .ok window) :
    HasForm ((Scalar.duration unit).Canonical width) (writeDuration name order width unit) v := by
  obtain ⟨count, hfits, hwrite⟩ : ∃ count : Int64, Word.FitsSigned width count.toInt ∧
      writeDuration name order width unit v = writeSigned name order width count := by
    cases v with
    | span d =>
      obtain ⟨i, hi, hfits⟩ := writeCount_eq h
      exact ⟨i, hfits, by rw [writeDuration, hi, writeCount]⟩
    | number n =>
      obtain ⟨i, hi, hfits⟩ := writeCount_eq h
      exact ⟨i, hfits, by rw [writeDuration, hi, writeCount]⟩
    | _ => cases h
  refine ⟨.span ⟨count, unit⟩, ⟨count, rfl, hfits⟩, ?_⟩
  rw [hwrite, writeDuration_count]

end Codec

/-! ## Every codec -/

theorem HasForm.map {α β γ : Type} {canonical canonical' : α → Prop} {write : α → β} {a : α}
    (h : HasForm canonical write a) (hc : ∀ a, canonical a → canonical' a) (f : β → γ) :
    HasForm canonical' (fun a => f (write a)) a := by
  obtain ⟨a₀, hcanonical, hwrite⟩ := h
  exact ⟨a₀, hc a₀ hcanonical, congrArg f hwrite⟩

namespace Scalar

variable {σ : Type} [Heap σ] (name : String) (order : ByteOrder) {width : Nat} {codec : Scalar}
  {v : Value}

/-- Only a member of variable length has null for a canonical value. -/
theorem isNull_of_canonical (hfixed : codec.isVarying = false) (h : codec.Canonical width v) :
    v.isNull = false := by
  unfold Canonical at h
  split at h
  · obtain ⟨b, rfl⟩ := h
    rfl
  · obtain ⟨i, rfl, -⟩ := h
    rfl
  · obtain ⟨n, rfl, -⟩ := h
    rfl
  · obtain ⟨x, rfl, -⟩ := h
    rfl
  · obtain ⟨s, rfl, -⟩ := h
    rfl
  · cases hfixed
  · cases hfixed
  · obtain ⟨-, c, code, rfl, -⟩ := h
    rfl
  · obtain ⟨words, rfl, -⟩ := h
    rfl
  · obtain ⟨count, -, ⟨t, rfl, -⟩ | ⟨rfl, -⟩⟩ := h
    · rfl
    · rfl
  · obtain ⟨count, rfl, -⟩ := h
    rfl
  · obtain ⟨content, rfl, -⟩ := h
    rfl

/-- Canonical values that are written at all, not left out as null. -/
def Present (width : Nat) (codec : Scalar) (v : Value) : Prop :=
  codec.Canonical width v ∧ v.isNull = false

omit [Heap σ] in
/-- A form of a codec that leaves the heap alone. -/
theorem hasForm_of_fixed {write : Value → Except Error Bytes} (hfixed : codec.isVarying = false)
    (h : HasForm (codec.Canonical width) write v) :
    HasForm (codec.Present width) (fun v (heap : Option σ) => (write v, heap)) v :=
  h.map (fun _ hc => ⟨hc, isNull_of_canonical hfixed hc⟩) fun result heap => (result, heap)

variable [BoundedHeap σ] {heap after : Option σ} {window : Bytes}

theorem length_lt_of_storeContent {content : Bytes}
    (h : Codec.storeContent name order content heap = (.ok window, after)) :
    content.length < 2 ^ 32 := by
  cases heap with
  | none => cases h
  | some heap =>
    obtain ⟨handle, heap', hput, -⟩ := Codec.storeContent_eq name order h
    exact BoundedHeap.length_lt_of_put hput

/-- **Every value that a codec has written has a canonical form.** -/
theorem hasForm (hs : codec.Suits width) (ht : ∀ t, codec = .enumeration t → t.Distinct)
    (ha : codec.Admits v) (h : codec.write name order width v heap = (.ok window, after)) :
    HasForm (codec.Present width) (codec.write (σ := σ) name order width) v := by
  have hresult := congrArg Prod.fst h
  cases codec with
  | bool => exact hasForm_of_fixed rfl (Codec.flag_form hresult)
  | integer signed => exact hasForm_of_fixed rfl (Codec.integer_form hresult)
  | float => exact hasForm_of_fixed rfl (Codec.float_form hs ha hresult)
  | fixedText charset => exact hasForm_of_fixed rfl (Codec.fixedText_form ha hresult)
  | varyingText charset =>
    cases hb : Codec.textBytes name charset v with
    | error e =>
      simp only [write, Codec.writeVaryingText, hb] at h
      cases h
    | ok bytes =>
      obtain ⟨s, hs, hallows, rfl⟩ := Codec.textBytes_eq hb
      simp only [write, Codec.writeVaryingText, hb] at h
      refine ⟨.text s, ⟨.inr ⟨s, rfl, hallows, length_lt_of_storeContent name order h⟩, rfl⟩, ?_⟩
      funext heap
      simp only [write, Codec.writeVaryingText, hb, Codec.textBytes_of_allows name hallows]
  | varyingBytes =>
    cases v with
    | bytes content =>
      exact ⟨.bytes content,
        ⟨.inr ⟨content, rfl, length_lt_of_storeContent name order h⟩, rfl⟩, rfl⟩
    | _ => cases h
  | enumeration t => exact hasForm_of_fixed rfl (Codec.choice_form (ht t rfl) hresult)
  | bitField => exact hasForm_of_fixed rfl (Codec.bits_form hresult)
  | timestamp unit => exact hasForm_of_fixed rfl (Codec.timestamp_form hresult)
  | duration unit => exact hasForm_of_fixed rfl (Codec.duration_form hresult)
  | raw => exact hasForm_of_fixed rfl (Codec.raw_form hresult)

/-! ## Null -/

/-- A value that is written as zeros. -/
def blank (width : Nat) : Scalar → Value
  | bool => .bool false
  | fixedText _ => .text ""
  | enumeration _ => .choice (.unlisted 0)
  | bitField => .bits []
  | raw => .bytes (Codec.zeros width)
  | _ => .number (.int 0)

theorem admits_blank (width : Nat) (codec : Scalar) : codec.Admits (codec.blank width) := by
  cases codec with
  | float => exact fun x hx => by cases hx
  | fixedText charset =>
    intro s hs
    cases hs
    decide
  | _ => trivial

theorem writeSigned_zero (width : Nat) :
    Codec.writeSigned name order width 0 = .ok (Codec.zeros width) := by
  have hzero : (0 : Int64).toInt = 0 := rfl
  have hfits : Word.FitsSigned width 0 := by
    have : (0 : Int) < 256 ^ width := by positivity
    constructor <;> omega
  rw [Codec.writeSigned, hzero, if_pos hfits, Word.writeSigned, Word.complement, Int.zero_emod]
  exact congrArg Except.ok (Word.write_zero order width)

theorem writeUnsigned_zero (width : Nat) :
    Codec.writeUnsigned name order width 0 = .ok (Codec.zeros width) := by
  have hfits : Word.FitsUnsigned width (0 : UInt64).toNat := Nat.pow_pos (by decide)
  rw [Codec.writeUnsigned, if_pos hfits]
  exact congrArg Except.ok (Word.write_zero order width)

omit [BoundedHeap σ] in
/-- **A window of zeros is written for some value**, unless it is the slot of content on a heap. -/
theorem write_blank (hs : codec.Suits width) (hpos : 0 < width)
    (hfixed : codec.isVarying = false) (heap : Option σ) :
    codec.write name order width (codec.blank width) heap = (.ok (Codec.zeros width), heap) := by
  cases codec with
  | bool =>
    have hword : Word.write order (min width 8) 0 ++ Codec.zeros (width - 8) =
        Codec.zeros width := by
      rw [Word.write_zero, Codec.zeros, Codec.zeros, List.replicate_append_replicate]
      congr 1
      omega
    exact congrArg (fun bytes => (Except.ok bytes, heap)) hword
  | integer signed =>
    cases signed with
    | true => exact congrArg (·, heap) (writeSigned_zero name order width)
    | false => exact congrArg (·, heap) (writeUnsigned_zero name order width)
  | float =>
    rcases hs with rfl | rfl
    · exact congrArg (fun bytes => (Except.ok bytes, heap)) (Word.write_zero order 4)
    · exact congrArg (fun bytes => (Except.ok bytes, heap)) (Word.write_zero order 8)
  | fixedText charset =>
    have hallows : charset.Allows "" := fun _ => by decide
    simp only [write, blank, Codec.writeFixedText, Codec.textBytes_of_allows name hallows]
    have hempty : Text.Utf8.encode "" = [] := by decide
    rw [hempty, List.length_nil, if_neg (by omega), List.nil_append, Nat.sub_zero]
  | varyingText charset => cases hfixed
  | varyingBytes => cases hfixed
  | enumeration t =>
    change (Codec.writeChoice name order width t (.choice (.unlisted 0)), heap) = _
    rw [Codec.writeChoice_eq]
    change (Codec.writeCode name order t.isSigned width 0, heap) = _
    unfold Codec.writeCode
    cases t.isSigned with
    | true => exact congrArg (·, heap) (writeSigned_zero name order width)
    | false => exact congrArg (·, heap) (writeUnsigned_zero name order width)
  | bitField =>
    cases order <;> simp [write, blank, Codec.writeBits, Codec.zeros, ByteOrder.arrange]
  | timestamp unit => exact congrArg (·, heap) (writeSigned_zero name order width)
  | duration unit => exact congrArg (·, heap) (writeSigned_zero name order width)
  | raw =>
    have hlen : (Codec.zeros width).length = width := List.length_replicate
    simp only [write, blank, Codec.writeRaw, Value.bytes?, hlen, if_true]

end Scalar

end PackedRecord
