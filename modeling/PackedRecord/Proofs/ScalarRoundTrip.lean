import PackedRecord.Proofs.BitFields
import PackedRecord.Proofs.Heaps
import PackedRecord.Proofs.Layouts
import PackedRecord.Proofs.Rounding
import PackedRecord.Proofs.TemporalWindows
import PackedRecord.Proofs.Utf8

/-!
# Round trips of single elements

* `Codec.Keeps` — a codec without a heap writes a window of its width and reads the value back.
* `Restores`, `Succeeds`, `RoundTrips` — the two halves for a codec with a heap: whatever is
  written is read back from every later heap, and writing succeeds.
* `Scalar.roundTrips` — both hold for the canonical values of every codec.
-/

namespace PackedRecord

/-! ## Integers and flags -/

namespace Word

theorem write_zero (order : ByteOrder) (n : Nat) : write order n 0 = List.replicate n 0 := by
  have h := write_read order (List.replicate n 0)
  rwa [List.length_replicate, read_zeros] at h

/-- A window holds a byte other than zero when its number is not zero. -/
theorem any_write (order : ByteOrder) {n v : Nat} (h : FitsUnsigned n v) :
    (write order n v).any (· != 0) = (v != 0) := by
  by_cases hv : v = 0
  · subst hv
    simp [write_zero]
  · rw [bne_iff_ne.2 hv]
    by_contra hany
    have hzeros : write order n v = List.replicate n 0 := by
      refine List.eq_replicate_iff.2 ⟨length_write .., fun b hb => ?_⟩
      by_contra hne
      exact hany (List.any_eq_true.2 ⟨b, hb, bne_iff_ne.2 hne⟩)
    have hread := read_write order h
    rw [hzeros, read_zeros] at hread
    exact hv hread.symm

end Word

namespace Codec

variable (name : String) (order : ByteOrder)

/-- The window is as wide as it should be and reads as the value. -/
def Keeps (width : Nat) (result : Except Error Bytes) (read : Bytes → Value) (v : Value) : Prop :=
  ∃ window, result = .ok window ∧ window.length = width ∧ read window = v

theorem flag_keeps {width : Nat} (h : 0 < width) (b : Bool) :
    Keeps width (writeFlag name order width (.bool b)) readFlag (.bool b) := by
  refine ⟨_, rfl, ?_, ?_⟩
  · simp only [List.length_append, Word.length_write, zeros, List.length_replicate]
    omega
  · have hfits : Word.FitsUnsigned (min width 8) b.toNat := by
      have hpow : 256 ^ 1 ≤ 256 ^ min width 8 := Nat.pow_le_pow_right (by decide) (by omega)
      have hb : b.toNat < 2 := b.toNat_lt
      unfold Word.FitsUnsigned
      omega
    simp only [readFlag, List.any_append, Word.any_write order hfits, zeros]
    cases b <;> simp

theorem signed_keeps {width : Nat} {i : Int64} (h : Word.FitsSigned width i.toInt) :
    ∃ window, writeSigned name order width i = .ok window ∧ window.length = width ∧
      signedWord order window = i := by
  refine ⟨_, if_pos h, Word.length_writeSigned .., ?_⟩
  rw [signedWord, Word.readSigned_writeSigned order h, Int64.ofInt_toInt]

theorem unsigned_keeps {width : Nat} {n : UInt64} (h : Word.FitsUnsigned width n.toNat) :
    ∃ window, writeUnsigned name order width n = .ok window ∧ window.length = width ∧
      unsignedWord order window = n := by
  refine ⟨_, if_pos h, Word.length_write .., ?_⟩
  rw [unsignedWord, Word.read_write order h, UInt64.ofNat_toNat]

theorem float_keeps {width : Nat} (hw : width = 4 ∨ width = 8) {x : Double}
    (hx : x.isNaN = false) (hs : width = 4 → ∃ pattern, x = .ofSingle pattern) :
    Keeps width (writeFloat name order width (.number (.float x))) (readFloat order)
      (.number (.float x)) := by
  rcases hw with rfl | rfl
  · obtain ⟨p, rfl⟩ := hs rfl
    have hfits : Word.FitsUnsigned 4 p.toNat := p.toNat_lt
    refine ⟨Word.write order 4 p.toNat, ?_, Word.length_write .., ?_⟩
    · change Except.ok (Word.write order 4 (Double.toSingle (.ofSingle p)).toNat) = _
      rw [Double.toSingle_ofSingle hx]
    · rw [readFloat, if_pos (Word.length_write ..), Word.read_write order hfits,
        UInt32.ofNat_toNat]
  · have hfits : Word.FitsUnsigned 8 x.bits.toNat := x.bits.toNat_lt
    refine ⟨Word.write order 8 x.bits.toNat, rfl, Word.length_write .., ?_⟩
    rw [readFloat, if_neg (by simp), unsignedWord, Word.read_write order hfits,
      UInt64.ofNat_toNat]

theorem raw_keeps (content : Bytes) :
    Keeps content.length (writeRaw name content.length (.bytes content)) .bytes
      (.bytes content) := ⟨content, if_pos rfl, rfl, rfl⟩

/-! ## Texts -/

theorem textBytes_of_allows {charset : Charset} {s : String} (h : charset.Allows s) :
    textBytes name charset (.text s) = .ok (Text.Utf8.encode s) := by
  have : ¬(charset = .ascii ∧ Text.Utf8.isAscii s = false) := by
    rintro ⟨hc, ha⟩
    rw [h hc] at ha
    cases ha
  simp only [textBytes, textOf?]
  exact if_neg this

theorem fixedText_keeps {width : Nat} {charset : Charset} {s : String} (h0 : '\x00' ∉ s.toList)
    (hc : charset.Allows s) (hw : (Text.Utf8.encode s).length < width) :
    Keeps width (writeFixedText name width charset (.text s)) readFixedText (.text s) := by
  refine ⟨Text.Utf8.encode s ++ zeros (width - (Text.Utf8.encode s).length), ?_, ?_, ?_⟩
  · simp only [writeFixedText, textBytes_of_allows name hc]
    exact if_neg (by omega)
  · simp only [List.length_append, zeros, List.length_replicate]
    omega
  · rw [readFixedText, zeros, Text.Utf8.takeWhile_encode h0, Text.Utf8.decode_encode]

end Codec

/-! ## Enums -/

theorem find?_eq_some_of_unique {α : Type} {p : α → Bool} {l : List α} {a : α} (ha : a ∈ l)
    (hp : p a = true) (hu : ∀ b ∈ l, p b = true → b = a) : l.find? p = some a := by
  cases hf : l.find? p with
  | none => exact absurd hp (by simpa using List.find?_eq_none.1 hf a ha)
  | some b => rw [hu b (List.mem_of_find?_eq_some hf) (List.find?_some hf)]

namespace EnumTable

theorem mem_entries {t : EnumTable} {e : Entry} :
    e ∈ t.entries ↔ t.labels[e.ordinal]? = some e.label ∧ t.codes[e.ordinal]? = some e.code := by
  have hzip : ∀ (i : Nat) (p : String × Int64), (t.labels.zip t.codes)[i]? = some p ↔
      t.labels[i]? = some p.1 ∧ t.codes[i]? = some p.2 := by
    intro i p
    rw [List.getElem?_zip_eq_some]
  unfold entries
  rw [List.mem_iff_getElem?]
  simp only [List.getElem?_mapIdx, Option.map_eq_some_iff]
  constructor
  · rintro ⟨i, p, hp, rfl⟩
    exact (hzip i p).1 hp
  · intro h
    exact ⟨e.ordinal, (e.label, e.code), (hzip _ _).2 h, rfl⟩

/-- Entries that agree in the ordinal are the same. -/
theorem entry_ext {t : EnumTable} {d e : Entry} (hd : d ∈ t.entries) (he : e ∈ t.entries)
    (h : d.ordinal = e.ordinal) : d = e := by
  obtain ⟨hdl, hdc⟩ := mem_entries.1 hd
  obtain ⟨hel, hec⟩ := mem_entries.1 he
  rw [h] at hdl hdc
  have hlabel : d.label = e.label := Option.some.inj (hdl.symm.trans hel)
  have hcode : d.code = e.code := Option.some.inj (hdc.symm.trans hec)
  cases d
  cases e
  simp_all

theorem ordinal_inj {α : Type} {l : List α} (hl : l.Nodup) {i j : Nat} {a : α}
    (hi : l[i]? = some a) (hj : l[j]? = some a) : i = j :=
  (List.getElem?_inj (List.getElem?_eq_some_iff.1 hi).1 hl).1 (hi.trans hj.symm)

theorem entryOfLabel?_of_mem {t : EnumTable} (ht : t.Distinct) {e : Entry}
    (he : e ∈ t.entries) : t.entryOfLabel? e.label = some e := by
  refine find?_eq_some_of_unique (List.mem_reverse.2 he) (by simp) fun d hd hlabel => ?_
  rw [List.mem_reverse] at hd
  refine entry_ext hd he (ordinal_inj ht.labels (mem_entries.1 hd).1 ?_)
  rw [eq_of_beq hlabel]
  exact (mem_entries.1 he).1

theorem entryOfCode?_of_mem {t : EnumTable} (ht : t.Distinct) {e : Entry}
    (he : e ∈ t.entries) : t.entryOfCode? e.code = some e := by
  refine find?_eq_some_of_unique (List.mem_reverse.2 he) (by simp) fun d hd hcode => ?_
  rw [List.mem_reverse] at hd
  refine entry_ext hd he (ordinal_inj ht.codes (mem_entries.1 hd).2 ?_)
  rw [eq_of_beq hcode]
  exact (mem_entries.1 he).2

/-- A choice is written as its code, and its code is read as the choice. -/
theorem code_of_holds {t : EnumTable} (ht : t.Distinct) {c : Choice} {code : Int64}
    (h : t.Holds code c) : t.code? (.choice c) = some code ∧ t.read code = c := by
  cases c with
  | known ordinal label =>
    have hlabel := entryOfLabel?_of_mem ht h
    have hcode := entryOfCode?_of_mem ht h
    dsimp only at hlabel hcode
    simp only [code?, read, hlabel, hcode, Option.map_some, and_self]
  | unlisted c =>
    obtain ⟨rfl, hnone⟩ := h
    have hcode : t.entryOfCode? c = none := by
      refine List.find?_eq_none.2 fun e he hc => ?_
      exact hnone e (List.mem_reverse.1 he) (eq_of_beq hc)
    simp only [code?, read, hcode, and_self]

end EnumTable

theorem toNat_toUInt64_of_nonneg {i : Int64} (h : 0 ≤ i.toInt) :
    i.toUInt64.toNat = i.toInt.toNat := by
  have hlt := i.toInt_lt
  have hcond := BitVec.toInt_eq_toNat_cond i.toBitVec
  change i.toInt = if 2 * i.toUInt64.toNat < 2 ^ 64 then (i.toUInt64.toNat : Int)
    else (i.toUInt64.toNat : Int) - (2 ^ 64 : Nat) at hcond
  have hbound := i.toUInt64.toNat_lt
  split at hcond <;> omega

namespace Codec

/-- Write a code of a table as a window. -/
def writeCode (name : String) (order : ByteOrder) (signed : Bool) (width : Nat) (code : Int64) :
    Except Error Bytes :=
  if signed then writeSigned name order width code
  else if code.toInt < 0 then .error (.outOfRange name width)
  else writeUnsigned name order width code.toUInt64

/-- Code that a window holds. -/
def readCode (order : ByteOrder) (signed : Bool) (window : Bytes) : Int64 :=
  if signed then signedWord order window else (unsignedWord order window).toInt64

theorem writeChoice_eq (name : String) (order : ByteOrder) (width : Nat) (t : EnumTable)
    (v : Value) :
    writeChoice name order width t v =
      match t.code? v with
      | none => .error (noCode name t v)
      | some code => writeCode name order t.isSigned width code := rfl

theorem readChoice_eq (order : ByteOrder) (t : EnumTable) (window : Bytes) :
    readChoice order t window = .choice (t.read (readCode order t.isSigned window)) := rfl

/-- A code that fits is written and read back. -/
theorem code_keeps (name : String) (order : ByteOrder) {signed : Bool} {width : Nat}
    {code : Int64} (h : EnumTable.codeFits signed width code = true) :
    ∃ window, writeCode name order signed width code = .ok window ∧ window.length = width ∧
      readCode order signed window = code := by
  cases signed with
  | true =>
    simp only [EnumTable.codeFits, if_true, decide_eq_true_eq] at h
    exact signed_keeps name order h
  | false =>
    simp only [EnumTable.codeFits, Bool.false_eq_true, if_false, decide_eq_true_eq] at h
    obtain ⟨hnn, hfits⟩ := h
    rw [← toNat_toUInt64_of_nonneg hnn] at hfits
    obtain ⟨window, hwrite, hlen, hword⟩ := unsigned_keeps name order hfits
    refine ⟨window, ?_, hlen, ?_⟩
    · simp only [writeCode, Bool.false_eq_true, if_false]
      rw [if_neg (by omega), hwrite]
    · simp only [readCode, Bool.false_eq_true, if_false, hword]
      rfl

theorem choice_keeps (name : String) (order : ByteOrder) {width : Nat} {t : EnumTable}
    (ht : t.Distinct) {c : Choice} {code : Int64} (h : t.Holds code c)
    (hf : EnumTable.codeFits t.isSigned width code = true) :
    Keeps width (writeChoice name order width t (.choice c)) (readChoice order t) (.choice c) := by
  obtain ⟨hcode, hread⟩ := EnumTable.code_of_holds ht h
  obtain ⟨window, hwrite, hlen, hback⟩ := code_keeps name order hf
  refine ⟨window, ?_, hlen, ?_⟩
  · rw [writeChoice_eq, hcode]
    exact hwrite
  · rw [readChoice_eq, hback, hread]

end Codec

/-! ## Bit fields -/

namespace Codec

theorem bits_keeps (name : String) (order : ByteOrder) {width : Nat} {words : List UInt64}
    (hlen : words.length = (width + 7) / 8) (hn : bitNumber words < 256 ^ width) :
    Keeps width (writeBits name order width (.bits words)) (readBits order) (.bits words) := by
  refine ⟨Word.write order width (bitNumber words), ?_, Word.length_write .., ?_⟩
  · rw [writeBits_bits]
    exact if_pos hn
  · obtain ⟨back, hback, hcount, hnumber⟩ :=
      bitNumber_of_readBits order (Word.write order width (bitNumber words))
    rw [Word.length_write] at hcount
    rw [Word.read_write order hn] at hnumber
    rw [hback, bitNumber_inj (hcount.trans hlen.symm) hnumber]

end Codec

/-! ## Points in time and spans -/

namespace Codec

variable (name : String) (order : ByteOrder) {width : Nat} {unit : Time.Unit} {count : Int64}

theorem instant_keeps {t : Time.Instant} (hc : Word.FitsSigned width count.toInt)
    (ht : t.IsAt unit count) :
    Keeps width (writeTimestamp name order width unit (.instant t)) (readTimestamp order unit)
      (.instant t) := by
  obtain ⟨window, hwrite, hlen, hword⟩ := signed_keeps name order hc
  refine ⟨window, ?_, hlen, ?_⟩
  · rw [writeTimestamp_of_isAt ht, hwrite]
  · rw [readTimestamp_instant_iff, hword]
    exact ht

/-- A count beyond the range of points in time is kept as a number. -/
theorem count_keeps (hc : Word.FitsSigned width count.toInt)
    (ht : ∀ t : Time.Instant, ¬t.IsAt unit count) :
    Keeps width (writeTimestamp name order width unit (.number (.int count)))
      (readTimestamp order unit) (.number (.int count)) := by
  obtain ⟨window, hwrite, hlen, hword⟩ := signed_keeps name order hc
  refine ⟨window, hwrite, hlen, ?_⟩
  rw [← hword] at ht ⊢
  exact readTimestamp_of_not_isAt ht

theorem duration_keeps (hc : Word.FitsSigned width count.toInt) :
    Keeps width (writeDuration name order width unit (.span ⟨count, unit⟩))
      (readDuration order unit) (.span ⟨count, unit⟩) := by
  obtain ⟨window, hwrite, hlen, hword⟩ := signed_keeps name order hc
  refine ⟨window, ?_, hlen, by rw [readDuration, hword]⟩
  rw [writeDuration_count, hwrite]

end Codec

/-! ## Content on the heap -/

section Heap

variable {σ : Type} [Heap σ] [LawfulHeap σ]

open LawfulHeap

/-- Whatever is written is read back from the heap it left, and from every later one. -/
def Restores {α : Type} (width : Nat) (write : Option σ → Except Error Bytes × Option σ)
    (read : Bytes → Option σ → Except Error α) (v : α) : Prop :=
  ∀ (heap : σ) (window : Bytes) (after : Option σ), Sound heap →
    write (some heap) = (.ok window, after) →
    ∃ heap', after = some heap' ∧ Sound heap' ∧ Extends heap heap' ∧ window.length = width ∧
      ∀ later, Extends heap' later → Addressable later → read window (some later) = .ok v

omit [LawfulHeap σ] in
/-- Writing succeeds on every heap. -/
def Succeeds (write : Option σ → Except Error Bytes × Option σ) : Prop :=
  ∀ heap : σ, ∃ window heap', write (some heap) = (.ok window, some heap')

theorem Restores.map {α β : Type} {width : Nat}
    {write : Option σ → Except Error Bytes × Option σ}
    {read : Bytes → Option σ → Except Error α} {v : α} (h : Restores width write read v)
    (f : α → β) : Restores width write (fun window heap => (read window heap).map f) (f v) := by
  intro heap window after hsound hwrite
  obtain ⟨heap', hafter, hsound', hext, hlen, hread⟩ := h heap window after hsound hwrite
  refine ⟨heap', hafter, hsound', hext, hlen, ?_⟩
  intro later hlater haddr
  change (read window (some later)).map f = _
  rw [hread later hlater haddr]
  rfl

/-- Both: writing succeeds, and what it writes is read back. -/
structure RoundTrips {α : Type} (width : Nat) (write : Option σ → Except Error Bytes × Option σ)
    (read : Bytes → Option σ → Except Error α) (v : α) : Prop where
  restores : Restores width write read v
  succeeds : Succeeds write

theorem RoundTrips.map {α β : Type} {width : Nat}
    {write : Option σ → Except Error Bytes × Option σ}
    {read : Bytes → Option σ → Except Error α} {v : α} (h : RoundTrips width write read v)
    (f : α → β) : RoundTrips width write (fun window heap => (read window heap).map f) (f v) :=
  ⟨h.restores.map f, h.succeeds⟩

namespace Codec

/-- A codec that leaves the heap alone. -/
theorem Keeps.roundTrips {width : Nat} {result : Except Error Bytes} {read : Bytes → Value}
    {v : Value} (h : Keeps width result read v) :
    RoundTrips (σ := σ) width (fun heap => (result, heap)) (fun window _ => .ok (read window))
      v := by
  obtain ⟨window, rfl, hlen, hread⟩ := h
  constructor
  · intro heap written after hsound hwrite
    cases hwrite
    refine ⟨heap, rfl, hsound, extends_refl heap, hlen, ?_⟩
    intro later _ _
    exact congrArg Except.ok hread
  · intro heap
    exact ⟨window, heap, rfl⟩

variable (name : String) (order : ByteOrder)

omit [LawfulHeap σ] in
theorem storeContent_eq {content : Bytes} {heap : σ} {window : Bytes} {after : Option σ}
    (h : storeContent name order content (some heap) = (.ok window, after)) :
    ∃ handle heap', Heap.put heap content = .ok (handle, heap') ∧
      window = handle.write order ∧ after = some heap' := by
  unfold storeContent at h
  dsimp only at h
  split at h
  · cases h
  · rename_i handle heap' hput
    cases h
    exact ⟨handle, heap', hput, rfl, rfl⟩

/-- Stored content is loaded from its slot. -/
theorem content_roundTrips {content : Bytes} (h : content.length < 2 ^ 32) :
    RoundTrips (σ := σ) Handle.width (storeContent name order content)
      (loadContent name order) (some content) := by
  constructor
  · intro heap window after hsound hwrite
    obtain ⟨handle, heap', hput, rfl, rfl⟩ := storeContent_eq name order hwrite
    obtain ⟨hsound', hext⟩ := put_sound hsound hput
    refine ⟨heap', rfl, hsound', hext, Handle.length_write order handle, ?_⟩
    intro later hlater haddr
    obtain ⟨hnull, hget⟩ := get_put hsound hput hlater haddr
    simp only [loadContent, Handle.read_write, hnull, Bool.false_eq_true, if_false, hget]
    rfl
  · intro heap
    obtain ⟨handle, heap', hput⟩ := put_succeeds heap h
    exact ⟨handle.write order, heap', by simp only [storeContent, hput]⟩

theorem varyingText_roundTrips {charset : Charset} {s : String} (hs : charset.Allows s)
    (h : (Text.Utf8.encode s).length < 2 ^ 32) :
    RoundTrips (σ := σ) Handle.width (writeVaryingText name order charset (.text s))
      (readVaryingText name order) (.text s) := by
  have hstore : writeVaryingText (σ := σ) name order charset (.text s) =
      storeContent name order (Text.Utf8.encode s) := by
    funext heap
    simp only [writeVaryingText, textBytes_of_allows name hs]
  have hcontent := (content_roundTrips (σ := σ) name order h).map fun content =>
    (content.map fun bytes => Value.text (Text.Utf8.decode bytes)).getD .null
  rw [Option.map_some, Option.getD_some, Text.Utf8.decode_encode] at hcontent
  rw [hstore]
  exact hcontent

omit [LawfulHeap σ] in
/-- A slot of zeros refers to nothing. -/
theorem loadContent_zeros (width : Nat) (heap : Option σ) :
    loadContent name order (zeros width) heap = .ok none := by
  simp only [loadContent, zeros, Handle.isNull_read_zeros, if_true]

end Codec

/-- **Canonical values are written and read back.** -/
theorem Scalar.roundTrips (name : String) (order : ByteOrder) {width : Nat} {codec : Scalar}
    {v : Value} (hs : codec.Suits width) (hc : codec.Canonical width v) (hn : v.isNull = false) :
    RoundTrips (σ := σ) width (codec.write name order width v) (codec.read name order) v := by
  unfold Canonical at hc
  split at hc
  · obtain ⟨b, rfl⟩ := hc
    exact (Codec.flag_keeps name order hs b).roundTrips
  · obtain ⟨i, rfl, hfits⟩ := hc
    obtain ⟨window, hwrite, hlen, hread⟩ := Codec.signed_keeps name order hfits
    refine Codec.Keeps.roundTrips ⟨window, hwrite, hlen, ?_⟩
    rw [Codec.readInteger, hread, if_pos rfl]
  · obtain ⟨n, rfl, hfits⟩ := hc
    obtain ⟨window, hwrite, hlen, hread⟩ := Codec.unsigned_keeps name order hfits
    refine Codec.Keeps.roundTrips ⟨window, hwrite, hlen, ?_⟩
    rw [Codec.readInteger, hread, if_neg Bool.false_ne_true]
  · obtain ⟨x, rfl, hnum, hsingle⟩ := hc
    exact (Codec.float_keeps name order hs hnum hsingle).roundTrips
  · obtain ⟨s, rfl, h0, hallows, hfits⟩ := hc
    exact (Codec.fixedText_keeps name h0 hallows hfits).roundTrips
  · obtain rfl | ⟨s, rfl, hallows, hlen⟩ := hc
    · cases hn
    · obtain rfl : width = Handle.width := hs
      exact Codec.varyingText_roundTrips name order hallows hlen
  · obtain rfl | ⟨content, rfl, hlen⟩ := hc
    · cases hn
    · obtain rfl : width = Handle.width := hs
      exact (Codec.content_roundTrips (σ := σ) name order hlen).map
        fun content => (content.map Value.bytes).getD .null
  · obtain ⟨hdistinct, c, code, rfl, hholds, hfits⟩ := hc
    exact (Codec.choice_keeps name order hdistinct hholds hfits).roundTrips
  · obtain ⟨words, rfl, hlen, hfits⟩ := hc
    exact (Codec.bits_keeps name order hlen hfits).roundTrips
  · obtain ⟨count, hfits, ⟨t, rfl, hat⟩ | ⟨rfl, hnone⟩⟩ := hc
    · exact (Codec.instant_keeps name order hfits hat).roundTrips
    · exact (Codec.count_keeps name order hfits hnone).roundTrips
  · obtain ⟨count, rfl, hfits⟩ := hc
    exact (Codec.duration_keeps name order hfits).roundTrips
  · obtain ⟨content, rfl, rfl⟩ := hc
    exact (Codec.raw_keeps name content).roundTrips

end Heap

end PackedRecord
