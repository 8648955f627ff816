import Mathlib.Data.List.Basic
import Mathlib.Tactic.NormNum
import PackedRecord.Proofs.GuardedCodec
import PackedRecord.Proofs.ScalarRoundTrip

/-!
# Elements in guarded windows

* `Guarded.slice_append`, `Guarded.update_append` — accesses to a part of a buffer.
* `Scalar.write_spans` — a codec fills the windows that suit it.
* `Scalar.guardedWrite_eq`, `Scalar.guardedRead_eq` — it does not fault on them, and gives what
  the plain codec gives.
-/

namespace PackedRecord

variable {σ : Type} [Heap σ]

namespace Guarded

/-! ## Accesses that are in bounds -/

theorem slice_eq {buffer : Bytes} {start stop : Nat} (h : start ≤ stop)
    (h' : stop ≤ buffer.length) :
    slice buffer start stop = .ok ((buffer.drop start).take (stop - start)) := if_pos ⟨h, h'⟩

theorem copy_eq {window content : Bytes} (h : content.length = window.length) :
    copy window content = .ok content := if_pos h

theorem slice_append (done window rest : Bytes) :
    slice (done ++ (window ++ rest)) done.length (done.length + window.length) = .ok window := by
  rw [slice_eq (Nat.le_add_right ..) (by simp only [List.length_append]; omega), List.drop_left,
    Nat.add_sub_cancel_left, List.take_left]

/-- Changing a part of a buffer leaves the parts around it. -/
theorem update_append (done window rest : Bytes) (change : Bytes → Guarded Bytes)
    {content : Bytes} (hchange : change window = .ok content)
    (hlen : content.length = window.length) :
    update (done ++ (window ++ rest)) done.length (done.length + window.length) change =
      .ok (done ++ (content ++ rest)) := by
  have hsplice : splice (done ++ (window ++ rest)) done.length content =
      done ++ (content ++ rest) := by
    rw [splice, List.take_left, hlen, ← List.append_assoc done window, ← List.length_append,
      List.drop_left, List.append_assoc]
  simp only [update, bind, Except.bind, pure, Except.pure, slice_append, hchange, copy_eq hlen,
    hsplice]

theorem entry_eq {α : Type} {table : List α} {position : Nat} {a : α}
    (h : table[position]? = some a) : entry table position = .ok a := by
  simp only [entry, h]

theorem chunks_eq {width : Nat} (h : 0 < width) (bytes : Bytes) :
    chunks width bytes = .ok (Codec.runs width (bytes.length / width) bytes) :=
  if_neg (Nat.ne_of_gt h)

theorem putWord_eq (order : ByteOrder) {window : Bytes} {width value : Nat} (hpos : 0 < width)
    (hle : width ≤ 8) (hlen : window.length = width) (hfits : Word.FitsUnsigned width value) :
    putWord order window width value = .ok (Word.write order width value) := by
  subst hlen
  rw [putWord, if_neg (by omega), if_neg (by omega), if_pos hfits, List.drop_length,
    List.append_nil]

theorem word_eq (order : ByteOrder) {window : Bytes} {width : Nat} (hpos : 0 < width)
    (hle : width ≤ 8) (hlen : window.length = width) :
    word order window width = .ok (Word.read order window) := by
  subst hlen
  rw [word, if_neg (by omega), if_neg (by omega), List.take_length]

theorem fitsSigned_eq {width : Nat} (hpos : 0 < width) (hle : width ≤ 8) (i : Int64) :
    fitsSigned width i = .ok (decide (Word.FitsSigned width i.toInt)) := by
  unfold fitsSigned
  split
  · have hwidth : width = 8 := by omega
    subst hwidth
    have hl := Int64.le_toInt i
    have hu := Int64.toInt_lt i
    have hfits : Word.FitsSigned 8 i.toInt := by
      constructor <;> norm_num <;> omega
    rw [decide_eq_true hfits]
  · rw [if_neg (Nat.ne_of_gt hpos)]

/-! ## Flags, numbers and raw bytes -/

section Scalars

variable (name : String) (order : ByteOrder) {window : Bytes}

theorem writeSigned_eq (hw : IsWordWidth window.length) (i : Int64) :
    writeSigned name order window i = .ok (Codec.writeSigned name order window.length i) := by
  have hput := putWord_eq order hw.pos hw.le_eight rfl
    (Word.complement_lt window.length i.toInt)
  simp only [writeSigned, bind, Except.bind, pure, Except.pure,
    fitsSigned_eq hw.pos hw.le_eight, decide_eq_true_eq, hput, Codec.writeSigned,
    Word.writeSigned]
  split <;> rfl

theorem writeUnsigned_eq (hw : IsWordWidth window.length) (n : UInt64) :
    writeUnsigned name order window n =
      .ok (Codec.writeUnsigned name order window.length n) := by
  simp only [writeUnsigned, Codec.writeUnsigned, bind, Except.bind, pure, Except.pure]
  split
  · rename_i hfits
    rw [putWord_eq order hw.pos hw.le_eight rfl hfits]
  · rfl

theorem signedWord_eq (hw : IsWordWidth window.length) :
    signedWord order window = .ok (Codec.signedWord order window) := by
  simp only [signedWord, bind, Except.bind, pure, Except.pure,
    word_eq order hw.pos hw.le_eight rfl]
  rfl

theorem unsignedWord_eq (hw : IsWordWidth window.length) :
    unsignedWord order window = .ok (Codec.unsignedWord order window) := by
  simp only [unsignedWord, bind, Except.bind, pure, Except.pure,
    word_eq order hw.pos hw.le_eight rfl]
  rfl

theorem writeFlag_eq (hpos : 0 < window.length) (v : Value) :
    writeFlag name order window v = .ok (Codec.writeFlag name order window.length v) := by
  unfold writeFlag Codec.writeFlag
  cases Codec.flag? v with
  | none => rfl
  | some b =>
    have hfits : Word.FitsUnsigned (min window.length 8) b.toNat := by
      have hle : 256 ^ 1 ≤ 256 ^ min window.length 8 :=
        Nat.pow_le_pow_right (by decide) (by omega)
      have hb : b.toNat ≤ 1 := Bool.toNat_le b
      unfold Word.FitsUnsigned
      omega
    have hhead : (Codec.zeros (min window.length 8)).length = min window.length 8 :=
      List.length_replicate
    have hzeros : Codec.zeros window.length =
        Codec.zeros (min window.length 8) ++ Codec.zeros (window.length - 8) := by
      rw [Codec.zeros, Codec.zeros, Codec.zeros, List.replicate_append_replicate]
      congr 1
      omega
    have hput := putWord_eq order (by omega) (by omega) hhead hfits
    have hupdate := update_append [] (Codec.zeros (min window.length 8))
      (Codec.zeros (window.length - 8))
      (fun head => putWord order head (min window.length 8) b.toNat) hput
      ((Word.length_write ..).trans hhead.symm)
    rw [List.nil_append, List.length_nil, Nat.zero_add, hhead, ← hzeros] at hupdate
    simp only [bind, Except.bind, pure, Except.pure, hupdate]
    rfl

theorem writeInteger_eq (hw : IsWordWidth window.length) (signed : Bool) (v : Value) :
    writeInteger name order window signed v =
      .ok (Codec.writeInteger name order window.length signed v) := by
  unfold writeInteger Codec.writeInteger
  cases Codec.integerOf? v with
  | none => rfl
  | some n =>
    cases signed with
    | true =>
      cases hn : n.toInt? with
      | none => simp only [hn, if_true]
      | some i => simp only [hn, if_true, writeSigned_eq name order hw]
    | false =>
      cases hn : n.toNat? with
      | none => simp only [hn, Bool.false_eq_true, if_false]
      | some m => simp only [hn, Bool.false_eq_true, if_false, writeUnsigned_eq name order hw]

theorem readInteger_eq (hw : IsWordWidth window.length) (signed : Bool) :
    readInteger order signed window = .ok (Codec.readInteger order signed window) := by
  simp only [readInteger, Codec.readInteger, bind, Except.bind, pure, Except.pure,
    signedWord_eq order hw, unsignedWord_eq order hw]
  split <;> rfl

theorem writeFloat_eq (hw : window.length = 4 ∨ window.length = 8) (v : Value) :
    writeFloat name order window v = .ok (Codec.writeFloat name order window.length v) := by
  unfold writeFloat Codec.writeFloat
  cases v.double? with
  | none => rfl
  | some x =>
    have hsingle : Word.FitsUnsigned 4 x.toSingle.toNat := x.toSingle.toNat_lt
    have hdouble : Word.FitsUnsigned 8 x.bits.toNat := x.bits.toNat_lt
    simp only [bind, Except.bind, pure, Except.pure]
    split
    · rename_i h4
      rw [putWord_eq order (by decide) (by decide) h4 hsingle]
    · rename_i h4
      rw [putWord_eq order (by decide) (by decide) (hw.resolve_left h4) hdouble]

theorem readFloat_eq (hw : window.length = 4 ∨ window.length = 8) :
    readFloat order window = .ok (Codec.readFloat order window) := by
  simp only [readFloat, Codec.readFloat, bind, Except.bind, pure, Except.pure]
  split
  · rename_i h4
    rw [word_eq order (by decide) (by decide) h4]
  · rename_i h4
    rw [word_eq order (by decide) (by decide) (hw.resolve_left h4)]
    rfl

theorem writeRaw_eq (window : Bytes) (v : Value) :
    writeRaw name window v = .ok (Codec.writeRaw name window.length v) := by
  unfold writeRaw Codec.writeRaw
  cases v.bytes? with
  | none => rfl
  | some content =>
    simp only [bind, Except.bind, pure, Except.pure]
    split
    · rename_i hlen
      rw [copy_eq hlen]
    · rfl

/-! ## Texts -/

theorem writeFixedText_eq (window : Bytes) (charset : Charset) (v : Value) :
    writeFixedText name window charset v =
      .ok (Codec.writeFixedText name window.length charset v) := by
  unfold writeFixedText Codec.writeFixedText
  cases Codec.textBytes name charset v with
  | error e => rfl
  | ok bytes =>
    simp only [bind, Except.bind, pure, Except.pure]
    split
    · rfl
    rename_i hfits
    have htake : (window.take bytes.length).length = bytes.length := by
      rw [List.length_take]
      omega
    have hdrop : (window.drop bytes.length).length = window.length - bytes.length :=
      List.length_drop
    have hhead := update_append [] (window.take bytes.length) (window.drop bytes.length)
      (fun head => copy head bytes) (copy_eq htake.symm) htake.symm
    have htail := update_append bytes (window.drop bytes.length) []
      (fun tail => .ok (Codec.zeros tail.length)) rfl List.length_replicate
    rw [List.nil_append, List.length_nil, Nat.zero_add, htake, List.take_append_drop] at hhead
    rw [← List.length_append, List.append_nil, List.append_nil, hdrop] at htail
    simp only [hhead, List.nil_append, htail]

theorem readFixedText_eq (window : Bytes) :
    readFixedText window = .ok (Codec.readFixedText window) := by
  have hle : window.findIdx (· == 0) ≤ window.length := List.findIdx_le_length
  have hprefix : window.takeWhile (· != 0) = window.take (window.findIdx (· == 0)) := by
    rw [List.takeWhile_eq_take_findIdx_not]
    congr 2
    funext b
    exact Bool.not_not (b == 0)
  simp only [readFixedText, Codec.readFixedText, bind, Except.bind, pure, Except.pure,
    slice_eq (Nat.zero_le _) hle, List.drop_zero, Nat.sub_zero, hprefix]

/-! ## Enums -/

theorem codeOf_eq (table : EnumTable) (v : Value) : codeOf table v = .ok (table.code? v) := by
  have hlabel : ∀ label, codeOf table (.text label) = .ok (table.code? (.text label)) := by
    intro label
    simp only [codeOf, EnumTable.code?]
    cases he : table.entryOfLabel? label with
    | none => rfl
    | some e =>
      have hmem : e ∈ table.entries :=
        List.mem_reverse.1 (List.mem_of_find?_eq_some he)
      simp only [entry_eq (EnumTable.mem_entries.1 hmem).2]
      rfl
  cases v with
  | choice c =>
    cases c with
    | known ordinal label => exact hlabel label
    | unlisted code => rfl
  | text label => exact hlabel label
  | _ => rfl

theorem choiceOf_eq (table : EnumTable) (code : Int64) :
    choiceOf table code = .ok (table.read code) := by
  unfold choiceOf EnumTable.read
  cases he : table.entryOfCode? code with
  | none => rfl
  | some e =>
    have hmem : e ∈ table.entries := List.mem_reverse.1 (List.mem_of_find?_eq_some he)
    simp only [entry_eq (EnumTable.mem_entries.1 hmem).1]
    rfl

theorem writeChoice_eq (hw : IsWordWidth window.length) (table : EnumTable) (v : Value) :
    writeChoice name order window table v =
      .ok (Codec.writeChoice name order window.length table v) := by
  simp only [writeChoice, Codec.writeChoice, bind, Except.bind, pure, Except.pure, codeOf_eq]
  cases table.code? v with
  | none => rfl
  | some code =>
    dsimp only
    split
    · exact writeSigned_eq name order hw code
    · split
      · rfl
      · exact writeUnsigned_eq name order hw code.toUInt64

theorem readChoice_eq (hw : IsWordWidth window.length) (table : EnumTable) :
    readChoice order table window = .ok (Codec.readChoice order table window) := by
  simp only [readChoice, Codec.readChoice, bind, Except.bind, pure, Except.pure,
    signedWord_eq order hw, unsignedWord_eq order hw, choiceOf_eq]
  split <;> rfl

/-! ## Points in time and spans -/

theorem writeCount_eq (hw : IsWordWidth window.length) (count : Option Int64) :
    writeCount name order window count =
      .ok (Codec.writeCount name order window.length count) := by
  cases count with
  | none => rfl
  | some i => exact writeSigned_eq name order hw i

theorem writeTimestamp_eq (hw : IsWordWidth window.length) (unit : Time.Unit) (v : Value) :
    writeTimestamp name order window unit v =
      .ok (Codec.writeTimestamp name order window.length unit v) := by
  cases v <;> first | rfl | exact writeCount_eq name order hw _

theorem readTimestamp_eq (hw : IsWordWidth window.length) (unit : Time.Unit) :
    readTimestamp order unit window = .ok (Codec.readTimestamp order unit window) := by
  simp only [readTimestamp, Codec.readTimestamp, bind, Except.bind, pure, Except.pure,
    signedWord_eq order hw]
  cases (Time.Unit.microseconds.convert (Codec.signedWord order window) unit).bind
    fun micros => Time.Instant.ofMicros? micros.toInt <;> rfl

theorem writeDuration_eq (hw : IsWordWidth window.length) (unit : Time.Unit) (v : Value) :
    writeDuration name order window unit v =
      .ok (Codec.writeDuration name order window.length unit v) := by
  cases v <;> first | rfl | exact writeCount_eq name order hw _

theorem readDuration_eq (hw : IsWordWidth window.length) (unit : Time.Unit) :
    readDuration order unit window = .ok (Codec.readDuration order unit window) := by
  simp only [readDuration, Codec.readDuration, bind, Except.bind, pure, Except.pure,
    signedWord_eq order hw]

/-! ## Handles -/

/-- A word takes the place of a field between others. -/
theorem putField_append (done slot rest : Bytes) {value : Nat} (hpos : 0 < slot.length)
    (hle : slot.length ≤ 8) (hfits : Word.FitsUnsigned slot.length value) :
    putField order (done ++ (slot ++ rest)) done.length (done.length + slot.length) value =
      .ok (done ++ (Word.write order slot.length value ++ rest)) := by
  rw [putField, Nat.add_sub_cancel_left]
  exact update_append done slot rest _ (putWord_eq order hpos hle rfl hfits)
    (Word.length_write ..)

theorem writeHandle_eq (h : Handle) (hw : window.length = Handle.width) :
    writeHandle order h window = .ok (h.write order) := by
  obtain ⟨a, b, c, rfl, ha, hb, hc⟩ := Handle.exists_fields hw
  have hl : Word.FitsUnsigned a.length h.length.toNat := ha ▸ h.length.toNat_lt
  have hv : Word.FitsUnsigned b.length h.collection.toNat := hb ▸ h.collection.toNat_lt
  have hi : Word.FitsUnsigned c.length h.index.toNat := hc ▸ h.index.toNat_lt
  have hlength := putField_append order [] a (b ++ c) (by omega) (by omega) hl
  have hcollection := putField_append order (Word.write order 4 h.length.toNat) b c (by omega)
    (by omega) hv
  have hindex := putField_append order (Word.write order 4 h.length.toNat ++
    Word.write order 8 h.collection.toNat) c [] (by omega) (by omega) hi
  simp only [ha, hb, hc, List.nil_append, List.length_nil, List.length_append,
    Word.length_write, List.append_nil, List.append_assoc,
    Nat.reduceAdd] at hlength hcollection hindex
  rw [writeHandle, if_pos hw, hlength]
  simp only [bind, Except.bind, hcollection, hindex]
  rfl

theorem readHandle_eq (hw : window.length = Handle.width) :
    readHandle order window = .ok (Handle.read order window) := by
  have hlen : window.length = 16 := hw
  have hfield : ∀ start stop, start < stop → stop ≤ 16 → stop ≤ start + 8 →
      field order window start stop =
        .ok (Word.read order ((window.drop start).take (stop - start))) := by
    intro start stop hpos hle hle'
    simp only [field, bind, Except.bind, slice_eq hpos.le (hle.trans hlen.ge)]
    refine word_eq order (by omega) (by omega) ?_
    rw [List.length_take, List.length_drop]
    omega
  simp only [readHandle, bind, Except.bind, pure, Except.pure,
    hfield 0 4 (by decide) (by decide) (by decide),
    hfield 4 12 (by decide) (by decide) (by decide),
    hfield 12 16 (by decide) (by decide) (by decide)]
  rfl

theorem storeContent_eq (hw : window.length = Handle.width) (content : Bytes)
    (heap : Option σ) : storeContent name order content window heap =
      .ok (Codec.storeContent name order content heap) := by
  cases heap with
  | none => rfl
  | some h =>
    unfold storeContent Codec.storeContent
    rcases hput : Heap.put h content with e | ⟨handle, h'⟩ <;> simp only [hput]
    · rfl
    · rw [writeHandle_eq order handle hw]
      rfl

theorem writeVaryingText_eq (hw : window.length = Handle.width) (charset : Charset) (v : Value)
    (heap : Option σ) : writeVaryingText name order charset v window heap =
      .ok (Codec.writeVaryingText name order charset v heap) := by
  unfold writeVaryingText Codec.writeVaryingText
  cases Codec.textBytes name charset v with
  | error e => rfl
  | ok content => exact storeContent_eq name order hw content heap

theorem writeVaryingBytes_eq (hw : window.length = Handle.width) (v : Value) (heap : Option σ) :
    writeVaryingBytes name order v window heap =
      .ok (Codec.writeVaryingBytes name order v heap) := by
  unfold writeVaryingBytes Codec.writeVaryingBytes
  cases v.bytes? with
  | none => rfl
  | some content => exact storeContent_eq name order hw content heap

theorem loadContent_eq (hw : window.length = Handle.width) (heap : Option σ) :
    loadContent name order window heap = .ok (Codec.loadContent name order window heap) := by
  simp only [loadContent, Codec.loadContent, bind, Except.bind, pure, Except.pure,
    readHandle_eq order hw]
  split
  · rfl
  · cases heap <;> rfl

end Scalars

end Guarded

/-! ## Elements -/

namespace Codec

/-- What is written is `width` bytes long. -/
def Spans (width : Nat) (result : Except Error Bytes) : Prop :=
  ∀ bytes, result = .ok bytes → bytes.length = width

theorem spans_ok {width : Nat} {bytes : Bytes} (h : bytes.length = width) :
    Spans width (.ok bytes) := by
  intro other hother
  cases hother
  exact h

theorem spans_error (width : Nat) (e : Error) : Spans width (.error e) := by
  intro bytes h
  cases h

theorem spans_zeros (width : Nat) : Spans width (.ok (zeros width)) :=
  spans_ok List.length_replicate

section Spans

variable (name : String) (order : ByteOrder) (width : Nat)

theorem writeSigned_spans (i : Int64) : Spans width (writeSigned name order width i) := by
  unfold writeSigned
  split
  · exact spans_ok (Word.length_writeSigned ..)
  · exact spans_error width _

theorem writeUnsigned_spans (n : UInt64) : Spans width (writeUnsigned name order width n) := by
  unfold writeUnsigned
  split
  · exact spans_ok (Word.length_write ..)
  · exact spans_error width _

theorem writeCount_spans (count : Option Int64) :
    Spans width (writeCount name order width count) := by
  cases count with
  | none => exact spans_error width _
  | some i => exact writeSigned_spans name order width i

theorem writeFlag_spans (v : Value) : Spans width (writeFlag name order width v) := by
  unfold writeFlag
  split
  · refine spans_ok ?_
    rw [List.length_append, Word.length_write, zeros, List.length_replicate]
    omega
  · exact spans_error width _

theorem writeInteger_spans (signed : Bool) (v : Value) :
    Spans width (writeInteger name order width signed v) := by
  unfold writeInteger
  split
  · exact spans_error width _
  split
  · split
    · exact writeSigned_spans name order width _
    · exact spans_error width _
  · split
    · exact writeUnsigned_spans name order width _
    · exact spans_error width _

theorem writeFloat_spans {width : Nat} (hw : width = 4 ∨ width = 8) (v : Value) :
    Spans width (writeFloat name order width v) := by
  unfold writeFloat
  split
  · exact spans_error width _
  split
  · rename_i h4
    exact spans_ok ((Word.length_write ..).trans h4.symm)
  · rename_i h4
    exact spans_ok ((Word.length_write ..).trans (hw.resolve_left h4).symm)

theorem writeRaw_spans (v : Value) : Spans width (writeRaw name width v) := by
  unfold writeRaw
  split
  · exact spans_error width _
  split
  · rename_i hlen
    exact spans_ok hlen
  · exact spans_error width _

theorem writeFixedText_spans (charset : Charset) (v : Value) :
    Spans width (writeFixedText name width charset v) := by
  unfold writeFixedText
  split
  · exact spans_error width _
  split
  · exact spans_error width _
  · refine spans_ok ?_
    rw [List.length_append, zeros, List.length_replicate]
    omega

theorem writeChoice_spans (table : EnumTable) (v : Value) :
    Spans width (writeChoice name order width table v) := by
  unfold writeChoice
  split
  · exact spans_error width _
  split
  · exact writeSigned_spans name order width _
  split
  · exact spans_error width _
  · exact writeUnsigned_spans name order width _

theorem writeBits_spans (v : Value) : Spans width (writeBits name order width v) := by
  have hwords : ∀ bytes : Bytes, Spans width
      (if (bytes.drop width).all (· == 0) then
        .ok (order.arrange (bytes.take width ++ zeros (width - bytes.length)))
      else .error (.outOfRange name width)) := by
    intro bytes
    split
    · refine spans_ok ?_
      rw [ByteOrder.length_arrange, List.length_append, List.length_take, zeros,
        List.length_replicate]
      omega
    · exact spans_error width _
  unfold writeBits
  dsimp only
  split
  · exact hwords _
  · split
    · exact hwords _
    · exact spans_error width _
  · exact spans_error width _

theorem writeTimestamp_spans (unit : Time.Unit) (v : Value) :
    Spans width (writeTimestamp name order width unit v) := by
  unfold writeTimestamp
  split
  · exact writeCount_spans name order width _
  · exact writeCount_spans name order width _
  · exact spans_error width _

theorem writeDuration_spans (unit : Time.Unit) (v : Value) :
    Spans width (writeDuration name order width unit v) := by
  unfold writeDuration
  split
  · exact writeCount_spans name order width _
  · exact writeCount_spans name order width _
  · exact spans_error width _

theorem storeContent_spans (content : Bytes) (heap : Option σ) :
    Spans Handle.width (storeContent name order content heap).1 := by
  unfold storeContent
  split
  · exact spans_error _ _
  split
  · exact spans_error _ _
  · exact spans_ok (Handle.length_write ..)

end Spans

end Codec

namespace Scalar

variable (name : String) (order : ByteOrder)

/-- A codec fills windows that suit it. -/
theorem write_spans {width : Nat} {codec : Scalar} (h : codec.Suits width) (v : Value)
    (heap : Option σ) : Codec.Spans width (codec.write name order width v heap).1 := by
  cases codec with
  | bool => exact Codec.writeFlag_spans name order width v
  | integer signed => exact Codec.writeInteger_spans name order width signed v
  | float => exact Codec.writeFloat_spans name order h v
  | fixedText charset => exact Codec.writeFixedText_spans name width charset v
  | varyingText charset =>
    obtain rfl : width = Handle.width := h
    unfold write Codec.writeVaryingText
    dsimp only
    split
    · exact Codec.spans_error _ _
    · exact Codec.storeContent_spans name order _ heap
  | varyingBytes =>
    obtain rfl : width = Handle.width := h
    unfold write Codec.writeVaryingBytes
    dsimp only
    split
    · exact Codec.spans_error _ _
    · exact Codec.storeContent_spans name order _ heap
  | enumeration table => exact Codec.writeChoice_spans name order width table v
  | bitField => exact Codec.writeBits_spans name order width v
  | timestamp unit => exact Codec.writeTimestamp_spans name order width unit v
  | duration unit => exact Codec.writeDuration_spans name order width unit v
  | raw => exact Codec.writeRaw_spans name width v

/-- **A codec does not fault on windows that suit it**, and writes what it would write anyway. -/
theorem guardedWrite_eq {window : Bytes} {codec : Scalar} (h : codec.Suits window.length)
    (v : Value) (heap : Option σ) : codec.guardedWrite name order v window heap =
      .ok (codec.write name order window.length v heap) := by
  cases codec with
  | bool => rw [guardedWrite, Guarded.writeFlag_eq name order h]; rfl
  | integer signed => rw [guardedWrite, Guarded.writeInteger_eq name order h]; rfl
  | float => rw [guardedWrite, Guarded.writeFloat_eq name order h]; rfl
  | fixedText charset => rw [guardedWrite, Guarded.writeFixedText_eq]; rfl
  | varyingText charset => exact Guarded.writeVaryingText_eq name order h charset v heap
  | varyingBytes => exact Guarded.writeVaryingBytes_eq name order h v heap
  | enumeration table => rw [guardedWrite, Guarded.writeChoice_eq name order h]; rfl
  | bitField => rfl
  | timestamp unit => rw [guardedWrite, Guarded.writeTimestamp_eq name order h]; rfl
  | duration unit => rw [guardedWrite, Guarded.writeDuration_eq name order h]; rfl
  | raw => rw [guardedWrite, Guarded.writeRaw_eq]; rfl

/-- Nor does it fault on reading them. -/
theorem guardedRead_eq {window : Bytes} {codec : Scalar} (h : codec.Suits window.length)
    (heap : Option σ) : codec.guardedRead name order window heap =
      .ok (codec.read name order window heap) := by
  cases codec with
  | integer signed => rw [guardedRead, Guarded.readInteger_eq order h]; rfl
  | float => rw [guardedRead, Guarded.readFloat_eq order h]; rfl
  | fixedText charset => rw [guardedRead, Guarded.readFixedText_eq]; rfl
  | varyingText charset =>
    rw [guardedRead, Guarded.readVaryingText, Guarded.loadContent_eq name order h]
    rfl
  | varyingBytes =>
    rw [guardedRead, Guarded.readVaryingBytes, Guarded.loadContent_eq name order h]
    rfl
  | enumeration table => rw [guardedRead, Guarded.readChoice_eq order h]; rfl
  | timestamp unit => rw [guardedRead, Guarded.readTimestamp_eq order h]; rfl
  | duration unit => rw [guardedRead, Guarded.readDuration_eq order h]; rfl
  | bool | bitField | raw => rfl

end Scalar

end PackedRecord
