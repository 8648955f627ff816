import PackedRecord.Proofs.ExactNumbers

/-!
# Windows from behind

Big order is little order from behind.  So it is with every window that holds one word or one bit
set; flags in windows of more than eight bytes and the slots of handles are not of this kind, and
texts and raw bytes know no order.

* `Codec.Reverses` — two results of which the second is the first from behind, or the same refusal.
* `Scalar.isOrdered` — the codecs whose windows hold one word or one bit set.
* `Scalar.write_big`, `Scalar.read_big` — what they write and read in big order.
-/

namespace PackedRecord

/-! ## Words -/

namespace Word

theorem read_big (window : Bytes) : read .big window.reverse = read .little window := by
  simp only [read, ByteOrder.arrange, List.reverse_reverse]

theorem readSigned_big (window : Bytes) :
    readSigned .big window.reverse = readSigned .little window := by
  rw [readSigned, readSigned, List.length_reverse, read_big]

end Word

/-! ## Codecs of one word or bit set -/

namespace Codec

/-- The second result is the first one from behind, or the same refusal. -/
def Reverses (little big : Except Error Bytes) : Prop := big = little.map List.reverse

theorem Reverses.error (e : Error) : Reverses (.error e) (.error e) := rfl

theorem Reverses.word (n v : Nat) : Reverses (.ok (Word.write .little n v))
    (.ok (Word.write .big n v)) := rfl

theorem Reverses.elim {ι : Type} {little big : ι → Except Error Bytes}
    (h : ∀ i, Reverses (little i) (big i)) (e : Error) (view : Option ι) :
    Reverses (view.elim (.error e) little) (view.elim (.error e) big) := by
  cases view with
  | none => exact .error e
  | some i => exact h i

variable (name : String) (order : ByteOrder) (width : Nat)

theorem reverses_writeSigned (i : Int64) :
    Reverses (writeSigned name .little width i) (writeSigned name .big width i) := by
  unfold writeSigned
  split
  · exact .word width _
  · exact .error _

theorem reverses_writeUnsigned (n : UInt64) :
    Reverses (writeUnsigned name .little width n) (writeUnsigned name .big width n) := by
  unfold writeUnsigned
  split
  · exact .word width _
  · exact .error _

/-- A value is written as the number that it is taken for. -/
theorem writeInteger_of_integerOf? {signed : Bool} {x : Value} {y : Number}
    (h : integerOf? x = some y) : writeInteger name order width signed x =
      writeInteger name order width signed (.number y) := by
  have hy : integerOf? (.number y) = some y := rfl
  rw [writeInteger, writeInteger, h, hy]

theorem reverses_writeInteger (signed : Bool) (x : Value) :
    Reverses (writeInteger name .little width signed x)
      (writeInteger name .big width signed x) := by
  cases hy : integerOf? x with
  | none =>
    rw [writeInteger, writeInteger, hy]
    exact .error _
  | some y =>
    rw [writeInteger_of_integerOf? name .little width hy,
      writeInteger_of_integerOf? name .big width hy]
    cases signed with
    | true =>
      rw [writeInteger_signed, writeInteger_signed]
      exact .elim (reverses_writeSigned name width) _ _
    | false =>
      rw [writeInteger_unsigned, writeInteger_unsigned]
      exact .elim (reverses_writeUnsigned name width) _ _

theorem reverses_writeFloat (x : Value) :
    Reverses (writeFloat name .little width x) (writeFloat name .big width x) := by
  unfold writeFloat
  cases x.double? with
  | none => exact .error _
  | some d =>
    dsimp only
    split
    · exact .word 4 _
    · exact .word 8 _

theorem reverses_writeChoice (table : EnumTable) (x : Value) :
    Reverses (writeChoice name .little width table x) (writeChoice name .big width table x) := by
  unfold writeChoice
  cases table.code? x with
  | none => exact .error _
  | some code =>
    dsimp only
    split
    · exact reverses_writeSigned name width code
    split
    · exact .error _
    · exact reverses_writeUnsigned name width code.toUInt64

theorem reverses_writeBits (x : Value) :
    Reverses (writeBits name .little width x) (writeBits name .big width x) := by
  have hwords : ∀ words : List UInt64, Reverses (writeBits name .little width (.bits words))
      (writeBits name .big width (.bits words)) := by
    intro words
    rw [writeBits_bits, writeBits_bits]
    split
    · exact .word width _
    · exact .error _
  cases x with
  | bits words => exact hwords words
  | number y =>
    have hview : ∀ order, writeBits name order width (.number y) =
        y.toNat?.elim (.error (.outOfRange name width))
          fun w => writeBits name order width (.bits [w]) := by
      intro order
      rw [writeBits]
      cases y.toNat? <;> rfl
    rw [hview, hview]
    exact .elim (fun w => hwords [w]) _ _
  | _ => exact .error _

theorem reverses_writeCount (count : Option Int64) :
    Reverses (writeCount name .little width count) (writeCount name .big width count) := by
  cases count with
  | none => exact .error _
  | some i => exact reverses_writeSigned name width i

theorem reverses_writeTimestamp (unit : Time.Unit) (x : Value) :
    Reverses (writeTimestamp name .little width unit x)
      (writeTimestamp name .big width unit x) := by
  cases x with
  | instant t => exact reverses_writeCount name width _
  | number y => exact reverses_writeCount name width _
  | _ => exact .error _

theorem reverses_writeDuration (unit : Time.Unit) (x : Value) :
    Reverses (writeDuration name .little width unit x) (writeDuration name .big width unit x) := by
  cases x with
  | span d => exact reverses_writeCount name width _
  | number y => exact reverses_writeCount name width _
  | _ => exact .error _

theorem signedWord_big (window : Bytes) :
    signedWord .big window.reverse = signedWord .little window := by
  rw [signedWord, signedWord, Word.readSigned_big]

theorem unsignedWord_big (window : Bytes) :
    unsignedWord .big window.reverse = unsignedWord .little window := by
  rw [unsignedWord, unsignedWord, Word.read_big]

end Codec

/-! ## All of them -/

namespace Scalar

variable {σ : Type} [Heap σ]

/-- Windows of the codec hold one word or one bit set, in the byte order of the record. -/
def isOrdered : Scalar → Bool
  | integer _ | float | enumeration _ | bitField | timestamp _ | duration _ => true
  | bool | fixedText _ | varyingText _ | varyingBytes | raw => false

variable {codec : Scalar} (h : codec.isOrdered = true) (name : String)
include h

/-- **In big order windows are written from behind.** -/
theorem write_big (width : Nat) (x : Value) (heap : Option σ) :
    codec.write name .big width x heap =
      ((codec.write name .little width x heap).1.map List.reverse,
        (codec.write name .little width x heap).2) := by
  refine Prod.ext ?_ ?_
  · cases codec with
    | integer signed => exact Codec.reverses_writeInteger name width signed x
    | float => exact Codec.reverses_writeFloat name width x
    | enumeration table => exact Codec.reverses_writeChoice name width table x
    | bitField => exact Codec.reverses_writeBits name width x
    | timestamp unit => exact Codec.reverses_writeTimestamp name width unit x
    | duration unit => exact Codec.reverses_writeDuration name width unit x
    | _ => cases h
  · cases codec <;> first | rfl | cases h

/-- **A window from behind reads in big order as it does in little order.** -/
theorem read_big (window : Bytes) (heap : Option σ) :
    codec.read name .big window.reverse heap = codec.read name .little window heap := by
  cases codec with
  | integer signed =>
    simp only [read, Codec.readInteger, Codec.signedWord_big, Codec.unsignedWord_big]
  | float =>
    simp only [read, Codec.readFloat, List.length_reverse, Codec.unsignedWord_big, Word.read_big]
  | enumeration table =>
    simp only [read, Codec.readChoice, Codec.signedWord_big, Codec.unsignedWord_big]
  | bitField =>
    simp only [read, Codec.readBits, ByteOrder.arrange, List.length_reverse, List.reverse_reverse]
  | timestamp unit => simp only [read, Codec.readTimestamp, Codec.signedWord_big]
  | duration unit => simp only [read, Codec.readDuration, Codec.signedWord_big]
  | _ => cases h

end Scalar

end PackedRecord
