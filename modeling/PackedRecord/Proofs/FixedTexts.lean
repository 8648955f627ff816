import Mathlib.Data.List.TakeWhile
import PackedRecord.Proofs.GuardedScalars

/-!
# Strings of fixed width

A string of fixed width takes every text that its character set allows and that leaves room for
the NUL behind it, whatever was in the window before.  It is read back up to its first NUL, so that
a text that has one inside loses the rest without an error.

* `Text.Utf8.length_encode` — how many bytes the codec writes is the size of the text.
* `Text.Utf8.takeWhile_encode_zeros` — the bytes before the first zero are those of the characters
  before the first NUL.
* `fixed_text_read_back` — which texts are taken, and which of them are read back.
* `inner_nul_drops` — a text with a NUL inside is taken and read back without its end.
-/

namespace PackedRecord

namespace Text

/-- The text before the first NUL. -/
def beforeNul (s : String) : String := String.ofList (s.toList.takeWhile (· != '\x00'))

theorem beforeNul_eq_self_iff {s : String} : beforeNul s = s ↔ '\x00' ∉ s.toList := by
  rw [beforeNul, ← String.toList_inj, String.toList_ofList]
  constructor
  · intro h hmem
    rw [← h] at hmem
    exact absurd (List.mem_takeWhile_imp hmem) (by simp)
  · intro h
    rw [List.takeWhile_eq_self_iff]
    intro c hc
    rw [bne_iff_ne]
    rintro rfl
    exact h hc

namespace Utf8

theorem isAscii_iff {s : String} : isAscii s = true ↔ ∀ c ∈ s.toList, c.toNat < 128 := by
  simp [isAscii]

/-! ## Number of bytes -/

theorem utf8Size_eq (c : Char) : c.utf8Size =
    if c.toNat ≤ 0x7f then 1 else if c.toNat ≤ 0x7ff then 2 else if c.toNat ≤ 0xffff then 3
    else 4 := rfl

theorem length_encodeChar (c : Char) : (encodeChar c).length = c.utf8Size := by
  -- Both sides compare the code point with the ends of the same three ranges.
  simp only [utf8Size_eq, encodeChar, Nat.le_iff_lt_add_one, Nat.reduceAdd]
  split_ifs <;> rfl

theorem length_encodeChars (cs : List Char) :
    (cs.flatMap encodeChar).length = (String.ofList cs).utf8ByteSize := by
  induction cs with
  | nil => rfl
  | cons c cs ih =>
    have hcons : String.ofList (c :: cs) = String.singleton c ++ String.ofList cs := by
      rw [String.singleton_eq_ofList, ← String.ofList_append, List.singleton_append]
    rw [List.flatMap_cons, List.length_append, length_encodeChar, ih, hcons,
      String.utf8ByteSize_append, String.utf8ByteSize_singleton]

/-- **A text has as many bytes as its UTF-8 size says.** -/
theorem length_encode (s : String) : (encode s).length = s.utf8ByteSize := by
  rw [encode, length_encodeChars, String.ofList_toList]

/-! ## Up to the first zero -/

theorem takeWhile_encodeChars_zeros (n : Nat) : ∀ cs : List Char,
    (cs.flatMap encodeChar ++ List.replicate n (0 : UInt8)).takeWhile (· != 0) =
      (cs.takeWhile (· != '\x00')).flatMap encodeChar
  | [] => by cases n <;> simp [List.replicate_succ]
  | c :: cs => by
    rw [List.flatMap_cons, List.append_assoc]
    by_cases hc : c = '\x00'
    · -- NUL is written as the zero byte that ends the text.
      subst hc
      rfl
    · have hne : ∀ b ∈ encodeChar c, (b != 0) = true := by
        intro b hb
        rw [bne_iff_ne]
        rintro rfl
        exact zero_notMem_encodeChar hc hb
      rw [List.takeWhile_append_of_pos hne, takeWhile_encodeChars_zeros n cs,
        List.takeWhile_cons_of_pos (by rwa [bne_iff_ne]), List.flatMap_cons]

/-- The bytes before the first zero are those of the characters before the first NUL. -/
theorem takeWhile_encode_zeros (s : String) (n : Nat) :
    (encode s ++ List.replicate n (0 : UInt8)).takeWhile (· != 0) = encode (beforeNul s) := by
  rw [encode, takeWhile_encodeChars_zeros, beforeNul, encode, String.toList_ofList]

end Utf8

end Text

namespace Codec

variable (name : String) {width : Nat} {charset : Charset} {s : String}

/-- A text is taken exactly if its character set allows it and it leaves room for a NUL. -/
theorem writeFixedText_ok_iff {window : Bytes} :
    writeFixedText name width charset (.text s) = .ok window ↔
      charset.Allows s ∧ s.utf8ByteSize + 1 ≤ width ∧
        window = Text.Utf8.encode s ++ zeros (width - (Text.Utf8.encode s).length) := by
  unfold writeFixedText
  by_cases hallows : charset.Allows s
  · rw [textBytes_of_allows name hallows]
    dsimp only
    rw [Text.Utf8.length_encode]
    by_cases hfits : width < s.utf8ByteSize + 1
    · rw [if_pos hfits]
      exact iff_of_false (by simp) (by omega)
    · rw [if_neg hfits, Except.ok.injEq]
      exact ⟨fun h => ⟨hallows, by omega, h.symm⟩, fun h => h.2.2.symm⟩
  · have hrefused : charset = .ascii ∧ Text.Utf8.isAscii s = false := by
      unfold Charset.Allows at hallows
      grind
    have hbytes : textBytes name charset (.text s) =
        .error (.kindMismatch name "ascii string" "utf-8 string") := if_pos hrefused
    rw [hbytes]
    exact iff_of_false (by simp) fun h => hallows h.1

theorem readFixedText_encode (s : String) (n : Nat) :
    readFixedText (Text.Utf8.encode s ++ zeros n) = .text (Text.beforeNul s) := by
  rw [readFixedText, zeros, Text.Utf8.takeWhile_encode_zeros, Text.Utf8.decode_encode]

end Codec

/-- **A text of fixed width is read back up to its first NUL.**  Writing into a window does not
depend on what was there, and takes a text exactly if its character set allows it and its bytes
with one more fit.  What was written fills the window and is read back as the characters before the
first NUL: as the text itself exactly if it has none. -/
theorem fixed_text_read_back (name : String) (charset : Charset) (s : String) (window : Bytes) :
    Guarded.writeFixedText name window charset (.text s) =
        .ok (Codec.writeFixedText name window.length charset (.text s)) ∧
    ((∃ written, Codec.writeFixedText name window.length charset (.text s) = .ok written) ↔
      (charset = .ascii → ∀ c ∈ s.toList, c.toNat < 128) ∧ s.utf8ByteSize + 1 ≤ window.length) ∧
    ∀ written, Codec.writeFixedText name window.length charset (.text s) = .ok written →
      written.length = window.length ∧
      Guarded.readFixedText written = .ok (.text (Text.beforeNul s)) ∧
      (Codec.readFixedText written = .text s ↔ '\x00' ∉ s.toList) := by
  have hallows : charset.Allows s ↔ (charset = .ascii → ∀ c ∈ s.toList, c.toNat < 128) := by
    rw [Charset.Allows, Text.Utf8.isAscii_iff]
  refine ⟨Guarded.writeFixedText_eq name window charset (.text s), ?_, fun written hok => ?_⟩
  · simp only [Codec.writeFixedText_ok_iff, exists_and_left, exists_eq, and_true, hallows]
  · obtain ⟨-, hfits, rfl⟩ := (Codec.writeFixedText_ok_iff name).1 hok
    have hlen := Text.Utf8.length_encode s
    refine ⟨?_, ?_, ?_⟩
    · rw [List.length_append, Codec.zeros, List.length_replicate]
      omega
    · rw [Guarded.readFixedText_eq, Codec.readFixedText_encode]
    · rw [Codec.readFixedText_encode, Value.text.injEq, Text.beforeNul_eq_self_iff]

/-- A text of seven bytes fills a window of eight that held other bytes, and is read back. -/
theorem fixed_text_read_back_seven :
    ∃ written, Guarded.writeFixedText "s" (List.replicate 8 255) .ascii (.text "1234567") =
        .ok (.ok written) ∧
      written.length = 8 ∧ Codec.readFixedText written = .text "1234567" := by
  obtain ⟨hwindow, htaken, hread⟩ :=
    fixed_text_read_back "s" .ascii "1234567" (List.replicate 8 255)
  have hascii : ∀ c ∈ "1234567".toList, c.toNat < 128 := Text.Utf8.isAscii_iff.1 (by decide)
  obtain ⟨written, hok⟩ := htaken.2 ⟨fun _ => hascii, by decide⟩
  obtain ⟨hlen, -, hkept⟩ := hread written hok
  exact ⟨written, by rw [hwindow, hok], hlen, hkept.2 (by decide)⟩

/-- A text with a NUL inside is taken, and only its start is read back. -/
theorem inner_nul_drops :
    Codec.writeFixedText "s" 8 .ascii (.text "a\x00b") = .ok [97, 0, 98, 0, 0, 0, 0, 0] ∧
    Codec.readFixedText [97, 0, 98, 0, 0, 0, 0, 0] = .text "a" ∧
    Value.text "a" ≠ .text "a\x00b" := by
  exact ⟨by decide, by rfl, by simp⟩

end PackedRecord
