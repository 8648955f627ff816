import Mathlib.Tactic.Common
import PackedRecord.Text.Utf8

/-!
# Decoding what was encoded

* `decode_encode` — on the bytes of a text nothing is replaced.
* `zero_notMem_encode` — only the character NUL has a zero byte, so a text without it is read
  back up to the first zero behind it (`takeWhile_encode`).
-/

namespace PackedRecord.Text.Utf8

theorem toNat_ofNat {n : Nat} (h : n < 256) : (UInt8.ofNat n).toNat = n := by
  rw [UInt8.toNat_ofNat']
  exact Nat.mod_eq_of_lt h

/-- A character is no surrogate and lies below the end of the last plane. -/
theorem toNat_range (c : Char) : c.toNat < 0xd800 ∨ 0xdfff < c.toNat ∧ c.toNat < 0x110000 := by
  have h := c.valid
  simp only [UInt32.isValidChar, Nat.isValidChar] at h
  exact h

/-! ## One step of the decoder -/

/-- The byte that completes a character. -/
theorem decodeFrom_last {least greatest code t : Nat} (ht : t < 64) (hl : least ≤ 0x80 + t)
    (hg : 0x80 + t ≤ greatest) (rest : Bytes) :
    decodeFrom (some ⟨1, least, greatest, code⟩) (UInt8.ofNat (0x80 + t) :: rest) =
      Char.ofNat (code * 64 + t) :: decodeFrom none rest := by
  simp only [decodeFrom, step, toNat_ofNat (show 0x80 + t < 256 by omega),
    if_pos (And.intro hl hg), Nat.le_refl, if_true, Nat.add_sub_cancel_left]
  rfl

/-- A byte within a character. -/
theorem decodeFrom_more {due least greatest code t : Nat} (ht : t < 64) (hl : least ≤ 0x80 + t)
    (hg : 0x80 + t ≤ greatest) (rest : Bytes) :
    decodeFrom (some ⟨due + 2, least, greatest, code⟩) (UInt8.ofNat (0x80 + t) :: rest) =
      decodeFrom (some ⟨due + 1, 0x80, 0xbf, code * 64 + t⟩) rest := by
  simp only [decodeFrom, step, toNat_ofNat (show 0x80 + t < 256 by omega),
    if_pos (And.intro hl hg), if_neg (show ¬due + 2 ≤ 1 by omega), Nat.add_sub_cancel_left]
  rfl

theorem decodeFrom_start {p : Partial} {b : Nat} (hb : b < 256)
    (hs : start b = ([], some p)) (rest : Bytes) :
    decodeFrom none (UInt8.ofNat b :: rest) = decodeFrom (some p) rest := by
  simp only [decodeFrom, step, toNat_ofNat hb, hs]
  rfl

/-- The first of two bytes. -/
theorem start_of_two {t : Nat} (h : 2 ≤ t ∧ t < 32) :
    start (0xc0 + t) = ([], some ⟨1, 0x80, 0xbf, t⟩) := by
  unfold start
  rw [if_neg (by omega), if_pos (by omega), Nat.add_sub_cancel_left]

/-- The first of three bytes; the bounds of the second one keep the form shortest and leave
out the surrogates. -/
theorem start_of_three {t : Nat} (h : t < 16) :
    start (0xe0 + t) =
      ([], some ⟨2, if t = 0 then 0xa0 else 0x80, if t = 0xd then 0x9f else 0xbf, t⟩) := by
  unfold start
  rw [if_neg (by omega), if_neg (by omega)]
  by_cases h0 : t = 0
  · subst h0; rfl
  by_cases hd : t = 0xd
  · subst hd; rfl
  rw [if_neg (by omega), if_neg (by omega), if_pos (by omega), if_neg h0, if_neg hd,
    Nat.add_sub_cancel_left]

/-- The first of four bytes; the bounds of the second one keep the form shortest and end at the
last plane. -/
theorem start_of_four {t : Nat} (h : t ≤ 4) :
    start (0xf0 + t) =
      ([], some ⟨3, if t = 0 then 0x90 else 0x80, if t = 4 then 0x8f else 0xbf, t⟩) := by
  unfold start
  rw [if_neg (by omega), if_neg (by omega), if_neg (by omega), if_neg (by omega),
    if_neg (by omega)]
  by_cases h0 : t = 0
  · subst h0; rfl
  by_cases h4 : t = 4
  · subst h4; rfl
  rw [if_neg (by omega), if_pos (by omega), if_neg h0, if_neg h4, Nat.add_sub_cancel_left]

/-! ## Whole characters and texts -/

/-- The decoder reads one encoded character and is at the start of a character again. -/
theorem decodeFrom_encodeChar (c : Char) (rest : Bytes) :
    decodeFrom none (encodeChar c ++ rest) = c :: decodeFrom none rest := by
  have hc : Char.ofNat c.toNat = c := Char.ofNat_toNat c
  have hr := toNat_range c
  simp only [encodeChar]
  generalize c.toNat = n at hc hr
  -- The cases are the four lengths of an encoded character.
  split
  · rename_i h1
    simp only [List.cons_append, List.nil_append, decodeFrom, step,
      toNat_ofNat (show n < 256 by omega)]
    rw [start, if_pos h1, hc]
    rfl
  split
  · rename_i h1 h2
    simp only [List.cons_append, List.nil_append]
    rw [decodeFrom_start (by omega) (start_of_two (by omega)),
      decodeFrom_last (by omega) (by omega) (by omega),
      show n / 64 * 64 + n % 64 = n by omega, hc]
  split
  · rename_i h1 h2 h3
    simp only [List.cons_append, List.nil_append]
    rw [decodeFrom_start (by omega) (start_of_three (by omega)),
      decodeFrom_more (by omega) (by split <;> omega) (by split <;> omega),
      decodeFrom_last (by omega) (by omega) (by omega),
      show (n / 4096 * 64 + n / 64 % 64) * 64 + n % 64 = n by omega, hc]
  · rename_i h1 h2 h3
    simp only [List.cons_append, List.nil_append]
    rw [decodeFrom_start (by omega) (start_of_four (by omega)),
      decodeFrom_more (by omega) (by split <;> omega) (by split <;> omega),
      decodeFrom_more (by omega) (by omega) (by omega),
      decodeFrom_last (by omega) (by omega) (by omega),
      show ((n / 262144 * 64 + n / 4096 % 64) * 64 + n / 64 % 64) * 64 + n % 64 = n by omega, hc]

theorem decodeFrom_encodeChars (cs : List Char) : decodeFrom none (cs.flatMap encodeChar) = cs := by
  induction cs with
  | nil => rfl
  | cons c cs ih => rw [List.flatMap_cons, decodeFrom_encodeChar, ih]

theorem decode_encode (s : String) : decode (encode s) = s := by
  rw [decode, encode, decodeFrom_encodeChars, String.ofList_toList]

theorem zero_ne_ofNat {n : Nat} (h : n < 256) (h0 : n ≠ 0) : (0 : UInt8) ≠ UInt8.ofNat n := by
  intro he
  have := congrArg UInt8.toNat he
  rw [toNat_ofNat h] at this
  exact h0 this.symm

theorem zero_notMem_encodeChar {c : Char} (hc : c ≠ '\x00') : (0 : UInt8) ∉ encodeChar c := by
  have hn : c.toNat ≠ 0 := fun h => hc (Char.toNat_inj.1 h)
  have hr := toNat_range c
  simp only [encodeChar]
  generalize c.toNat = n at hn hr
  split
  · simp only [List.mem_singleton]
    exact zero_ne_ofNat (by omega) hn
  split
  · simp only [List.mem_cons, List.not_mem_nil, or_false, not_or]
    exact ⟨zero_ne_ofNat (by omega) (by omega), zero_ne_ofNat (by omega) (by omega)⟩
  split
  · simp only [List.mem_cons, List.not_mem_nil, or_false, not_or]
    exact ⟨zero_ne_ofNat (by omega) (by omega), zero_ne_ofNat (by omega) (by omega),
      zero_ne_ofNat (by omega) (by omega)⟩
  · simp only [List.mem_cons, List.not_mem_nil, or_false, not_or]
    exact ⟨zero_ne_ofNat (by omega) (by omega), zero_ne_ofNat (by omega) (by omega),
      zero_ne_ofNat (by omega) (by omega), zero_ne_ofNat (by omega) (by omega)⟩

theorem zero_notMem_encode {s : String} (hs : '\x00' ∉ s.toList) : (0 : UInt8) ∉ encode s := by
  intro h
  obtain ⟨c, hc, hmem⟩ := List.mem_flatMap.1 h
  exact zero_notMem_encodeChar (fun he => hs (he ▸ hc)) hmem

/-- Up to the first zero, a text and the zeros behind it are the text. -/
theorem takeWhile_encode {s : String} (hs : '\x00' ∉ s.toList) (n : Nat) :
    (encode s ++ List.replicate n (0 : UInt8)).takeWhile (· != 0) = encode s := by
  have hne : ∀ b ∈ encode s, (b != 0) = true := by
    intro b hb
    rw [bne_iff_ne]
    rintro rfl
    exact zero_notMem_encode hs hb
  rw [List.takeWhile_append_of_pos hne]
  cases n with
  | zero => simp
  | succ n => simp [List.replicate_succ]

end PackedRecord.Text.Utf8
