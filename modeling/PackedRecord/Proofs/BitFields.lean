import PackedRecord.Proofs.Canonical
import PackedRecord.Proofs.Words

/-!
# Bit fields

A bit field of any width is one unsigned number in the byte order of its record: the number whose
binary digits are the bits of the set, the least significant word first.  Where the width is no
multiple of eight bytes the last word is partial.

* `Codec.bitAt`, `Codec.resized` — the bits of a set, and the set in a given number of words.
* `Codec.testBit_bitNumber` — the binary digits of the number of a set are its bits.
* `Codec.writeBits_bits` — a set is written as its number, if the number fits.
* `Codec.bitNumber_of_readBits` — a window is read as the words of its number.
* `bit_sets_kept` — which sets are taken, what they are read back as, and that every window is
  written back.
-/

namespace PackedRecord

attribute [local instance] corePow

namespace Codec

/-- The bit of a set at a position; words have 64 bits, the least significant word is the first, and
no bit is set behind the last one. -/
def bitAt (words : List UInt64) (position : Nat) : Bool :=
  (words.getD (position / 64) 0).toNat.testBit (position % 64)

/-- A set in a number of words: padded with words of zeros, or cut. -/
def resized (words : List UInt64) (count : Nat) : List UInt64 :=
  words.take count ++ List.replicate (count - words.length) 0

/-! ## Numbers of sets -/

/-- **The binary digits of the number of a set are its bits.** -/
theorem testBit_bitNumber (words : List UInt64) (position : Nat) :
    (bitNumber words).testBit position = bitAt words position := by
  induction words generalizing position with
  | nil => simp [bitNumber, bitAt]
  | cons w rest ih =>
    rw [bitNumber, Nat.add_comm, Nat.testBit_two_pow_mul_add _ w.toNat_lt]
    by_cases hfirst : position < 64
    · have hword : position / 64 = 0 := by omega
      have hbit : position % 64 = position := Nat.mod_eq_of_lt hfirst
      rw [if_pos hfirst, bitAt, hword, hbit]
      rfl
    · have hword : position / 64 = (position - 64) / 64 + 1 := by omega
      have hbit : position % 64 = (position - 64) % 64 := by omega
      rw [if_neg hfirst, ih, bitAt, bitAt, hword, hbit]
      rfl

/-- A number fits a window exactly if no bit is set behind the window. -/
theorem bitNumber_lt_iff {words : List UInt64} {width : Nat} :
    bitNumber words < 256 ^ width ↔
      ∀ position, 8 * width ≤ position → bitAt words position = false := by
  have hpow : 256 ^ width = 2 ^ (8 * width) := by rw [Nat.pow_mul]
  simp only [hpow, ← testBit_bitNumber]
  constructor
  · intro hlt position hle
    exact Nat.testBit_lt_two_pow (hlt.trans_le (Nat.pow_le_pow_right (by decide) hle))
  · intro hnone
    exact Nat.lt_pow_two_of_testBit _ hnone

theorem bitNumber_replicate (count : Nat) : bitNumber (List.replicate count 0) = 0 := by
  induction count with
  | zero => rfl
  | succ count ih => simp [List.replicate_succ, bitNumber, ih]

/-- Sets of equally many words with one number are the same. -/
theorem bitNumber_inj : ∀ {a b : List UInt64}, a.length = b.length → bitNumber a = bitNumber b →
    a = b
  | [], [], _, _ => rfl
  | v :: a, w :: b, hlen, h => by
    have hv := v.toNat_lt
    have hw := w.toNat_lt
    simp only [bitNumber] at h
    have hhead : v = w := UInt64.toNat_inj.1 (by omega)
    have htail : a = b := bitNumber_inj (by simpa using hlen) (by omega)
    rw [hhead, htail]

theorem length_resized (words : List UInt64) (count : Nat) :
    (resized words count).length = count := by
  simp only [resized, List.length_append, List.length_take, List.length_replicate]
  omega

/-- A set whose number fits some words has the same number in these words. -/
theorem bitNumber_resized : ∀ {words : List UInt64} {count : Nat},
    bitNumber words < 2 ^ (64 * count) → bitNumber (resized words count) = bitNumber words
  | [], count, _ => by simp [resized, bitNumber_replicate, bitNumber]
  | w :: rest, 0, h => by
    have hzero : bitNumber (w :: rest) = 0 := by simpa using h
    rw [hzero]
    simp [resized, bitNumber]
  | w :: rest, count + 1, h => by
    have hresized : resized (w :: rest) (count + 1) = w :: resized rest count := by
      simp [resized]
    have hrest : bitNumber rest < 2 ^ (64 * count) := by
      rw [Nat.mul_succ, Nat.pow_add, Nat.mul_comm] at h
      simp only [bitNumber] at h
      omega
    rw [hresized, bitNumber, bitNumber_resized hrest, bitNumber]

end Codec

/-! ## Cutting windows -/

namespace Word

variable {bytes : Bytes} {width : Nat}

theorem all_eq_zero_iff : bytes.all (· == 0) = true ↔ value bytes = 0 := by
  constructor
  · intro hall
    have hzeros : bytes = List.replicate bytes.length 0 :=
      List.eq_replicate_iff.2 ⟨rfl, fun b hb => eq_of_beq (List.all_eq_true.1 hall b hb)⟩
    rw [hzeros, value_zeros]
  · intro hzero
    rw [eq_zeros_of_value hzero]
    simp

theorem value_take_add_drop (bytes : Bytes) (width : Nat) :
    value (bytes.take width) + 256 ^ width * value (bytes.drop width) = value bytes := by
  by_cases hshort : bytes.length ≤ width
  · rw [List.take_of_length_le hshort, List.drop_of_length_le hshort]
    rfl
  · have htake : (bytes.take width).length = width := by
      rw [List.length_take]
      omega
    have happend := value_append (bytes.take width) (bytes.drop width)
    rw [htake, List.take_append_drop] at happend
    exact happend.symm

/-- Nothing but zeros lies behind the first bytes exactly if the number fits these. -/
theorem value_drop_eq_zero_iff :
    value (bytes.drop width) = 0 ↔ FitsUnsigned width (value bytes) := by
  have hsplit := value_take_add_drop bytes width
  have hlt : value (bytes.take width) < 256 ^ width :=
    (value_lt _).trans_le (Nat.pow_le_pow_right (by decide) (List.length_take_le ..))
  unfold FitsUnsigned
  constructor
  · intro hzero
    rw [hzero] at hsplit
    omega
  · intro hfits
    by_contra hne
    have := Nat.le_mul_of_pos_right (256 ^ width) (Nat.pos_of_ne_zero hne)
    omega

/-- Bytes cut or padded to a width that their number fits are the digits of the number. -/
theorem take_append_zeros (h : FitsUnsigned width (value bytes)) :
    bytes.take width ++ Codec.zeros (width - bytes.length) = digits width (value bytes) := by
  have hlen : (bytes.take width ++ Codec.zeros (width - bytes.length)).length = width := by
    simp only [List.length_append, List.length_take, Codec.zeros, List.length_replicate]
    omega
  have hvalue : value (bytes.take width ++ Codec.zeros (width - bytes.length)) = value bytes := by
    have hsplit := value_take_add_drop bytes width
    rw [value_drop_eq_zero_iff.2 h, Nat.mul_zero, Nat.add_zero] at hsplit
    rw [value_append, Codec.zeros, value_zeros, Nat.mul_zero, Nat.add_zero, hsplit]
  have hdigits := digits_value (bytes.take width ++ Codec.zeros (width - bytes.length))
  rw [hlen, hvalue] at hdigits
  exact hdigits.symm

/-- A number in more bytes than it was read from: zeros are added. -/
theorem digits_value_of_le (h : bytes.length ≤ width) :
    digits width (value bytes) = bytes ++ Codec.zeros (width - bytes.length) := by
  have hfits : FitsUnsigned width (value bytes) :=
    Nat.lt_of_lt_of_le (value_lt bytes) (Nat.pow_le_pow_right (by decide) h)
  rw [← take_append_zeros hfits, List.take_of_length_le h]

end Word

/-! ## Windows of sets -/

namespace Codec

theorem length_runs (width count : Nat) (bytes : Bytes) :
    (runs width count bytes).length = count := by
  induction count generalizing bytes with
  | zero => rfl
  | succ count ih => rw [runs, List.length_cons, ih]

open Word in
/-- Bytes of a bit set, whole words. -/
def wordBytes (words : List UInt64) : Bytes := words.flatMap fun w => digits 8 w.toNat

theorem value_digits_word (w : UInt64) : Word.value (Word.digits 8 w.toNat) = w.toNat := by
  rw [Word.value_digits]
  exact Nat.mod_eq_of_lt w.toNat_lt

theorem value_wordBytes (words : List UInt64) :
    Word.value (wordBytes words) = bitNumber words := by
  induction words with
  | nil => rfl
  | cons w rest ih =>
    have hcons : wordBytes (w :: rest) = Word.digits 8 w.toNat ++ wordBytes rest := rfl
    rw [hcons, Word.value_append, ih, value_digits_word, Word.length_digits]
    rfl

/-- Words read from some bytes are these bytes and zeros up to a whole word. -/
theorem wordBytes_runs : ∀ (count : Nat) (bytes : Bytes), bytes.length ≤ 8 * count →
    wordBytes ((runs 8 count bytes).map fun run => UInt64.ofNat (Word.value run)) =
      bytes ++ zeros (8 * count - bytes.length)
  | 0, bytes, h => by
    have hnil : bytes = [] := List.length_eq_zero_iff.1 (by omega)
    rw [hnil]
    rfl
  | count + 1, bytes, h => by
    have hrest : (bytes.drop 8).length ≤ 8 * count := by
      rw [List.length_drop]
      omega
    have hfirst : (bytes.take 8).length ≤ 8 := by
      rw [List.length_take]
      omega
    have hword : (UInt64.ofNat (Word.value (bytes.take 8))).toNat = Word.value (bytes.take 8) := by
      rw [UInt64.toNat_ofNat']
      refine Nat.mod_eq_of_lt ((Word.value_lt _).trans_le ?_)
      exact Nat.pow_le_pow_right (by decide) hfirst
    have hcons : ∀ (w : UInt64) (words : List UInt64),
        wordBytes (w :: words) = Word.digits 8 w.toNat ++ wordBytes words := fun _ _ => rfl
    rw [runs, List.map_cons, hcons, hword, Word.digits_value_of_le hfirst,
      wordBytes_runs count _ hrest]
    by_cases hshort : bytes.length < 8
    · have hdrop : bytes.drop 8 = [] := List.drop_of_length_le (by omega)
      have htake : bytes.take 8 = bytes := List.take_of_length_le (by omega)
      rw [hdrop, htake, List.nil_append, List.length_nil, List.append_assoc, zeros, zeros, zeros,
        List.replicate_append_replicate]
      congr 2
      omega
    · have hfull : (bytes.take 8).length = 8 := by
        rw [List.length_take]
        omega
      rw [hfull, Nat.sub_self, zeros, List.replicate_zero, List.append_nil, ← List.append_assoc,
        List.take_append_drop, List.length_drop]
      congr 2
      omega

/-- **A bit set is written as its number**, if that fits the window. -/
theorem writeBits_bits (name : String) (order : ByteOrder) (width : Nat) (words : List UInt64) :
    writeBits name order width (.bits words) =
      if Word.FitsUnsigned width (bitNumber words) then
        .ok (Word.write order width (bitNumber words))
      else .error (.outOfRange name width) := by
  have hvalue := value_wordBytes words
  show (if ((wordBytes words).drop width).all (· == 0) = true then
    Except.ok (order.arrange ((wordBytes words).take width ++
      zeros (width - (wordBytes words).length))) else _) = _
  simp only [Word.all_eq_zero_iff, Word.value_drop_eq_zero_iff, hvalue]
  split
  · rename_i hfits
    rw [← hvalue] at hfits
    rw [Word.take_append_zeros hfits, hvalue, Word.write]
  · rfl

/-- **A window is read as the words of its number.** -/
theorem bitNumber_of_readBits (order : ByteOrder) (window : Bytes) :
    ∃ words, readBits order window = .bits words ∧ words.length = (window.length + 7) / 8 ∧
      bitNumber words = Word.read order window := by
  have hlen := order.length_arrange window
  refine ⟨_, rfl, by rw [List.length_map, length_runs], ?_⟩
  rw [← value_wordBytes, wordBytes_runs _ _ (by omega), Word.value_append, zeros, Word.value_zeros,
    Nat.mul_zero, Nat.add_zero, Word.read]

end Codec

/-- **Bit fields of any width keep their bits.**  A set is taken exactly if no bit is set behind the
window, and refused as out of range otherwise.  The window then holds the bits of the set, and is
read as the set in exactly as many words as the window needs.  What is read from a window is written
as the same window. -/
theorem bit_sets_kept (name : String) (order : ByteOrder) (width : Nat) (words : List UInt64) :
    ((∃ window, Codec.writeBits name order width (.bits words) = .ok window) ↔
      ∀ position, 8 * width ≤ position → Codec.bitAt words position = false) ∧
    (∀ window, Codec.writeBits name order width (.bits words) = .ok window →
      window.length = width ∧
      (∀ position, (Word.read order window).testBit position = Codec.bitAt words position) ∧
      Codec.readBits order window = .bits (Codec.resized words ((width + 7) / 8))) ∧
    (∀ e, Codec.writeBits name order width (.bits words) = .error e → e = .outOfRange name width) ∧
    ∀ window : Bytes, Codec.writeBits name order window.length (Codec.readBits order window) =
      .ok window := by
  rw [Codec.writeBits_bits, ← Codec.bitNumber_lt_iff]
  refine ⟨?_, ?_, ?_, ?_⟩
  · show _ ↔ Word.FitsUnsigned width _
    split <;> simp [*]
  · intro window hok
    split at hok
    · rename_i hfits
      cases hok
      have hread := Word.read_write order hfits
      refine ⟨Word.length_write .., fun position => ?_, ?_⟩
      · rw [hread, Codec.testBit_bitNumber]
      · obtain ⟨back, hback, hcount, hnumber⟩ :=
          Codec.bitNumber_of_readBits order (Word.write order width (Codec.bitNumber words))
        rw [Word.length_write] at hcount
        rw [hread] at hnumber
        have hwide : Codec.bitNumber words < 2 ^ (64 * ((width + 7) / 8)) := by
          refine Nat.lt_of_lt_of_le hfits ?_
          rw [show 256 = 2 ^ 8 by rfl, ← Nat.pow_mul]
          exact Nat.pow_le_pow_right (by decide) (by omega)
        rw [hback, Value.bits.injEq]
        apply Codec.bitNumber_inj
        · rw [hcount, Codec.length_resized]
        · rw [hnumber, Codec.bitNumber_resized hwide]
    · cases hok
  · intro e herror
    split at herror
    · cases herror
    · exact (Except.error.inj herror).symm
  · intro window
    obtain ⟨back, hback, -, hnumber⟩ := Codec.bitNumber_of_readBits order window
    rw [hback, Codec.writeBits_bits, hnumber, if_pos (Word.fitsUnsigned_read order window),
      Word.write_read]

/-- A set in two words is read back from three bytes in one, a bit behind them is refused, and nine
bytes of ones are written back. -/
theorem bit_sets_kept_three :
    (∀ position, 8 * 3 ≤ position → Codec.bitAt [197121, 0] position = false) ∧
    (∃ window, Codec.writeBits "f" .big 3 (.bits [197121, 0]) = .ok window ∧
      window.length = 3 ∧ Codec.readBits .big window = .bits [197121]) ∧
    Codec.writeBits "f" .big 3 (.bits [0, 1]) = .error (.outOfRange "f" 3) ∧
    Codec.writeBits "f" .big 9 (Codec.readBits .big (List.replicate 9 255)) =
      .ok (List.replicate 9 255) := by
  obtain ⟨htaken, hkept, -, hback⟩ := bit_sets_kept "f" .big 3 [197121, 0]
  obtain ⟨htaken', -, hrefused, -⟩ := bit_sets_kept "f" .big 3 [0, 1]
  have hbits : ∀ position, 8 * 3 ≤ position → Codec.bitAt [197121, 0] position = false :=
    Codec.bitNumber_lt_iff.1 (by decide)
  obtain ⟨window, hwindow⟩ := htaken.2 hbits
  refine ⟨hbits, ⟨window, hwindow, (hkept window hwindow).1, (hkept window hwindow).2.2⟩, ?_,
    hback (List.replicate 9 255)⟩
  rcases hwrite : Codec.writeBits "f" .big 3 (.bits [0, 1]) with e | window'
  · rw [hrefused e hwrite]
  · have hbit := htaken'.1 ⟨window', hwrite⟩ 64 (by decide)
    exact absurd hbit (by decide)

end PackedRecord
