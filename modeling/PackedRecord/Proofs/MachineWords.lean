import PackedRecord.Proofs.Words

/-!
# Integers in 64-bit words

A codec has the integers of narrow windows in words of 64 bits.  It sees by the place of the sign
bit, or by a shift, whether one fits its window, cuts a word to the bytes of the window with a mask,
and fills a word that it has read up with the sign by two shifts.  A shift by 64 places would be one
by none, so that windows of eight bytes are taken apart.

* `Word.fitsSigned_iff`, `Word.fitsUnsigned_iff` — the ranges of windows as powers of two.
* `Word.withinSigned_iff`, `Word.withinUnsigned_iff` — the two checks are those of the ranges.
* `Word.toNat_and_lowBytes` — the mask leaves the two's complement pattern.
* `Word.toInt_extended` — the two shifts give the number that a pattern stands for.
-/

namespace PackedRecord

attribute [local instance] corePow

namespace Word

variable {n : Nat}

/-! ## Ranges -/

theorem pow_bytes (n : Nat) : 256 ^ n = 2 ^ (8 * n) := by
  rw [Nat.pow_mul]

theorem fitsUnsigned_iff {v : Nat} : FitsUnsigned n v ↔ v < 2 ^ (8 * n) := by
  rw [← pow_bytes]
  exact Iff.rfl

theorem fitsSigned_iff (hpos : 0 < n) {v : Int} :
    FitsSigned n v ↔ -2 ^ (8 * n - 1) ≤ v ∧ v < 2 ^ (8 * n - 1) := by
  have hcast : ((256 ^ n : Nat) : Int) = 256 ^ n := Int.natCast_pow 256 n
  have hcast' : ((2 ^ (8 * n - 1) : Nat) : Int) = 2 ^ (8 * n - 1) := Int.natCast_pow 2 _
  have htwice : 256 ^ n = 2 * 2 ^ (8 * n - 1) := by
    rw [pow_bytes, ← Nat.pow_succ']
    congr 1
    omega
  unfold FitsSigned
  omega

/-! ## Checks, masks and extension -/

/-- The integer fits `n` bytes in two's complement, by the place of the sign bit. -/
def withinSigned (n : Nat) (i : Int64) : Bool :=
  if 8 ≤ n then true
  else
    let limit : Int64 := 1 <<< Int64.ofNat (8 * n - 1)
    decide (-limit ≤ i) && decide (i < limit)

/-- The word fits `n` bytes: nothing lies above them. -/
def withinUnsigned (n : Nat) (w : UInt64) : Bool :=
  decide (8 ≤ n) || w >>> UInt64.ofNat (8 * n) == 0

/-- The mask of the `n` lowest bytes of a word. -/
def lowBytes (n : Nat) : UInt64 :=
  if 8 ≤ n then UInt64.ofNat (2 ^ 64 - 1) else (1 <<< UInt64.ofNat (8 * n)) - 1

/-- The word with the sign bit of its `n` lowest bytes in all places above them. -/
def extended (n : Nat) (w : UInt64) : Int64 :=
  (w <<< UInt64.ofNat (64 - 8 * n)).toInt64 >>> Int64.ofNat (64 - 8 * n)

/-! ## Shifts of words -/

/-- Below 64 places a shift is by as many places as it says. -/
theorem toNat_places {k : Nat} (hk : k < 64) : (UInt64.ofNat k).toNat % 64 = k := by
  rw [UInt64.toNat_ofNat_of_lt' (by change _ < 2 ^ 64; omega), Nat.mod_eq_of_lt hk]

theorem toNat_shiftLeft {k : Nat} {w : UInt64} (hk : k < 64) (hw : w.toNat * 2 ^ k < 2 ^ 64) :
    (w <<< UInt64.ofNat k).toNat = w.toNat * 2 ^ k := by
  rw [UInt64.toNat_shiftLeft, toNat_places hk, Nat.shiftLeft_eq, Nat.mod_eq_of_lt hw]

theorem toNat_shiftRight {k : Nat} (hk : k < 64) (w : UInt64) :
    (w >>> UInt64.ofNat k).toNat = w.toNat / 2 ^ k := by
  rw [UInt64.toNat_shiftRight, toNat_places hk, Nat.shiftRight_eq_div_pow]

theorem toNat_one_shiftLeft {k : Nat} (hk : k < 64) :
    ((1 : UInt64) <<< UInt64.ofNat k).toNat = 2 ^ k := by
  have hlt : 2 ^ k < 2 ^ 64 := Nat.pow_lt_pow_right (by decide) hk
  have hone : (1 : UInt64).toNat * 2 ^ k = 2 ^ k := Nat.one_mul _
  rw [toNat_shiftLeft hk (by omega), hone]

/-- A bit below the sign bit, and its negative. -/
theorem toInt_limit : ∀ k < 63, ((1 : Int64) <<< Int64.ofNat k).toInt = 2 ^ k ∧
    (-((1 : Int64) <<< Int64.ofNat k)).toInt = -2 ^ k := by decide

/-- A shift of a signed word to the right rounds down. -/
theorem toInt_shiftRight {k : Nat} (hk : k < 64) (i : Int64) :
    (i >>> Int64.ofNat k).toInt = i.toInt / 2 ^ k := by
  have hplaces : ∀ k < 64, ((Int64.ofNat k).toBitVec.smod 64).toNat = k := by decide
  have hbits : (i >>> Int64.ofNat k).toBitVec = i.toBitVec.sshiftRight k := by
    rw [Int64.toBitVec_shiftRight, BitVec.sshiftRight_eq', hplaces k hk]
  have hpow : ((2 ^ k : Nat) : Int) = 2 ^ k := Int.natCast_pow 2 k
  change (i >>> Int64.ofNat k).toBitVec.toInt = _
  rw [hbits, BitVec.toInt_sshiftRight, Int.shiftRight_eq_div_pow, hpow]
  rfl

/-! ## Checks by shifts -/

theorem withinUnsigned_iff (hn : n ≤ 8) (w : UInt64) :
    withinUnsigned n w = true ↔ FitsUnsigned n w.toNat := by
  rw [withinUnsigned, Bool.or_eq_true, decide_eq_true_eq, beq_iff_eq, fitsUnsigned_iff]
  by_cases h8 : n = 8
  · subst h8
    exact iff_of_true (.inl (Nat.le_refl 8)) w.toNat_lt
  · have hshift := toNat_shiftRight (k := 8 * n) (by omega) w
    rw [or_iff_right (by omega), ← UInt64.toNat_inj, hshift]
    exact Nat.div_eq_zero_iff_lt (Nat.two_pow_pos _)

theorem withinSigned_iff (hpos : 0 < n) (hn : n ≤ 8) (i : Int64) :
    withinSigned n i = true ↔ FitsSigned n i.toInt := by
  rw [fitsSigned_iff hpos, withinSigned]
  by_cases h8 : n = 8
  · subst h8
    exact iff_of_true rfl ⟨i.le_toInt, i.toInt_lt⟩
  · obtain ⟨hlimit, hneg⟩ := toInt_limit (8 * n - 1) (by omega)
    rw [if_neg (by omega), Bool.and_eq_true, decide_eq_true_eq, decide_eq_true_eq,
      Int64.le_iff_toInt_le, Int64.lt_iff_toInt_lt, hlimit, hneg]

/-! ## Patterns by masks -/

theorem toNat_lowBytes (hn : n ≤ 8) : (lowBytes n).toNat = 2 ^ (8 * n) - 1 := by
  by_cases h8 : n = 8
  · subst h8
    rfl
  · have hone := toNat_one_shiftLeft (k := 8 * n) (by omega)
    have hle : (1 : UInt64) ≤ 1 <<< UInt64.ofNat (8 * n) := by
      rw [UInt64.le_iff_toNat_le, hone]
      exact Nat.one_le_two_pow
    rw [lowBytes, if_neg (by omega), UInt64.toNat_sub_of_le _ _ hle, hone]
    rfl

/-- The pattern of an integer in eight bytes is the word that holds it. -/
theorem complement_eight (i : Int64) : complement 8 i.toInt = i.toUInt64.toNat := by
  have hword : FitsUnsigned 8 i.toUInt64.toNat := i.toUInt64.toNat_lt
  have hback := toInt_toInt64 i.toUInt64
  rw [Int64.toInt64_toUInt64] at hback
  rw [hback, complement_signedValue hword]

/-- A pattern in fewer bytes is the lower part of the one in more. -/
theorem complement_of_le {m : Nat} (hnm : n ≤ m) (v : Int) :
    complement n v = complement m v % 256 ^ n := by
  have hcast : ((256 ^ n : Nat) : Int) = 256 ^ n := Int.natCast_pow 256 n
  have hcast' : ((256 ^ m : Nat) : Int) = 256 ^ m := Int.natCast_pow 256 m
  have hdvd : (256 : Int) ^ n ∣ 256 ^ m := by
    rw [← hcast, ← hcast']
    exact Int.natCast_dvd_natCast.2 (Nat.pow_dvd_pow 256 hnm)
  have hnonneg := Int.emod_nonneg v (Int.ne_of_gt (pow_pos n))
  have hnonneg' := Int.emod_nonneg v (Int.ne_of_gt (pow_pos m))
  unfold complement
  rw [← Int.natCast_inj, Int.natCast_emod, Int.toNat_of_nonneg hnonneg',
    Int.toNat_of_nonneg hnonneg, hcast, Int.emod_emod_of_dvd v hdvd]

/-- **A mask cuts a word to the two's complement pattern** of its integer. -/
theorem toNat_and_lowBytes (hn : n ≤ 8) (i : Int64) :
    (i.toUInt64 &&& lowBytes n).toNat = complement n i.toInt := by
  rw [UInt64.toNat_and, toNat_lowBytes hn, Nat.and_two_pow_sub_one_eq_mod, complement_of_le hn,
    complement_eight, pow_bytes]

/-! ## Signs by shifts -/

/-- A pattern moved to the top of a word stands for its number, moved as far. -/
theorem signedValue_mul (hn : n ≤ 8) (v : Nat) :
    signedValue 8 (v * 2 ^ (64 - 8 * n)) = signedValue n v * 2 ^ (64 - 8 * n) := by
  have hsplit : 256 ^ 8 = 256 ^ n * 2 ^ (64 - 8 * n) := by
    rw [pow_bytes, pow_bytes, ← Nat.pow_add]
    congr 1
    omega
  have hless : 2 * (v * 2 ^ (64 - 8 * n)) < 256 ^ 8 ↔ 2 * v < 256 ^ n := by
    rw [hsplit, ← Nat.mul_assoc]
    exact Nat.mul_lt_mul_right (Nat.two_pow_pos _)
  have hpow : ((2 ^ (64 - 8 * n) : Nat) : Int) = 2 ^ (64 - 8 * n) := Int.natCast_pow 2 _
  have hcast : ((256 ^ n : Nat) : Int) = 256 ^ n := Int.natCast_pow 256 n
  have hsplit' : (256 : Int) ^ 8 = 256 ^ n * 2 ^ (64 - 8 * n) := by
    rw [← hcast, ← hpow, ← Int.natCast_mul, ← hsplit]
    rfl
  by_cases hlow : 2 * v < 256 ^ n
  · rw [signedValue, signedValue, if_pos hlow, if_pos (hless.2 hlow), Int.natCast_mul, hpow]
  · rw [signedValue, signedValue, if_neg hlow, if_neg (mt hless.1 hlow), hsplit', Int.natCast_mul,
      hpow, Int.sub_mul]

/-- **Two shifts fill a word up with the sign of its lowest bytes.** -/
theorem toInt_extended (hpos : 0 < n) (hn : n ≤ 8) {w : UInt64} (h : FitsUnsigned n w.toNat) :
    (extended n w).toInt = signedValue n w.toNat := by
  have hlt : w.toNat * 2 ^ (64 - 8 * n) < 2 ^ 64 := by
    calc w.toNat * 2 ^ (64 - 8 * n)
        < 2 ^ (8 * n) * 2 ^ (64 - 8 * n) :=
          Nat.mul_lt_mul_of_pos_right (fitsUnsigned_iff.1 h) (Nat.two_pow_pos _)
      _ = 2 ^ 64 := by
          rw [← Nat.pow_add]
          congr 1
          omega
  have hne : (2 : Int) ^ (64 - 8 * n) ≠ 0 := Int.ne_of_gt (Int.pow_pos (by decide))
  rw [extended, toInt_shiftRight (by omega), toInt_toInt64, toNat_shiftLeft (by omega) hlt,
    signedValue_mul hn, Int.mul_ediv_cancel _ hne]

end Word

end PackedRecord
