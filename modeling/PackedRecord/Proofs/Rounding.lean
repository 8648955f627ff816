import Mathlib.Algebra.Order.Field.Power
import Mathlib.Algebra.Order.Field.Rat
import Mathlib.Tactic.Linarith
import Mathlib.Tactic.Ring
import Mathlib.Tactic.FieldSimp
import Mathlib.Tactic.Positivity
import PackedRecord.Floating.Double

/-!
# Rounding numbers that need none

A pair of significand and exponent is *in lowest terms for a format* (`Format.Exact`) if the
format has a pattern for it.

* `Format.round_of_eq` — a quotient equal to such a pair is rounded to the pattern of the pair.
* `Format.exact_decode` — a finite pattern decodes to such a pair, whose pattern it is.
* `Double.toSingle_ofSingle` — a single that is a number survives the way through a double.
* `Double.isNaN_ofSingle_toSingle` — a number that is rounded to a single stays a number.
-/

namespace PackedRecord

namespace Floating

/-! ## Powers of two around a quotient -/

/-- `e` is the exponent of the highest power of two below `q`. -/
def Brackets (q : ℚ) (e : Int) : Prop := (2 : ℚ) ^ e ≤ q ∧ q < (2 : ℚ) ^ (e + 1)

theorem Brackets.unique {q : ℚ} {d e : Int} (hd : Brackets q d) (he : Brackets q e) : d = e := by
  have h1 : d < e + 1 :=
    (zpow_lt_zpow_iff_right₀ (by norm_num : (1 : ℚ) < 2)).1 (lt_of_le_of_lt hd.1 he.2)
  have h2 : e < d + 1 :=
    (zpow_lt_zpow_iff_right₀ (by norm_num : (1 : ℚ) < 2)).1 (lt_of_le_of_lt he.1 hd.2)
  omega

theorem brackets_log2 {n : Nat} (hn : n ≠ 0) : Brackets n (Nat.log2 n) := by
  constructor
  · have := Nat.log2_self_le hn
    exact_mod_cast this
  · have := @Nat.lt_log2_self n
    exact_mod_cast this

theorem Brackets.mul_zpow {q : ℚ} {d : Int} (h : Brackets q d) (e : Int) :
    Brackets (q * 2 ^ e) (d + e) := by
  have h2 : (0 : ℚ) < 2 ^ e := by positivity
  have hz : (2 : ℚ) ≠ 0 := by norm_num
  constructor
  · rw [zpow_add₀ hz]
    exact mul_le_mul_of_nonneg_right h.1 h2.le
  · rw [show d + e + 1 = d + 1 + e by ring, zpow_add₀ hz]
    exact mul_lt_mul_of_pos_right h.2 h2

theorem scale_ratio (num : Nat) {den : Nat} (hden : 0 < den) (e : Int) :
    0 < (scale num den e).2 ∧
      ((scale num den e).1 : ℚ) / (scale num den e).2 = (num : ℚ) / den / 2 ^ e := by
  have hd : (den : ℚ) ≠ 0 := by exact_mod_cast hden.ne'
  unfold scale
  split
  · rename_i he
    refine ⟨by positivity, ?_⟩
    obtain ⟨k, rfl⟩ := Int.eq_ofNat_of_zero_le he
    simp only [Int.toNat_natCast, zpow_natCast]
    push_cast
    field_simp
  · rename_i he
    refine ⟨hden, ?_⟩
    obtain ⟨k, hk⟩ := Int.eq_ofNat_of_zero_le (show 0 ≤ -e by omega)
    obtain rfl : e = -(k : Int) := by omega
    simp only [neg_neg, Int.toNat_natCast, zpow_neg, zpow_natCast]
    push_cast
    field_simp

theorem brackets_floorLog2 {num den : Nat} (hnum : num ≠ 0) (hden : den ≠ 0) :
    Brackets ((num : ℚ) / den) (floorLog2 num den) := by
  have hn := brackets_log2 hnum
  have hd := brackets_log2 hden
  have hpos : (0 : ℚ) < den := by exact_mod_cast Nat.pos_of_ne_zero hden
  have hz : (2 : ℚ) ≠ 0 := by norm_num
  unfold floorLog2
  dsimp only
  generalize hE : (Nat.log2 num : Int) - Nat.log2 den = e
  obtain ⟨hs, hratio⟩ := scale_ratio num (Nat.pos_of_ne_zero hden) e
  have hs' : (0 : ℚ) < (scale num den e).2 := by exact_mod_cast hs
  have he2 : (0 : ℚ) < 2 ^ e := by positivity
  -- The scaled quotient is below one exactly if the quotient is below `2 ^ e`.
  have hlt : (scale num den e).1 < (scale num den e).2 ↔ (num : ℚ) / den < 2 ^ e := by
    rw [← div_lt_one he2, ← hratio, div_lt_one hs']
    exact_mod_cast Iff.rfl
  split
  · rename_i h
    refine ⟨?_, by rw [sub_add_cancel]; exact hlt.1 h⟩
    have h1 : (2 : ℚ) ^ (e - 1) * 2 ^ ((Nat.log2 den : Int) + 1) = 2 ^ (Nat.log2 num : Int) := by
      rw [← zpow_add₀ hz]
      congr 1
      omega
    rw [le_div_iff₀ hpos]
    calc (2 : ℚ) ^ (e - 1) * den ≤ 2 ^ (e - 1) * 2 ^ ((Nat.log2 den : Int) + 1) :=
          mul_le_mul_of_nonneg_left hd.2.le (by positivity)
      _ ≤ num := h1 ▸ hn.1
  · rename_i h
    refine ⟨not_lt.1 fun hh => h (hlt.2 hh), ?_⟩
    have h1 : (2 : ℚ) ^ (e + 1) * 2 ^ (Nat.log2 den : Int) = 2 ^ ((Nat.log2 num : Int) + 1) := by
      rw [← zpow_add₀ hz]
      congr 1
      omega
    rw [div_lt_iff₀ hpos]
    calc (num : ℚ) < 2 ^ (e + 1) * 2 ^ (Nat.log2 den : Int) := h1 ▸ hn.2
      _ ≤ 2 ^ (e + 1) * den := mul_le_mul_of_nonneg_left hd.1 (by positivity)

theorem nearestEven_mul {s d : Nat} (hd : 0 < d) : nearestEven (s * d) d = s := by
  simp only [nearestEven, Nat.mul_mod_left, Nat.mul_div_cancel s hd]
  rw [if_neg (by omega)]

/-! ## Pairs that a format has a pattern for -/

namespace Format

variable {f : Format}

/-- The significand has at most one bit more than a fraction, and all of them unless the exponent
is the least one. -/
structure Exact (f : Format) (s : Nat) (e : Int) : Prop where
  lt : s < 2 * f.fractionUnit
  least_le : f.leastExponent ≤ e
  full : f.fractionUnit ≤ s ∨ e = f.leastExponent

/-- Pattern of a pair. -/
def pattern (f : Format) (s : Nat) (e : Int) : Nat :=
  s + (e - f.leastExponent).toNat * f.fractionUnit

theorem fractionUnit_pos (f : Format) : 0 < f.fractionUnit := Nat.pow_pos (by decide)

theorem exact_decode (f : Format) (m : Nat) :
    f.Exact (f.decode m).1 (f.decode m).2 ∧ f.pattern (f.decode m).1 (f.decode m).2 = m := by
  have hU := f.fractionUnit_pos
  have hmod := Nat.mod_lt m hU
  have hdm := Nat.div_add_mod m f.fractionUnit
  unfold decode
  dsimp only
  split
  · rename_i h
    refine ⟨⟨by dsimp only; omega, Int.le_refl _, .inr rfl⟩, ?_⟩
    rw [h, Nat.mul_zero, Nat.zero_add] at hdm
    simp [pattern, hdm]
  · rename_i h
    refine ⟨⟨by dsimp only; omega, by dsimp only; omega, .inl (Nat.le_add_right ..)⟩, ?_⟩
    obtain ⟨k, hk⟩ := Nat.exists_eq_succ_of_ne_zero h
    rw [hk] at hdm ⊢
    have : (f.leastExponent + ((k.succ - 1 : Nat) : Int) - f.leastExponent).toNat = k := by omega
    simp only [pattern, this]
    rw [Nat.mul_succ, Nat.mul_comm] at hdm
    omega

/-- A pair in range is what its pattern decodes to. -/
theorem decode_pattern {s : Nat} {e : Int} (h : f.Exact s e) :
    f.decode (f.pattern s e) = (s, e) := by
  have hU := f.fractionUnit_pos
  have hlt := h.lt
  have hle := h.least_le
  unfold decode pattern
  dsimp only
  obtain ⟨k, hk⟩ := Int.eq_ofNat_of_zero_le (show 0 ≤ e - f.leastExponent by omega)
  rw [hk]
  simp only [Int.toNat_natCast]
  by_cases hfull : f.fractionUnit ≤ s
  · obtain ⟨t, rfl⟩ := Nat.exists_eq_add_of_le hfull
    have hdiv : (f.fractionUnit + t + k * f.fractionUnit) / f.fractionUnit = k + 1 := by
      rw [show f.fractionUnit + t + k * f.fractionUnit = t + (k + 1) * f.fractionUnit by ring,
        Nat.add_mul_div_right _ _ hU, Nat.div_eq_of_lt (by omega), Nat.zero_add]
    have hmod : (f.fractionUnit + t + k * f.fractionUnit) % f.fractionUnit = t := by
      rw [show f.fractionUnit + t + k * f.fractionUnit = t + (k + 1) * f.fractionUnit by ring,
        Nat.add_mul_mod_self_right, Nat.mod_eq_of_lt (by omega)]
    rw [hdiv, hmod, if_neg (Nat.succ_ne_zero k)]
    simp only [Nat.add_sub_cancel, Prod.mk.injEq, true_and]
    omega
  · have he := h.full.resolve_left hfull
    obtain rfl : k = 0 := by omega
    simp only [Nat.zero_mul, Nat.add_zero, Nat.div_eq_of_lt (Nat.not_le.1 hfull), if_true,
      Nat.mod_eq_of_lt (Nat.not_le.1 hfull), he]

theorem round_le (num den : Nat) : f.round num den ≤ f.infinity := by
  unfold round
  split
  · exact Nat.zero_le _
  · exact Nat.min_le_right _ _

theorem round_zero (den : Nat) : f.round 0 den = 0 := if_pos rfl

/-- **A quotient that a pattern stands for is rounded to this pattern.** -/
theorem round_of_eq {num den s : Nat} {e : Int} (hden : 0 < den) (hs : 0 < s) (h : f.Exact s e)
    (hq : (num : ℚ) / den = s * 2 ^ e) : f.round num den = min (f.pattern s e) f.infinity := by
  have hnum : num ≠ 0 := by
    rintro rfl
    have : (0 : ℚ) < s * 2 ^ e := by positivity
    simp [← hq] at this
  have hlog : floorLog2 num den = Nat.log2 s + e :=
    (brackets_floorLog2 hnum hden.ne').unique (hq ▸ (brackets_log2 hs.ne').mul_zpow e)
  have hquantum : max (floorLog2 num den - f.fractionBits) f.leastExponent = e := by
    have hle := h.least_le
    have hub : Nat.log2 s ≤ f.fractionBits := by
      have : s < 2 ^ (f.fractionBits + 1) := by
        rw [Nat.pow_succ, Nat.mul_comm]
        exact h.lt
      exact Nat.le_of_lt_succ ((Nat.log2_lt hs.ne').2 this)
    obtain hfull | he := h.full
    · have hlb : f.fractionBits ≤ Nat.log2 s := (Nat.le_log2 hs.ne').2 hfull
      omega
    · omega
  obtain ⟨hd, hratio⟩ := scale_ratio num hden e
  have hn : (scale num den e).1 = s * (scale num den e).2 := by
    have h2 : (2 : ℚ) ^ e ≠ 0 := by positivity
    have hd' : ((scale num den e).2 : ℚ) ≠ 0 := by exact_mod_cast hd.ne'
    rw [hq, mul_div_cancel_right₀ _ h2, div_eq_iff hd'] at hratio
    exact_mod_cast hratio
  unfold round
  rw [if_neg hnum]
  dsimp only
  rw [hquantum, hn, nearestEven_mul hd]
  rfl

end Format

/-! ## The two formats -/

@[simp] theorem fractionUnit_double : double.fractionUnit = 2 ^ 52 := rfl
@[simp] theorem fractionUnit_single : single.fractionUnit = 2 ^ 23 := rfl
@[simp] theorem leastExponent_double : double.leastExponent = -1074 := rfl
@[simp] theorem leastExponent_single : single.leastExponent = -149 := rfl
@[simp] theorem infinity_double : double.infinity = 2047 * 2 ^ 52 := rfl
@[simp] theorem infinity_single : single.infinity = 255 * 2 ^ 23 := rfl
@[simp] theorem signUnit_double : double.signUnit = 2 ^ 63 := rfl
@[simp] theorem signUnit_single : single.signUnit = 2 ^ 31 := rfl

theorem infinity_lt_signUnit : double.infinity < double.signUnit := by
  rw [infinity_double, signUnit_double]
  decide

/-- Every positive single has a double with all bits of its significand in use. -/
theorem exists_double_of_single {s : Nat} {e : Int} (hs : 0 < s) (h : single.Exact s e)
    (hfin : single.pattern s e < single.infinity) :
    ∃ s' e', double.Exact s' e' ∧ double.pattern s' e' < double.infinity ∧ 0 < s' ∧
      (s' : ℚ) * 2 ^ e' = s * 2 ^ e := by
  obtain ⟨hlt, hle, -⟩ := h
  simp only [Format.pattern, fractionUnit_single, leastExponent_single, infinity_single]
    at hlt hle hfin
  have hlo := Nat.log2_self_le hs.ne'
  have hhi := @Nat.lt_log2_self s
  have hlog : Nat.log2 s ≤ 23 := by
    have : s < 2 ^ 24 := by omega
    exact Nat.le_of_lt_succ ((Nat.log2_lt hs.ne').2 this)
  obtain ⟨k, hk⟩ := Nat.exists_eq_add_of_le (show Nat.log2 s ≤ 52 by omega)
  have hlow : 2 ^ 52 ≤ s * 2 ^ k := by
    rw [hk, Nat.pow_add]
    exact Nat.mul_le_mul_right _ hlo
  have hhigh : s * 2 ^ k < 2 ^ 53 := by
    rw [show 53 = Nat.log2 s + 1 + k by omega, Nat.pow_add 2 (Nat.log2 s + 1)]
    exact Nat.mul_lt_mul_of_pos_right hhi (Nat.pow_pos (by decide))
  refine ⟨s * 2 ^ k, e - k, ⟨?_, ?_, .inl hlow⟩, ?_, by positivity, ?_⟩
  · rw [fractionUnit_double]
    omega
  · rw [leastExponent_double]
    omega
  · simp only [Format.pattern, fractionUnit_double, leastExponent_double, infinity_double]
    have : (e - k + 1074).toNat ≤ 1170 := by omega
    omega
  · have hz : (2 : ℚ) ≠ 0 := by norm_num
    push_cast
    rw [mul_assoc, ← zpow_natCast (2 : ℚ) k, ← zpow_add₀ hz]
    congr 2
    omega

end Floating

namespace Double

open Floating

theorem quotient_ratio (s : Nat) (e : Int) :
    0 < (quotient s e).2 ∧ ((quotient s e).1 : ℚ) / (quotient s e).2 = s * 2 ^ e := by
  unfold quotient
  split
  · rename_i he
    obtain ⟨k, rfl⟩ := Int.eq_ofNat_of_zero_le he
    simp
  · rename_i he
    refine ⟨Nat.pow_pos (by decide), ?_⟩
    obtain ⟨k, hk⟩ := Int.eq_ofNat_of_zero_le (show 0 ≤ -e by omega)
    obtain rfl : e = -(k : Int) := by omega
    simp [div_eq_mul_inv]

theorem quotient_zero (e : Int) : (quotient 0 e).1 = 0 := by
  unfold quotient
  split
  · exact Nat.zero_mul _
  · rfl

/-! ## Sign and magnitude -/

theorem toNat_ofMagnitude (negative : Bool) {m : Nat} (hm : m < double.signUnit) :
    (ofMagnitude negative m).bits.toNat = (if negative then double.signUnit else 0) + m := by
  rw [signUnit_double] at hm ⊢
  unfold ofMagnitude
  rw [UInt64.toNat_ofNat']
  apply Nat.mod_eq_of_lt
  cases negative <;> simp <;> omega

theorem magnitude_ofMagnitude (negative : Bool) {m : Nat} (hm : m < double.signUnit) :
    (ofMagnitude negative m).magnitude = m := by
  rw [magnitude, toNat_ofMagnitude negative hm]
  cases negative
  · simp only [Bool.false_eq_true, if_false, Nat.zero_add]
    exact Nat.mod_eq_of_lt hm
  · simp only [if_true, Nat.add_mod_left]
    exact Nat.mod_eq_of_lt hm

theorem negative_ofMagnitude (negative : Bool) {m : Nat} (hm : m < double.signUnit) :
    (ofMagnitude negative m).negative = negative := by
  rw [Double.negative, toNat_ofMagnitude negative hm]
  cases negative
  · simpa using hm
  · simp

theorem classify_ofMagnitude (negative : Bool) {m : Nat} (hm : m < double.infinity) :
    (ofMagnitude negative m).classify =
      .finite negative (double.decode m).1 (double.decode m).2 := by
  have hs := hm.trans infinity_lt_signUnit
  unfold classify
  rw [magnitude_ofMagnitude negative hs, negative_ofMagnitude negative hs,
    if_neg (by omega), if_neg (by omega)]

/-! ## Singles -/

theorem toSingle_of_finite {x : Double} {negative : Bool} {s : Nat} {e : Int}
    (h : x.classify = .finite negative s e) :
    x.toSingle = UInt32.ofNat ((if x.negative then single.signUnit else 0) +
      single.round (quotient s e).1 (quotient s e).2) := by
  unfold toSingle
  rw [h]

theorem toSingle_of_infinite {x : Double} {negative : Bool} (h : x.classify = .infinite negative) :
    x.toSingle = UInt32.ofNat ((if x.negative then single.signUnit else 0) + single.infinity) := by
  unfold toSingle
  rw [h]

theorem classify_of_infinity {x : Double} (h : x.magnitude = double.infinity) :
    x.classify = .infinite x.negative := by
  unfold classify
  rw [if_neg (by omega), if_pos h]

/-- The magnitude of a single that is finite and not zero comes back exactly. -/
theorem round_single {s : Nat} {e : Int} (hs : 0 < s) (h : single.Exact s e)
    (hfin : single.pattern s e < single.infinity) {s' : Nat} {e' : Int}
    (heq : (s' : ℚ) * 2 ^ e' = s * 2 ^ e) :
    single.round (quotient s' e').1 (quotient s' e').2 = single.pattern s e := by
  obtain ⟨hpos, hratio⟩ := quotient_ratio s' e'
  rw [Format.round_of_eq hpos hs h (hratio.trans heq), Nat.min_eq_left hfin.le]

/-- A finite single magnitude, the sign aside, goes to a double and back. -/
theorem toSingle_ofQuotient (negative : Bool) {m : Nat} (hm : m < single.infinity) :
    (ofQuotient negative (quotient (single.decode m).1 (single.decode m).2).1
      (quotient (single.decode m).1 (single.decode m).2).2).toSingle =
      UInt32.ofNat ((if negative then single.signUnit else 0) + m) := by
  obtain ⟨hexact, hpat⟩ := Format.exact_decode single m
  generalize (single.decode m).1 = s at hexact hpat ⊢
  generalize (single.decode m).2 = e at hexact hpat ⊢
  unfold ofQuotient
  obtain rfl | hs := Nat.eq_zero_or_pos s
  · have he : e = single.leastExponent := hexact.full.resolve_left (by simp)
    have hm0 : m = 0 := by
      rw [← hpat, Format.pattern, he, Int.sub_self]
      rfl
    have hdec : (double.decode 0).1 = 0 := by decide
    rw [quotient_zero, Format.round_zero,
      toSingle_of_finite (classify_ofMagnitude negative (by rw [infinity_double]; decide)),
      negative_ofMagnitude negative (by rw [signUnit_double]; decide), hdec, quotient_zero,
      Format.round_zero, hm0]
  · obtain ⟨s', e', hexact', hfin', hs', heq⟩ :=
      exists_double_of_single hs hexact (by rw [hpat]; exact hm)
    have hround : double.round (quotient s e).1 (quotient s e).2 = double.pattern s' e' := by
      obtain ⟨hpos, hratio⟩ := quotient_ratio s e
      rw [Format.round_of_eq hpos hs' hexact' (hratio.trans heq.symm), Nat.min_eq_left hfin'.le]
    have hsign := hfin'.trans infinity_lt_signUnit
    rw [hround, toSingle_of_finite (classify_ofMagnitude negative hfin'),
      negative_ofMagnitude negative hsign, Format.decode_pattern hexact',
      round_single hs hexact (by rw [hpat]; exact hm) heq, hpat]

/-- **A single that is a number survives the way through a double.** -/
theorem toSingle_ofSingle {p : UInt32} (h : (ofSingle p).isNaN = false) :
    (ofSingle p).toSingle = p := by
  have hp : p.toNat < 2 ^ 32 := p.toNat_lt
  have hback : UInt32.ofNat ((if decide (single.signUnit ≤ p.toNat) then single.signUnit else 0) +
      p.toNat % single.signUnit) = p := by
    rw [← UInt32.toNat_inj, UInt32.toNat_ofNat', signUnit_single]
    rw [Nat.mod_eq_of_lt (by split <;> omega)]
    split
    · rename_i hs
      rw [decide_eq_true_eq] at hs
      omega
    · rename_i hs
      rw [decide_eq_true_eq] at hs
      omega
  unfold ofSingle at h ⊢
  dsimp only at h ⊢
  split at h
  · rename_i hnan
    -- The pattern of a value that is no number stays above infinity.
    exfalso
    rw [infinity_single, signUnit_single] at hnan
    rw [fractionUnit_single, signUnit_single, infinity_double] at h
    have hsign : ∀ n < 2 ^ 23, 2047 * 2 ^ 52 + n * 2 ^ 29 < double.signUnit := by
      intro n hn
      rw [signUnit_double]
      omega
    rw [isNaN, magnitude_ofMagnitude _ (hsign _ (by split <;> omega)), infinity_double,
      decide_eq_false_iff_not] at h
    apply h
    split <;> omega
  · rename_i hnan
    rw [if_neg hnan]
    split
    · rename_i hinf
      rw [toSingle_of_infinite
          (classify_of_infinity (magnitude_ofMagnitude _ infinity_lt_signUnit)),
        negative_ofMagnitude _ infinity_lt_signUnit, ← hinf]
      exact hback
    · rename_i hinf
      exact (toSingle_ofQuotient _ (by omega)).trans hback

/-! ## Numbers stay numbers -/

theorem isNaN_ofMagnitude (negative : Bool) {m : Nat} (hm : m ≤ double.infinity) :
    (ofMagnitude negative m).isNaN = false := by
  rw [isNaN, magnitude_ofMagnitude negative (hm.trans_lt infinity_lt_signUnit)]
  exact decide_eq_false (Nat.not_lt.2 hm)

theorem isNaN_ofQuotient (negative : Bool) (num den : Nat) :
    (ofQuotient negative num den).isNaN = false :=
  isNaN_ofMagnitude negative (Format.round_le num den)

theorem isNaN_ofInt (i : Int) : (ofInt i).isNaN = false := isNaN_ofQuotient _ _ _

theorem isNaN_ofSingle {p : UInt32} (h : p.toNat % single.signUnit ≤ single.infinity) :
    (ofSingle p).isNaN = false := by
  unfold ofSingle
  dsimp only
  rw [if_neg (Nat.not_lt.2 h)]
  split
  · exact isNaN_ofMagnitude _ (Nat.le_refl _)
  · exact isNaN_ofQuotient _ _ _

/-- The single next to a number is no value above infinity. -/
theorem toSingle_le {x : Double} (h : x.isNaN = false) :
    x.toSingle.toNat % single.signUnit ≤ single.infinity := by
  have hpattern : ∀ (negative : Bool) {m : Nat}, m ≤ single.infinity →
      (UInt32.ofNat ((if negative then single.signUnit else 0) + m)).toNat % single.signUnit =
        m := by
    intro negative m hm
    rw [infinity_single] at hm
    rw [UInt32.toNat_ofNat', signUnit_single]
    cases negative <;> simp <;> omega
  have hnumber : ¬double.infinity < x.magnitude := of_decide_eq_false h
  by_cases hinf : x.magnitude = double.infinity
  · rw [toSingle_of_infinite (classify_of_infinity hinf), hpattern _ (Nat.le_refl _)]
  · have hfinite : x.classify = .finite x.negative (double.decode x.magnitude).1
        (double.decode x.magnitude).2 := by
      unfold classify
      rw [if_neg hnumber, if_neg hinf]
    rw [toSingle_of_finite hfinite, hpattern _ (Format.round_le _ _)]
    exact Format.round_le _ _

/-- **The single next to a number is a number.** -/
theorem isNaN_ofSingle_toSingle {x : Double} (h : x.isNaN = false) :
    (ofSingle x.toSingle).isNaN = false := isNaN_ofSingle (toSingle_le h)

end Double

end PackedRecord
