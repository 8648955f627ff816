import PackedRecord.Power

/-!
# Binary interchange formats

A format is given by the width of its exponent and of its stored fraction.  A pattern is a
natural number below `2 ^ (1 + exponentBits + fractionBits)`: sign, exponent, fraction.  All
arithmetic here is exact on natural numbers; a quotient is rounded to the nearest pattern and
a tie goes to the even one, subnormal numbers and overflow to infinity included.
-/

namespace PackedRecord.Floating

attribute [local instance] corePow

/-- Widths of the two fields below the sign. -/
structure Format where
  exponentBits : Nat
  fractionBits : Nat
  deriving DecidableEq, Repr

/-- The 64-bit format. -/
def double : Format := ⟨11, 52⟩

/-- The 32-bit format. -/
def single : Format := ⟨8, 23⟩

namespace Format

variable (f : Format)

/-- Patterns per exponent. -/
def fractionUnit : Nat := 2 ^ f.fractionBits

/-- The exponent field of infinities and of values that are no number. -/
def topExponent : Nat := 2 ^ f.exponentBits - 1

/-- Pattern of positive infinity. -/
def infinity : Nat := f.topExponent * f.fractionUnit

/-- Pattern of the sign alone. -/
def signUnit : Nat := 2 ^ (f.exponentBits + f.fractionBits)

/-- Binary exponent of the least positive number. -/
def leastExponent : Int := 2 - (2 ^ (f.exponentBits - 1) : Int) - f.fractionBits

/-- Finite magnitude of a pattern without sign: significand and binary exponent. -/
def decode (pattern : Nat) : Nat × Int :=
  let exponent := pattern / f.fractionUnit
  let fraction := pattern % f.fractionUnit
  if exponent = 0 then (fraction, f.leastExponent)
  else (f.fractionUnit + fraction, f.leastExponent + (exponent - 1 : Nat))

end Format

/-- Nearest integer to `num / den`, a tie going to the even neighbour. -/
def nearestEven (num den : Nat) : Nat :=
  let q := num / den
  let r := num % den
  if den < 2 * r ∨ (2 * r = den ∧ q % 2 = 1) then q + 1 else q

/-- Numerator and denominator of `num / den / 2 ^ e`. -/
def scale (num den : Nat) (e : Int) : Nat × Nat :=
  if 0 ≤ e then (num, den * 2 ^ e.toNat) else (num * 2 ^ (-e).toNat, den)

/-- The `e` with `2 ^ e ≤ num / den < 2 ^ (e + 1)`, for a positive quotient. -/
def floorLog2 (num den : Nat) : Int :=
  let e : Int := (Nat.log2 num : Int) - Nat.log2 den
  let (n, d) := scale num den e
  if n < d then e - 1 else e

/-- Pattern of the magnitude nearest to `num / den`. -/
def Format.round (f : Format) (num den : Nat) : Nat :=
  if num = 0 then 0 else
    let quantum := max (floorLog2 num den - f.fractionBits) f.leastExponent
    let (n, d) := scale num den quantum
    let pattern := nearestEven n d + (quantum - f.leastExponent).toNat * f.fractionUnit
    min pattern f.infinity

end PackedRecord.Floating
