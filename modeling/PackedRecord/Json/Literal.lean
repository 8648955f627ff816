import PackedRecord.Json.Basic

/-!
# Number literals of JSON

A literal without fraction and exponent is an integer if it lies between the least signed and
the greatest unsigned 64-bit number; minus zero is none.  Every other literal is read in two
roundings: the digits are gathered in a 64-bit significand as far as they fit, the rest of the
whole part only raises the power of ten and the rest of the fraction is ignored; then the
significand, rounded to a double, is multiplied or divided by the power of ten, again a
double.  A result beyond the greatest double is infinite.
-/

namespace PackedRecord.Json

attribute [local instance] corePow

/-- The parts of a number literal, digits as numbers. -/
structure Literal where
  negative : Bool
  whole : List Nat
  /-- Digits after the point, if there is one. -/
  fraction : Option (List Nat)
  /-- Exponent, if there is one. -/
  exponent : Option Int
  deriving Repr

/-- Append digits to a significand while it fits 64 bits; the digits left over come back. -/
def gather (significand : Nat) : List Nat → Nat × List Nat
  | [] => (significand, [])
  | d :: rest =>
    if significand * 10 + d < 2 ^ 64 then gather (significand * 10 + d) rest
    else (significand, d :: rest)

/-- The double nearest to a power of ten. -/
def powerOfTen (n : Nat) : Double := .ofInt (10 ^ n : Nat)

/-- Positive infinity. -/
def overflow : Double := .ofMagnitude false Floating.double.infinity

/-- Multiply a double by a power of ten, in steps of `10 ^ (-308)` when the power is too small
for a double. -/
def scaleByTen : Nat → Double → Int → Double
  | 0, x, _ => x
  | steps + 1, x, power =>
    if power.natAbs ≤ 308 then
      if 0 ≤ power then x.scaleUp (powerOfTen power.natAbs)
      else x.scaleDown (powerOfTen power.natAbs)
    else if x.isZero then x
    else if 0 ≤ power then overflow
    else scaleByTen steps (x.scaleDown (powerOfTen 308)) (power + 308)

namespace Literal

/-- The literal as a floating point number.  After two steps of `10 ^ (-308)` nothing is left
of a 64-bit significand. -/
def toDouble (l : Literal) : Double :=
  let (significand, skipped) := gather 0 l.whole
  let fraction := l.fraction.getD []
  let (significand, ignored) := gather significand fraction
  let places := fraction.length - ignored.length
  let power := (skipped.length : Int) - places + l.exponent.getD 0
  let x := scaleByTen 3 (.ofInt significand) power
  if l.negative then x.neg else x

/-- The document a literal stands for. -/
def toJson (l : Literal) : Json :=
  let (significand, skipped) := gather 0 l.whole
  if l.fraction.isSome || l.exponent.isSome || !skipped.isEmpty then .float l.toDouble
  else if !l.negative then .integer significand
  else if significand = 0 ∨ 2 ^ 63 < significand then .float l.toDouble
  else .integer (-significand)

end Literal

end PackedRecord.Json
