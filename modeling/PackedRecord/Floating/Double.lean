import PackedRecord.Floating.Format

/-!
# Double precision numbers

A double is its 64-bit pattern.  Every operation is computed exactly and rounded once, to the
nearest double with ties to even, so nothing depends on the machine's floating point unit.

`Double.equal` is the numeric comparison: a value that is no number differs from itself, and
the two zeros are equal.
-/

namespace PackedRecord

attribute [local instance] corePow

open Floating

/-- A 64-bit floating point number. -/
structure Double where
  bits : UInt64
  deriving DecidableEq, Repr

/-- What a double stands for: a magnitude is `significand * 2 ^ exponent`. -/
inductive Double.Class where
  | notANumber
  | infinite (negative : Bool)
  | finite (negative : Bool) (significand : Nat) (exponent : Int)
  deriving DecidableEq, Repr

namespace Double

/-- Pattern without the sign. -/
def magnitude (x : Double) : Nat := x.bits.toNat % double.signUnit

def negative (x : Double) : Bool := decide (double.signUnit ≤ x.bits.toNat)

def classify (x : Double) : Class :=
  if double.infinity < x.magnitude then .notANumber
  else if x.magnitude = double.infinity then .infinite x.negative
  else
    let (significand, exponent) := double.decode x.magnitude
    .finite x.negative significand exponent

/-- The double with the given sign and magnitude pattern. -/
def ofMagnitude (negative : Bool) (magnitude : Nat) : Double :=
  ⟨UInt64.ofNat ((if negative then double.signUnit else 0) + magnitude)⟩

/-- Nearest double to `num / den`, with a sign. -/
def ofQuotient (negative : Bool) (num den : Nat) : Double :=
  ofMagnitude negative (double.round num den)

/-- Nearest double to an integer. -/
def ofInt (i : Int) : Double := ofQuotient (decide (i < 0)) i.natAbs 1

/-- The quiet pattern that stands for every value that is no number. -/
def notANumber : Double := ⟨0x7ff8000000000000⟩

def isNaN (x : Double) : Bool := decide (double.infinity < x.magnitude)

/-- Numeric equality. -/
def equal (x y : Double) : Bool :=
  !x.isNaN && !y.isNaN && (x.bits == y.bits || (x.magnitude == 0 && y.magnitude == 0))

/-- Opposite number. -/
def neg (x : Double) : Double := ofMagnitude (!x.negative) x.magnitude

/-- Zero of either sign. -/
def isZero (x : Double) : Bool := x.magnitude == 0

/-- Exact magnitude of `significand * 2 ^ exponent` as a quotient. -/
def quotient (significand : Nat) (exponent : Int) : Nat × Nat :=
  if 0 ≤ exponent then (significand * 2 ^ exponent.toNat, 1)
  else (significand, 2 ^ (-exponent).toNat)

/-- The integer a finite double equals, if it equals one. -/
def toInt? (x : Double) : Option Int :=
  match x.classify with
  | .finite negative significand exponent =>
    let (num, den) := quotient significand exponent
    if num % den = 0 then some (if negative then -((num / den : Nat) : Int) else (num / den : Nat))
    else none
  | _ => none

/-- Product of the magnitudes of two finite doubles, with the sign of the first. -/
def scaleUp (x factor : Double) : Double :=
  match x.classify, factor.classify with
  | .finite negative m e, .finite _ n k =>
    let (num, den) := quotient (m * n) (e + k)
    ofQuotient negative num den
  | _, _ => x

/-- Quotient of the magnitudes of two finite doubles, with the sign of the first. -/
def scaleDown (x divisor : Double) : Double :=
  match x.classify, divisor.classify with
  | .finite negative m e, .finite _ n k =>
    let (num, den) := quotient m (e - k)
    ofQuotient negative num (den * n)
  | _, _ => x

def isInfinite (x : Double) : Bool := x.magnitude == double.infinity

/-! ## Single precision -/

/-- Pattern of the nearest single; a value that is no number keeps its leading payload and is
made quiet. -/
def toSingle (x : Double) : UInt32 :=
  let sign := if x.negative then single.signUnit else 0
  match x.classify with
  | .notANumber =>
    let payload := (x.magnitude % double.fractionUnit) / 2 ^ 29
    let quiet := if payload < 2 ^ 22 then payload + 2 ^ 22 else payload
    UInt32.ofNat (sign + single.infinity + quiet)
  | .infinite _ => UInt32.ofNat (sign + single.infinity)
  | .finite _ significand exponent =>
    let (num, den) := quotient significand exponent
    UInt32.ofNat (sign + single.round num den)

/-- The double equal to a single; a value that is no number keeps its payload and is made
quiet. -/
def ofSingle (pattern : UInt32) : Double :=
  let negative := decide (single.signUnit ≤ pattern.toNat)
  let magnitude := pattern.toNat % single.signUnit
  if single.infinity < magnitude then
    let payload := magnitude % single.fractionUnit
    let quiet := if payload < 2 ^ 22 then payload + 2 ^ 22 else payload
    ofMagnitude negative (double.infinity + quiet * 2 ^ 29)
  else if magnitude = single.infinity then ofMagnitude negative double.infinity
  else
    let (significand, exponent) := single.decode magnitude
    let (num, den) := quotient significand exponent
    ofQuotient negative num den

end Double

end PackedRecord
