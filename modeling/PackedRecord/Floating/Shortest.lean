import PackedRecord.Floating.Double

/-!
# Shortest decimals

The reals that round to a finite double form an interval around it; its ends belong to it
exactly when the significand is even.  Among the decimal grids of step `10 ^ p` there is a
coarsest one with a point in that interval.  The shortest decimal is the point of that grid
nearest to the double, and a tie is settled by the caller.
-/

namespace PackedRecord.Floating

attribute [local instance] corePow

/-- Where an exact tie between two decimals goes. -/
inductive Tie where
  | up
  | even
  deriving DecidableEq, Repr

/-- A positive decimal number `coefficient * 10 ^ exponent`. -/
structure Decimal where
  coefficient : Nat
  exponent : Int
  deriving DecidableEq, Repr

/-- A positive quotient with the interval of reals that round to it, over one denominator. -/
structure Neighbourhood where
  low : Nat
  mid : Nat
  high : Nat
  den : Nat
  closed : Bool
  deriving Repr

namespace Neighbourhood

/-- Neighbourhood of the double `significand * 2 ^ exponent`.  Below a power of two the
doubles lie twice as dense, unless the exponent is already the least one. -/
def ofDouble (significand : Nat) (exponent : Int) : Neighbourhood :=
  let below :=
    if significand = double.fractionUnit ∧ double.leastExponent < exponent then 1 else 2
  let up := if 0 ≤ exponent - 2 then 2 ^ (exponent - 2).toNat else 1
  let den := if 0 ≤ exponent - 2 then 1 else 2 ^ (2 - exponent).toNat
  { low := (4 * significand - below) * up
    mid := 4 * significand * up
    high := (4 * significand + 2) * up
    den := den
    closed := significand % 2 == 0 }

/-- `n / d` rounds to the middle. -/
def contains (i : Neighbourhood) (n d : Nat) : Bool :=
  if i.closed then decide (i.low * d ≤ n * i.den ∧ n * i.den ≤ i.high * d)
  else decide (i.low * d < n * i.den ∧ n * i.den < i.high * d)

/-- The point of the grid of step `10 ^ p` that lies in the interval, the nearer of two. -/
def onGrid? (tie : Tie) (i : Neighbourhood) (p : Int) : Option Decimal :=
  let up := if 0 ≤ p then 10 ^ p.toNat else 1
  let down := if 0 ≤ p then 1 else 10 ^ (-p).toNat
  let num := i.mid * down
  let den := i.den * up
  let c := num / den
  match i.contains (c * up) down, i.contains ((c + 1) * up) down with
  | false, false => none
  | true, false => some ⟨c, p⟩
  | false, true => some ⟨c + 1, p⟩
  | true, true =>
    let r := num % den
    let upper := match tie with
      | .up => decide (den ≤ 2 * r)
      | .even => decide (den < 2 * r ∨ (2 * r = den ∧ c % 2 = 1))
    some ⟨if upper then c + 1 else c, p⟩

/-- First grid with a point in the interval, from step `10 ^ p` downward. -/
def shortestFrom (tie : Tie) (i : Neighbourhood) : Nat → Int → Decimal
  | 0, p => ⟨i.mid, p⟩
  | fuel + 1, p =>
    match i.onGrid? tie p with
    | some d => d
    | none => shortestFrom tie i fuel (p - 1)

end Neighbourhood

/-- Shortest decimal that rounds to the positive double `significand * 2 ^ exponent`.  Every
double is a multiple of `10 ^ (-1074)` and less than `10 ^ 309`. -/
def shortest (tie : Tie) (significand : Nat) (exponent : Int) : Decimal :=
  (Neighbourhood.ofDouble significand exponent).shortestFrom tie 1384 309

end PackedRecord.Floating
