import PackedRecord.Floating.Shortest

/-!
# Texts of floating point numbers

A style says how the shortest decimal of a double is laid out: with or without a power of
ten, with or without a fraction, and what stands for values that have no digits.
-/

namespace PackedRecord.Floating

/-- Decimal digits of a natural number. -/
def decimalDigits (n : Nat) : List Char := Nat.toDigits 10 n

/-- A positive decimal as the fraction digits after `0.` and the power of ten before it: no
digit `0` ends the list. -/
def Decimal.fraction (d : Decimal) : List Char × Int :=
  let digits := decimalDigits d.coefficient
  let trimmed := (digits.reverse.dropWhile (· == '0')).reverse
  (trimmed, d.exponent + digits.length)

/-- How a floating point number is written. -/
structure Style where
  tie : Tie
  /-- Least and greatest exponent of the leading digit that is written without a power of ten;
  `none` writes every number that way. -/
  positional : Option (Int × Int)
  /-- A whole number keeps one fraction digit. -/
  keepFraction : Bool
  /-- Texts of a value that is no number and of positive infinity. -/
  notANumber : String
  infinite : String
  deriving Repr

/-- Digits with the decimal point `point` places after the start. -/
def placePoint (keepFraction : Bool) (digits : List Char) (point : Int) : List Char :=
  if point ≤ 0 then '0' :: '.' :: (List.replicate (-point).toNat '0' ++ digits)
  else
    let p := point.toNat
    let whole := digits.take p ++ List.replicate (p - digits.length) '0'
    match digits.drop p with
    | [] => if keepFraction then whole ++ ['.', '0'] else whole
    | rest => whole ++ '.' :: rest

/-- Digits with a power of ten: one digit before the point and a signed exponent. -/
def placeExponent (digits : List Char) (exponent : Int) : List Char :=
  let mantissa := match digits with
    | [] => []
    | [d] => [d]
    | d :: rest => d :: '.' :: rest
  let sign := if exponent < 0 then '-' else '+'
  mantissa ++ 'e' :: sign :: decimalDigits exponent.natAbs

/-- Text of a double. -/
def Style.text (style : Style) (x : Double) : String :=
  let sign (negative : Bool) (body : List Char) : String :=
    String.ofList (if negative then '-' :: body else body)
  match x.classify with
  | .notANumber => style.notANumber
  | .infinite negative => sign negative style.infinite.toList
  | .finite negative 0 _ => sign negative (if style.keepFraction then ['0', '.', '0'] else ['0'])
  | .finite negative significand exponent =>
    let (digits, point) := (shortest style.tie significand exponent).fraction
    let inRange := match style.positional with
      | none => true
      | some (least, greatest) => decide (least ≤ point - 1 ∧ point - 1 ≤ greatest)
    sign negative
      (if inRange then placePoint style.keepFraction digits point
       else placeExponent digits (point - 1))

end PackedRecord.Floating
