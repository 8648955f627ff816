import PackedRecord.Floating.Text
import PackedRecord.Word

/-!
# Numbers of a record

A number is a signed integer, an unsigned integer or a double; which of the three it is stays
observable.  The integer views accept a double that is whole and in range; the upper bound is
the double next to the largest integer, and what lies on it is clamped.
-/

namespace PackedRecord

attribute [local instance] corePow

/-- A number as a record holds it. -/
inductive Number where
  | int (i : Int64)
  | nat (n : UInt64)
  | float (x : Double)
  deriving DecidableEq, Repr

namespace Number

/-- Plain decimal text of a double: never a power of ten, no fraction on whole numbers. -/
def plainStyle : Floating.Style :=
  ⟨.up, none, false, "NaN", "inf"⟩

/-- The nearest double. -/
def toDouble : Number → Double
  | int i => .ofInt i.toInt
  | nat n => .ofInt n.toNat
  | float x => x

/-- The number as a signed 64-bit integer. -/
def toInt? : Number → Option Int64
  | int i => some i
  | nat n => int64? n.toNat
  | float x =>
    match x.toInt? with
    | some i => if -(2 ^ 63) ≤ i ∧ i ≤ 2 ^ 63 then some (Int64.ofInt (min i (2 ^ 63 - 1))) else none
    | none => none

/-- The number as an unsigned 64-bit integer. -/
def toNat? : Number → Option UInt64
  | int i => uint64? i.toInt
  | nat n => some n
  | float x =>
    match x.toInt? with
    | some i => if 0 ≤ i ∧ i ≤ 2 ^ 64 then some (UInt64.ofNat (min i (2 ^ 64 - 1)).toNat) else none
    | none => none

/-- Kind and digits, as shown to a programmer. -/
def inspect : Number → String
  | int i => s!"I64({i.toInt})"
  | nat n => s!"U64({n.toNat})"
  | float x => s!"F64({plainStyle.text x})"

/-- Same kind and same number; a double that is no number differs from itself. -/
def equal : Number → Number → Bool
  | int i, int j => i == j
  | nat m, nat n => m == n
  | float x, float y => x.equal y
  | _, _ => false

end Number

end PackedRecord
