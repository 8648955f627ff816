import PackedRecord.Error
import PackedRecord.Value.Basic

/-!
# Native fields

`Native α` says how a field of type `α` of a typed record is given out as a dynamic value and
taken back.  An integer field takes every number that is whole and in its own range.  The
errors do not name a member.
-/

namespace PackedRecord

/-- A 32-bit floating point number, as its pattern. -/
structure Single where
  bits : UInt32
  deriving DecidableEq, Repr

/-- Conversion of a native type to and from values. -/
class Native (α : Type) where
  toValue : α → Value
  ofValue : Value → Except Error α

namespace Native

/-- The value has another kind than the expected one. -/
def mismatch (expected : String) (v : Value) : Error := .kindMismatch "" expected v.kindName

/-- Take a value by one of its views. -/
def take {α : Type} (expected : String) (view : Value → Option α) (v : Value) : Except Error α :=
  match view v with
  | some a => .ok a
  | none => .error (mismatch expected v)

/-- A number as a signed integer of `width` bytes. -/
def takeSigned (expected : String) (width : Nat) (v : Value) : Except Error Int :=
  match take expected Value.int? v with
  | .error e => .error e
  | .ok i =>
    if Word.FitsSigned width i.toInt then .ok i.toInt else .error (.outOfRange "" width)

/-- A number as an unsigned integer of `width` bytes. -/
def takeUnsigned (expected : String) (width : Nat) (v : Value) : Except Error Nat :=
  match take expected Value.nat? v with
  | .error e => .error e
  | .ok n =>
    if Word.FitsUnsigned width n.toNat then .ok n.toNat else .error (.outOfRange "" width)

instance : Native Int8 where
  toValue i := .number (.int (Int64.ofInt i.toInt))
  ofValue v := (takeSigned "i8" 1 v).map Int8.ofInt

instance : Native Int16 where
  toValue i := .number (.int (Int64.ofInt i.toInt))
  ofValue v := (takeSigned "i16" 2 v).map Int16.ofInt

instance : Native Int32 where
  toValue i := .number (.int (Int64.ofInt i.toInt))
  ofValue v := (takeSigned "i32" 4 v).map Int32.ofInt

instance : Native Int64 where
  toValue i := .number (.int i)
  ofValue v := (takeSigned "i64" 8 v).map Int64.ofInt

instance : Native UInt8 where
  toValue n := .number (.nat (UInt64.ofNat n.toNat))
  ofValue v := (takeUnsigned "u8" 1 v).map UInt8.ofNat

instance : Native UInt16 where
  toValue n := .number (.nat (UInt64.ofNat n.toNat))
  ofValue v := (takeUnsigned "u16" 2 v).map UInt16.ofNat

instance : Native UInt32 where
  toValue n := .number (.nat (UInt64.ofNat n.toNat))
  ofValue v := (takeUnsigned "u32" 4 v).map UInt32.ofNat

instance : Native UInt64 where
  toValue n := .number (.nat n)
  ofValue v := (takeUnsigned "u64" 8 v).map UInt64.ofNat

instance : Native Double where
  toValue x := .number (.float x)
  ofValue := take "f64" Value.double?

instance : Native Single where
  toValue x := .number (.float (Double.ofSingle x.bits))
  ofValue v := (take "f32" Value.double? v).map fun x => ⟨x.toSingle⟩

instance : Native Bool where
  toValue := .bool
  ofValue := take "bool" Value.bool?

instance : Native String where
  toValue := .text
  ofValue := take "string" Value.text?

instance : Native Time.Instant where
  toValue := .instant
  ofValue := take "timestamp" Value.instant?

instance : Native Time.Span where
  toValue := .span
  ofValue := take "duration" Value.span?

instance : Native Choice where
  toValue := .choice
  ofValue := take "enum" Value.choice?

instance : Native Grid where
  toValue g := .array g.dims g.elements
  ofValue := take "array" Value.grid?

instance : Native Fields where
  toValue := .fields
  ofValue := take "compound" Value.fields?

end Native

end PackedRecord
