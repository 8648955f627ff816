import PackedRecord.Value.Native
import PackedRecord.Shape

/-!
# In-memory records

`RecordAccess ρ` is what a codec needs of a record: a fresh one, a value by member name and
position, and an update.  Dynamic maps go by name, positional records by position.  A typed
record is described by its accessors; of accessors with one name the first owns it.
-/

namespace PackedRecord

/-- Read and write access to the members of a record. -/
class RecordAccess (ρ : Type) where
  /-- A record that can receive a number of members. -/
  empty : Nat → ρ
  /-- Value under a name or at a position, if the record has one. -/
  field? : ρ → String → Nat → Option Value
  /-- The record with a value set. -/
  setField : ρ → String → Nat → Value → Except Error ρ

instance : RecordAccess Fields where
  empty _ := []
  field? r name _ := Assoc.get? name r
  setField r name _ v := .ok (Assoc.insert name v r)

/-- A positional record. -/
structure Row where
  values : List Value
  deriving Repr

/-- Set a position, filling up with null. -/
def Row.set (r : Row) (position : Nat) (v : Value) : Row :=
  ⟨(r.values ++ List.replicate (position + 1 - r.values.length) Value.null).set position v⟩

instance : RecordAccess Row where
  empty n := ⟨List.replicate n .null⟩
  field? r _ position := r.values[position]?
  setField r _ position v := .ok (r.set position v)

/-- Access to one field of a typed record. -/
structure Accessor (ρ : Type) where
  field : Field
  get : ρ → Value
  set : ρ → Value → Except Error ρ

/-- Name and accessors of a typed record. -/
structure Descriptor (ρ : Type) where
  typeName : String
  accessors : List (Accessor ρ)

namespace Descriptor

variable {ρ : Type}

/-- A typed record without fields. -/
def named (typeName : String) : Descriptor ρ := ⟨typeName, []⟩

/-- Declare a field behind the earlier ones. -/
def declare (d : Descriptor ρ) (a : Accessor ρ) : Descriptor ρ :=
  { d with accessors := d.accessors ++ [a] }

/-- Declare a field of a native type. -/
def field {α : Type} [Native α] (d : Descriptor ρ) (name : String) (type : FieldType)
    (get : ρ → α) (set : ρ → α → ρ) : Descriptor ρ :=
  d.declare
    { field := ⟨name, type⟩
      get := fun r => Native.toValue (get r)
      set := fun r v => (Native.ofValue v).map (set r) }

/-- The declared fields. -/
def shape (d : Descriptor ρ) : Shape := .reflected d.typeName (d.accessors.map Accessor.field)

/-- The accessor that owns a name. -/
def accessor? (d : Descriptor ρ) (name : String) : Option (Accessor ρ) :=
  d.accessors.find? fun a => a.field.name == name

/-- Value of a field. -/
def get? (d : Descriptor ρ) (r : ρ) (name : String) : Option Value :=
  (d.accessor? name).map fun a => a.get r

/-- The record with a field set. -/
def set (d : Descriptor ρ) (r : ρ) (name : String) (v : Value) : Except Error ρ :=
  match d.accessor? name with
  | none => .error (.noSuchField name)
  | some a => (a.set r v).mapError (Error.forMember name)

end Descriptor

/-- A typed record with its descriptor and its initial value. -/
class Reflected (ρ : Type) where
  descriptor : Descriptor ρ
  initial : ρ

instance {ρ : Type} [Reflected ρ] : RecordAccess ρ where
  empty _ := Reflected.initial
  field? r name _ := Reflected.descriptor.get? r name
  setField r name _ v := Reflected.descriptor.set r name v

end PackedRecord
