import PackedRecord.Schema.Basic

/-!
# Shapes of in-memory records

A shape declares the fields of an in-memory record.  A map or a positional record without
declared fields is open: it receives every member that a raw layout offers.
-/

namespace PackedRecord

/-- In-memory type of a field. -/
inductive FieldType where
  | bool
  | integer (size : Nat) (signed : Bool)
  | float (size : Nat)
  /-- Text of at most `length` characters in a string of fixed width. -/
  | string (length : Nat) (charset : Option Charset)
  | varyingString (charset : Option Charset)
  | enumeration (table : EnumTable)
  | bitField (bits : Nat)
  /-- Point in time; without a unit the one of the settings applies. -/
  | timestamp (unit : Option Time.Unit)
  | duration (unit : Time.Unit)
  | raw (size : Nat) (tag : Option String)
  | varyingBytes
  | array (element : FieldType) (dims : List Nat)
  | compound (schema : Schema)

/-- A declared field. -/
structure Field where
  name : String
  type : FieldType

/-- Declared fields of an in-memory record. -/
structure Shape where
  kind : ShapeKind
  typeName : Option String := none
  fields : List Field

namespace Shape

/-- A typed record. -/
def reflected (typeName : String) (fields : List Field) : Shape :=
  ⟨.reflected, some typeName, fields⟩

/-- A dynamic map with some declared fields. -/
def map (fields : List Field) : Shape := ⟨.map, none, fields⟩

/-- A positional record with some declared fields. -/
def positional (fields : List Field) : Shape := ⟨.positional, none, fields⟩

/-- A dynamic map that receives every member. -/
def openMap : Shape := map []

/-- What a schema keeps of the shape. -/
def outline (s : Shape) : Outline := ⟨s.kind, s.typeName, s.fields.map Field.name⟩

/-- Index and declaration of the first field with a name. -/
def field? (s : Shape) (name : String) : Option (Nat × Field) :=
  match s.fields.findIdx? fun f => f.name == name with
  | some i => s.fields[i]?.map fun f => (i, f)
  | none => none

end Shape

/-- The first name that an earlier one repeats. -/
def firstRepeated (earlier : List String) : List String → Option String
  | [] => none
  | name :: rest =>
    if earlier.contains name then some name else firstRepeated (name :: earlier) rest

end PackedRecord
