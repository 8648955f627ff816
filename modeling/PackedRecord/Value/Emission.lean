import PackedRecord.Json.Basic
import PackedRecord.Value.Basic

/-!
# Values as they are handed to a writer

A value is handed to a writer of some format piece by piece, in terms that all formats share.
`Value.emit` is the tree of these pieces, and `Emission.toJson` what a writer of JSON makes of
it.  A stream lists the two parts of a span as they are declared, and the entries of a record
in the order of the map.
-/

namespace PackedRecord

/-- Pieces that a value is handed to a writer in. -/
inductive Emission where
  /-- Nothing in place of an optional value. -/
  | absent
  | bool (flag : Bool)
  | int (i : Int64)
  | nat (n : UInt64)
  | float (x : Double)
  | text (s : String)
  | bytes (content : Bytes)
  /-- One of several names, without content. -/
  | variant (name : String)
  | sequence (elements : List Emission)
  /-- A structure, parts in declared order. -/
  | parts (fields : List (String × Emission))
  /-- A map from names. -/
  | entries (pairs : List (String × Emission))
  deriving Repr

namespace Value

mutual

/-- The pieces of a value. -/
def emit : Value → Emission
  | null => .absent
  | bool b => .bool b
  | number (.int i) => .int i
  | number (.nat n) => .nat n
  | number (.float x) => .float x
  | text s => .text s
  | choice (.known _ label) => .text label
  | choice (.unlisted code) => .int code
  | bits words => .sequence (words.map .nat)
  | instant t => .text t.text
  | span d => .parts [("value", .int d.count), ("unit", .variant d.unit.name)]
  | bytes content => .bytes content
  | array _ elements => .sequence (emitAll elements)
  | fields entries => .entries (emitFields entries)

/-- The pieces of each element. -/
def emitAll : List Value → List Emission
  | [] => []
  | v :: rest => v.emit :: emitAll rest

/-- The pieces of each entry, under its name. -/
def emitFields : List (String × Value) → List (String × Emission)
  | [] => []
  | (k, v) :: rest => (k, v.emit) :: emitFields rest

end

end Value

namespace Emission

mutual

/-- What a writer of JSON puts down: only finite floating point numbers, raw bytes as an array of
numbers, a variant as its name, and structures and maps as objects. -/
def toJson : Emission → Json
  | absent => .null
  | bool b => .bool b
  | int i => .integer i.toInt
  | nat n => .integer n.toNat
  | float x =>
    match x.classify with
    | .finite .. => .float x
    | .infinite _ | .notANumber => .null
  | text s => .text s
  | bytes content => .array (content.map fun b => .integer b.toNat)
  | variant name => .text name
  | sequence elements => .array (toJsonAll elements)
  | parts fields => .object (toJsonFields fields)
  | entries pairs => .object (toJsonFields pairs)

/-- Documents of the elements. -/
def toJsonAll : List Emission → List Json
  | [] => []
  | e :: rest => e.toJson :: toJsonAll rest

/-- Documents under their names. -/
def toJsonFields : List (String × Emission) → List (String × Json)
  | [] => []
  | (k, e) :: rest => (k, e.toJson) :: toJsonFields rest

end

end Emission

end PackedRecord
