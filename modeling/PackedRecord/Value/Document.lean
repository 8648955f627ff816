import PackedRecord.Value.Emission

/-!
# Values as JSON documents

`Value.toJson` is the document of a value, `Value.streamed` what a writer puts down that is handed
the value piece by piece; they differ in the order of object members alone: a document lists them
by name, a stream lists the two parts of a span as they are declared.  `Value.ofJson` reads any
document; an array becomes an array of rank one.
-/

namespace PackedRecord.Value

/-- A number as a document; a double without digits is null. -/
def numberJson : Number → Json
  | .int i => .integer i.toInt
  | .nat n => .integer n.toNat
  | .float x => .ofDouble x

/-- A choice is its label, an unlisted one its code. -/
def choiceJson : Choice → Json
  | .known _ label => .text label
  | .unlisted code => .integer code.toInt

mutual

/-- The document of a value, object members by name. -/
def toJson : Value → Json
  | null => .null
  | bool b => .bool b
  | number n => numberJson n
  | text s => .text s
  | choice c => choiceJson c
  | bits words => .array (words.map fun w => .integer w.toNat)
  | instant t => .text t.text
  | span d => .object [("unit", .text d.unit.name), ("value", .integer d.count.toInt)]
  | bytes content => .array (content.map fun b => .integer b.toNat)
  | array _ elements => .array (toJsonAll elements)
  | fields entries => .object (toJsonFields entries)

/-- Documents of the elements. -/
def toJsonAll : List Value → List Json
  | [] => []
  | v :: rest => v.toJson :: toJsonAll rest

/-- Documents under their names. -/
def toJsonFields : List (String × Value) → List (String × Json)
  | [] => []
  | (k, v) :: rest => (k, v.toJson) :: toJsonFields rest

end

/-- What a writer of JSON puts down for a value, members in declared order. -/
def streamed (v : Value) : Json := v.emit.toJson

/-- An integer is signed if it fits, else unsigned; beyond both it is a double. -/
def ofInteger (i : Int) : Value :=
  match int64? i with
  | some s => number (.int s)
  | none =>
    match uint64? i with
    | some n => number (.nat n)
    | none => number (.float (.ofInt i))

mutual

/-- The value of a document; of object members with one name the last wins. -/
def ofJson : Json → Value
  | .null => null
  | .bool b => bool b
  | .integer i => ofInteger i
  | .float x => number (.float x)
  | .text s => text s
  | .array elements => row (ofJsonAll elements)
  | .object members => ofFields (ofJsonMembers members)

/-- Values of the elements. -/
def ofJsonAll : List Json → List Value
  | [] => []
  | j :: rest => ofJson j :: ofJsonAll rest

/-- Values under their names, in the order given. -/
def ofJsonMembers : List (String × Json) → List (String × Value)
  | [] => []
  | (k, j) :: rest => (k, ofJson j) :: ofJsonMembers rest

end

end PackedRecord.Value
