import PackedRecord.Description.Basic
import PackedRecord.Json.Reader

/-!
# Descriptions as JSON documents

`toJson` writes every part under its name.  Reading accepts an object in any order, with
unknown names ignored and absent optional parts taken for null, or an array of all parts in
order; a name given twice, a number out of range and an unknown variant are refused.  A text is
read for the known names only; what stands under others has to be JSON and nothing more.
-/

namespace PackedRecord

namespace Json

/-- Null stands for nothing. -/
def ofOption {α : Type} (f : α → Json) : Option α → Json
  | some a => f a
  | none => null

/-- The parts of a structure in declared order; `optional` ones may be absent. -/
def parts? (required optional : List String) : Json → Option (List Json)
  | object members =>
    (required ++ optional).mapM fun name =>
      match members.filter fun m => m.1 == name with
      | [] => if optional.contains name then some null else none
      | [(_, j)] => some j
      | _ => none
  | array elements =>
    if elements.length = required.length + optional.length then some elements else none
  | _ => none

def text? : Json → Option String
  | text s => some s
  | _ => none

def bool? : Json → Option Bool
  | bool b => some b
  | _ => none

/-- An integer between zero and the greatest 64-bit number. -/
def size? : Json → Option Nat
  | integer i => (uint64? i).map UInt64.toNat
  | _ => none

/-- A signed 64-bit integer. -/
def int64? : Json → Option Int64
  | integer i => PackedRecord.int64? i
  | _ => none

/-- An array of documents of one form. -/
def list? {α : Type} (read : Json → Option α) : Json → Option (List α)
  | array elements => elements.mapM read
  | _ => none

/-- Null or a document of some form. -/
def option? {α : Type} (read : Json → Option α) : Json → Option (Option α)
  | null => some none
  | j => (read j).map some

/-- A variant without content: its name, or an object with its name and null. -/
def variant? {α : Type} (all : List α) (name : α → String) : Json → Option α
  | text s => all.find? fun a => name a == s
  | object [(s, null)] => all.find? fun a => name a == s
  | _ => none

mutual

/-- How deep arrays and objects nest. -/
def depth : Json → Nat
  | array elements => depthAll elements + 1
  | object members => depthMembers members + 1
  | _ => 0

/-- Greatest depth of some documents. -/
def depthAll : List Json → Nat
  | [] => 0
  | j :: rest => max j.depth (depthAll rest)

/-- Greatest depth of some members. -/
def depthMembers : List (String × Json) → Nat
  | [] => 0
  | (_, j) :: rest => max j.depth (depthMembers rest)

end

end Json

namespace EnumTable

/-- The description of a table. -/
def toJson (t : EnumTable) : Json :=
  .object
    [("name", .text t.name), ("values", .array (t.labels.map .text)),
      ("codes", .array (t.codes.map fun c => .integer c.toInt)),
      ("storage_size", .integer t.width)]

/-- Names of the parts of a table. -/
def partNames : List String := ["name", "values", "codes", "storage_size"]

/-- The table of a description, as it stands. -/
def ofJson? (j : Json) : Option EnumTable :=
  match j.parts? partNames [] with
  | some [name, labels, codes, width] => do
    let name ← name.text?
    let labels ← labels.list? Json.text?
    let codes ← codes.list? Json.int64?
    let width ← width.size?
    some ⟨name, labels, codes, width⟩
  | _ => none

end EnumTable

namespace Meaning

def toJson : Meaning → Json
  | timestamp u => .object [("Timestamp", .text u.name)]
  | duration u => .object [("Duration", .text u.name)]

/-- One of the two variants with its unit. -/
def ofJson? : Json → Option Meaning
  | .object [("Timestamp", j)] => (j.variant? Time.Unit.all Time.Unit.name).map timestamp
  | .object [("Duration", j)] => (j.variant? Time.Unit.all Time.Unit.name).map duration
  | _ => none

end Meaning

namespace Description

mutual

/-- The document of a description. -/
def toJson : Description → Json
  | ⟨name, totalSize, byteOrder, members⟩ =>
    .object
      [("name", .text name), ("total_size", .integer totalSize),
        ("byte_order", .text byteOrder.name), ("members", .array (membersJson members))]

/-- Documents of the members. -/
def membersJson : List DescribedMember → List Json
  | [] => []
  | m :: rest => memberJson m :: membersJson rest

/-- The document of a member. -/
def memberJson : DescribedMember → Json
  | ⟨name, offset, size, storageClass, signed, dims, charset, meaning, tag, table, nested⟩ =>
    .object
      [("name", .text name), ("offset", .integer offset), ("element_size", .integer size),
        ("data_class", .text storageClass.name), ("signed", .bool signed),
        ("dimensions", .array (dims.map fun (d : Nat) => .integer d)),
        ("encoding", .text charset.name), ("variant", Json.ofOption Meaning.toJson meaning),
        ("opaque_tag", Json.ofOption .text tag),
        ("enum_type", Json.ofOption EnumTable.toJson table), ("nested", nestedJson nested)]

/-- The document of a nested type. -/
def nestedJson : Option Description → Json
  | none => .null
  | some d => d.toJson

end

/-- Names of the parts of a description. -/
def partNames : List String := ["name", "total_size", "byte_order", "members"]

/-- Names of the parts that every member has. -/
def memberParts : List String :=
  ["name", "offset", "element_size", "data_class", "signed", "dimensions", "encoding"]

/-- Names of the parts that a member may lack. -/
def optionalParts : List String := ["variant", "opaque_tag", "enum_type", "nested"]

/-- A member, its nested type read by `nested`. -/
def memberOfJson? (nested : Json → Option Description) (j : Json) : Option DescribedMember :=
  match j.parts? memberParts optionalParts with
  | some [name, offset, size, storageClass, signed, dims, charset, meaning, tag, table, inner] => do
    let name ← name.text?
    let offset ← offset.size?
    let size ← size.int64?
    let storageClass ← storageClass.variant? StorageClass.all StorageClass.name
    let signed ← signed.bool?
    let dims ← dims.list? Json.size?
    let charset ← charset.variant? Charset.all Charset.name
    let meaning ← meaning.option? Meaning.ofJson?
    let tag ← tag.option? Json.text?
    let table ← table.option? EnumTable.ofJson?
    let inner ← inner.option? nested
    some ⟨name, offset, size.toInt, storageClass, signed, dims, charset, meaning, tag, table, inner⟩
  | _ => none

/-- A description of a document that nests at most as deep as the first argument. -/
def ofJsonWithin? : Nat → Json → Option Description
  | 0, _ => none
  | depth + 1, j =>
    match j.parts? partNames [] with
    | some [name, totalSize, byteOrder, members] => do
      let name ← name.text?
      let totalSize ← totalSize.size?
      let byteOrder ← byteOrder.variant? ByteOrder.all ByteOrder.name
      let members ← members.list? (memberOfJson? (ofJsonWithin? depth))
      some ⟨name, totalSize, byteOrder, members⟩
    | _ => none

/-- The description of a document. -/
def ofJson? (j : Json) : Option Description := ofJsonWithin? (j.depth + 1) j

/-- What a part of the document of a description is there for. -/
inductive Part where
  | description
  | members
  | member
  | table
  /-- Read with all that it holds. -/
  | whole
  deriving DecidableEq, Repr

namespace Part

/-- The names known in a part with names, and what each of them is there for. -/
def known : Part → List (String × Part)
  | description => partNames.zip [whole, whole, whole, members]
  | member => (memberParts.map fun name => (name, whole)) ++
      optionalParts.zip [whole, whole, table, description]
  | table => EnumTable.partNames.map fun name => (name, whole)
  | members => []
  | whole => []

/-- The parts of a description that its text is read for: every element of an array, by its
place, and of an object the known names. -/
def selection : Json.Selection Part where
  element
    | members, _ => member
    | part, index => (part.known[index]?.map Prod.snd).getD whole
  member
    | whole, _ => some whole
    | part, name => part.known.lookup name

end Part

/-- The description of a JSON text. -/
def ofText? (s : String) : Option Description :=
  (Json.readPart? Part.selection .description s).bind ofJson?

end Description

end PackedRecord
