import PackedRecord.Digest.Xxh64
import PackedRecord.Schema.Basic
import PackedRecord.Text.Quoted
import PackedRecord.Text.Utf8

/-!
# Fingerprints of schemas

The fingerprint of a schema hashes a canonical text of its raw layout: size, byte order and,
member by member, name, offset, class, element size, signedness, extents, character set and
meaning, then the name and the labels of an enum table and the fingerprint of a nested schema.
The shape of the records does not contribute.
-/

namespace PackedRecord

/-- Canonical text of a placement up to its enum table. -/
def Placement.canonicalText (p : Placement) : String :=
  let meaning := match p.meaning with
    | some m => "Some(" ++ m.inspect ++ ")"
    | none => "None"
  "|" ++ p.name ++ "@" ++ toString p.offset ++ ":" ++ p.storageClass.name ++ "/" ++
    toString p.size ++ "/" ++ toString p.signed ++ "/" ++ numberList p.dims ++ "/" ++
    p.charset.name ++ "/" ++ meaning

/-- Canonical text of an enum table. -/
def EnumTable.canonicalText (t : EnumTable) : String :=
  "/enum:" ++ t.name ++ Text.bracketed (t.labels.map Text.quoted)

namespace Schema

/-- Hash of a canonical text. -/
def fingerprintOf (text : String) : UInt64 := Digest.Xxh64.hash 0 (Text.Utf8.encode text)

mutual

/-- Canonical text of the raw layout. -/
def canonicalText : Schema → String
  | ⟨_, members, _, totalSize, settings⟩ =>
    toString totalSize ++ "|" ++ settings.byteOrder.name ++ canonicalTextOf members

/-- Canonical text of some members. -/
def canonicalTextOf : List Member → String
  | [] => ""
  | ⟨p, _, _⟩ :: rest =>
    p.canonicalText ++ (p.table.map EnumTable.canonicalText).getD "" ++
      nestedText p ++ canonicalTextOf rest

/-- Fingerprint of the schema of a nested record. -/
def nestedText : Placement → String
  | { nested := some schema, .. } =>
    "/nested:" ++ toString (fingerprintOf schema.canonicalText).toNat
  | { nested := none, .. } => ""

end

/-- Hash of the raw layout; schemas with equal fingerprints are taken for compatible. -/
def fingerprint (s : Schema) : UInt64 := fingerprintOf s.canonicalText

end Schema

end PackedRecord
