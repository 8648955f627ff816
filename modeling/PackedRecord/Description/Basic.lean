import PackedRecord.Schema.Build

/-!
# Type descriptions

A description is the part of a schema that a type catalog keeps: raw layout and byte order,
neither bindings nor codecs.  `Schema.describe` forms it, `Description.toSchema` builds a
schema of it for any shape; nested types are rebuilt for an open map first.
-/

namespace PackedRecord

mutual

/-- What a catalog keeps of a member. -/
structure DescribedMember where
  name : String
  offset : Nat
  size : Int
  storageClass : StorageClass
  signed : Bool
  dims : List Nat
  charset : Charset
  meaning : Option Meaning
  tag : Option String
  table : Option EnumTable
  nested : Option Description

/-- What a catalog keeps of a compound type. -/
structure Description where
  name : String
  totalSize : Nat
  byteOrder : ByteOrder
  members : List DescribedMember

end

namespace Schema

mutual

/-- The description of a schema. -/
def describe : Schema → Description
  | ⟨name, members, _, totalSize, settings⟩ =>
    ⟨name, totalSize, settings.byteOrder, describeMembers members⟩

/-- Descriptions of members in order. -/
def describeMembers : List Member → List DescribedMember
  | [] => []
  | ⟨p, _, _⟩ :: rest => describePlacement p :: describeMembers rest

/-- The description of one member. -/
def describePlacement : Placement → DescribedMember
  | ⟨name, offset, size, storageClass, signed, dims, charset, meaning, tag, table, nested⟩ =>
    ⟨name, offset, size, storageClass, signed, dims, charset, meaning, tag, table,
      describeNested nested⟩

/-- The description of a nested type. -/
def describeNested : Option Schema → Option Description
  | none => none
  | some schema => some schema.describe

end

end Schema

namespace Description

mutual

/-- The schema of a description for records of some shape. -/
def toSchema : Description → Shape → Except Error Schema
  | ⟨name, totalSize, byteOrder, members⟩, shape =>
    match placements members with
    | .error e => .error e
    | .ok stated =>
      Blueprint.build
        { shape := shape
          name := some name
          placements := some stated
          settings := { byteOrder := byteOrder }
          totalSize := some totalSize }

/-- Placements of described members in order. -/
def placements : List DescribedMember → Except Error (List Placement)
  | [] => .ok []
  | m :: rest =>
    match placement m with
    | .error e => .error e
    | .ok p => (placements rest).map (p :: ·)

/-- The placement of a described member; extents beyond the highest rank are dropped. -/
def placement : DescribedMember → Except Error Placement
  | ⟨name, offset, size, storageClass, signed, dims, charset, meaning, tag, table, nested⟩ =>
    (nestedSchema nested).map fun schema =>
      ⟨name, offset, size, storageClass, signed, dims.take maxRank, charset, meaning, tag, table,
        schema⟩

/-- The schema of a nested type. -/
def nestedSchema : Option Description → Except Error (Option Schema)
  | none => .ok none
  | some d => (d.toSchema .openMap).map some

end

mutual

/-- Equality of descriptions. -/
def equal : Description → Description → Bool
  | ⟨n, t, b, ms⟩, ⟨n', t', b', ms'⟩ => n == n' && t == t' && b == b' && equalMembers ms ms'

/-- Equality member by member. -/
def equalMembers : List DescribedMember → List DescribedMember → Bool
  | [], [] => true
  | m :: ms, m' :: ms' => equalMember m m' && equalMembers ms ms'
  | _, _ => false

/-- Equality of members. -/
def equalMember : DescribedMember → DescribedMember → Bool
  | ⟨n, o, s, c, g, d, h, m, t, e, x⟩, ⟨n', o', s', c', g', d', h', m', t', e', x'⟩ =>
    n == n' && o == o' && s == s' && c == c' && g == g' && d == d' && h == h' && m == m' &&
      t == t' && e == e' && equalNested x x'

/-- Equality of nested types. -/
def equalNested : Option Description → Option Description → Bool
  | none, none => true
  | some d, some d' => equal d d'
  | _, _ => false

end

end Description

end PackedRecord
