import PackedRecord.EnumTable
import PackedRecord.Layout.View

/-!
# Schemas

A schema is an ordered list of members, each with its placement in the raw record, the codec
of its kind and its binding to the in-memory record.  Placements and kinds may hold schemas of
nested records, so the types are defined together.

A `Placement` is data: what a type catalog states about a member.  The kind and the binding of
a `Member` are derived from it when a schema is built.
-/

namespace PackedRecord

attribute [local instance] corePow

/-- Codecs of one element that is no nested record. -/
inductive Scalar where
  | bool
  | integer (signed : Bool)
  | float
  | fixedText (charset : Charset)
  | varyingText (charset : Charset)
  | varyingBytes
  | enumeration (table : EnumTable)
  | bitField
  | timestamp (unit : Time.Unit)
  | duration (unit : Time.Unit)
  /-- Raw bytes; also the codec of members that no other one handles. -/
  | raw
  deriving DecidableEq, Repr

/-- How a member is tied to the in-memory record. -/
inductive Binding where
  /-- No field receives the member. -/
  | unbound
  /-- The declared field at an index receives it. -/
  | field (index : Nat)
  /-- The record has no declared fields and receives every member. -/
  | dynamic
  deriving DecidableEq, Repr

/-- Some field receives the member. -/
def Binding.isBound : Binding → Bool
  | .unbound => false
  | _ => true

/-- Kinds of in-memory records. -/
inductive ShapeKind where
  /-- A typed record with fixed fields. -/
  | reflected
  /-- A dynamic map from names to values. -/
  | map
  /-- Values addressed by member position. -/
  | positional
  deriving DecidableEq, Repr

/-- What a schema keeps of the record it is bound to. -/
structure Outline where
  kind : ShapeKind
  typeName : Option String
  fields : List String
  deriving DecidableEq, Repr

/-- A record without declared fields, unless it is a typed one, receives every member. -/
def Outline.isOpen (o : Outline) : Bool := o.kind != .reflected && o.fields.isEmpty

mutual

/-- Where a member lies in the raw record and what kind of data it holds.  A negative element
size marks a member of variable length. -/
structure Placement where
  name : String
  offset : Nat
  size : Int
  storageClass : StorageClass
  /-- Signedness of integers; other classes ignore it. -/
  signed : Bool
  /-- Extents, outermost first; none for a single element. -/
  dims : List Nat
  charset : Charset
  meaning : Option Meaning
  tag : Option String
  table : Option EnumTable
  nested : Option Schema

/-- Codec of one element. -/
inductive Element where
  | scalar (codec : Scalar)
  | record (schema : Schema)

/-- Codec of a member. -/
inductive Kind where
  | single (element : Element)
  | array (element : Element)

/-- A placement with its codec and its binding. -/
structure Member where
  placement : Placement
  kind : Kind
  binding : Binding

/-- Members of one compound type in storage order, bound to an in-memory record. -/
structure Schema where
  name : String
  members : List Member
  outline : Outline
  totalSize : Nat
  settings : Settings

end

namespace Placement

/-- A placement of a class, signed and without further qualifiers. -/
def plain (name : String) (offset : Nat) (storageClass : StorageClass) (size : Int) :
    Placement where
  name := name
  offset := offset
  size := size
  storageClass := storageClass
  signed := true
  dims := []
  charset := .ascii
  meaning := none
  tag := none
  table := none
  nested := none

/-- A count as a size: sizes are signed 64-bit numbers, so that counts from `2 ^ 63` up to
`2 ^ 64` are negative ones. -/
def sizeOfCount (count : Nat) : Int :=
  if 2 ^ 63 ≤ count ∧ count < 2 ^ 64 then count - 2 ^ 64 else count

theorem sizeOfCount_of_lt {count : Nat} (h : count < 2 ^ 63) : sizeOfCount count = count :=
  if_neg fun ⟨h', _⟩ => absurd h (Nat.not_lt.2 h')

/-- A size as a count: a negative signed 64-bit number counts from `2 ^ 64` down. -/
def countOfSize (size : Int) : Nat :=
  if -2 ^ 63 ≤ size ∧ size < 0 then (size + 2 ^ 64).toNat else size.natAbs

theorem countOfSize_sizeOfCount (count : Nat) : countOfSize (sizeOfCount count) = count := by
  unfold countOfSize sizeOfCount
  split <;> split <;> omega

/-- Below `2 ^ 63` a size and its count are the same number. -/
theorem coe_countOfSize {size : Int} (h : countOfSize size < 2 ^ 63) :
    (countOfSize size : Int) = size := by
  unfold countOfSize at h ⊢
  split at h <;> split <;> omega

def integer (name : String) (offset size : Nat) : Placement :=
  plain name offset .integer (sizeOfCount size)

def float (name : String) (offset size : Nat) : Placement :=
  plain name offset .float (sizeOfCount size)

/-- A string of fixed width; the width includes the terminator. -/
def string (name : String) (offset width : Nat) : Placement :=
  plain name offset .string (sizeOfCount width)

/-- A signed integer of eight bytes that counts units from the epoch. -/
def timestamp (name : String) (offset : Nat) (unit : Time.Unit) : Placement :=
  { plain name offset .integer 8 with meaning := some (.timestamp unit) }

/-- The same placement with extents; those beyond the highest rank are dropped. -/
def withDims (p : Placement) (dims : List Nat) : Placement :=
  { p with dims := dims.take maxRank }

/-- The same placement at another offset. -/
def moveTo (p : Placement) (offset : Nat) : Placement := { p with offset := offset }

def rank (p : Placement) : Nat := p.dims.length

/-- Number of elements; a single element counts as one. -/
def elements (p : Placement) : Nat := elementCount p.dims

def isArray (p : Placement) : Bool := !p.dims.isEmpty

/-- The content has variable length and lies on a heap. -/
def isVarying (p : Placement) : Bool := decide (p.size < 0)

/-- Bytes of one element of a member of fixed length. -/
def elementWidth (p : Placement) : Nat := p.size.toNat

/-- Size of all elements; negative for a member of variable length, and where the count of the
elements is a negative size.  The product is exact and only the casts wrap: a signed machine word
holds the same product as long as it is in the range of one. -/
def extent (p : Placement) : Int :=
  if p.isVarying then p.size else p.size * sizeOfCount p.elements

/-- Bytes the member occupies in the raw record.  As a machine word this is the same count as long
as all elements together take less than `2 ^ 64` bytes. -/
def footprint (p : Placement) : Nat :=
  if p.isVarying then Handle.width else countOfSize p.extent

/-- A member of fixed length that fits a buffer is as long as its elements together. -/
theorem footprint_eq {p : Placement} (hv : p.isVarying = false) (h : p.footprint < 2 ^ 63) :
    p.footprint = p.elementWidth * p.elements := by
  have hsize : p.size = p.elementWidth := by
    have : ¬p.size < 0 := by simpa [isVarying] using hv
    unfold elementWidth
    omega
  have hfoot : p.footprint = countOfSize (p.elementWidth * sizeOfCount p.elements) := by
    simp [footprint, extent, hv, ← hsize]
  rw [hfoot] at h ⊢
  have hcount := coe_countOfSize h
  by_cases hn : 2 ^ 63 ≤ p.elements ∧ p.elements < 2 ^ 64
  · have hneg : sizeOfCount p.elements < 0 := by
      unfold sizeOfCount
      split <;> omega
    obtain hw | hw := Nat.eq_zero_or_pos p.elementWidth
    · simp [hw, countOfSize]
    · have := Int.mul_neg_of_pos_of_neg (Int.natCast_pos.2 hw) hneg
      omega
  · rw [sizeOfCount, if_neg hn, ← Int.natCast_mul] at hcount ⊢
    exact Int.natCast_inj.1 hcount

/-- First byte after the member.  The sum is exact; it is that of machine words as long as it is
below `2 ^ 64`. -/
def stop (p : Placement) : Nat := p.offset + p.footprint

/-- Characters a string of fixed width holds beside its terminator, otherwise the element
size. -/
def usableLength (p : Placement) : Int :=
  if p.storageClass = .string ∧ 0 < p.size then (p.size - 1) / p.charset.bytesPerChar else p.size

def viewKey (p : Placement) : ViewKey := ⟨p.storageClass, p.size, p.rank, p.meaning⟩

/-- View of the member under some overrides. -/
def view (p : Placement) (rules : ViewRules) : View := rules.resolve p.viewKey

/-- Same storage type: name, offset and nested types aside. -/
def sameType (p q : Placement) : Bool :=
  p.size == q.size && p.storageClass == q.storageClass && p.signed == q.signed &&
    p.dims == q.dims && p.charset == q.charset && p.meaning == q.meaning

/-- Class, usable length, extents and meaning. -/
def text (p : Placement) : String :=
  let n := p.elements
  let head := p.storageClass.text ++ "(" ++ toString p.usableLength
  let tail :=
    if n = 1 then ")"
    else if p.rank = 1 then ", #" ++ toString n ++ ")"
    else ", [" ++ ",".intercalate (p.dims.map toString) ++ "])"
  let meaning := match p.meaning with
    | some m => "/" ++ m.text
    | none => ""
  head ++ tail ++ meaning

end Placement

namespace Scalar

/-- The content lies on a heap. -/
def isVarying : Scalar → Bool
  | varyingText _ => true
  | varyingBytes => true
  | _ => false

/-- Codec and qualifier, as shown to a programmer. -/
def text : Scalar → String
  | bool => "Bool"
  | integer true => "Integer(signed)"
  | integer false => "Integer(unsigned)"
  | float => "Float"
  | fixedText charset => "FixedString(" ++ charset.name ++ ")"
  | varyingText charset => "VarString(" ++ charset.name ++ ")"
  | varyingBytes => "VarBytes"
  | enumeration table => "Enum(" ++ table.name ++ ")"
  | bitField => "BitField"
  | timestamp unit => "Timestamp(" ++ unit.name ++ ")"
  | duration unit => "Duration(" ++ unit.name ++ ")"
  | raw => "Opaque"

end Scalar

namespace Element

def isVarying : Element → Bool
  | scalar codec => codec.isVarying
  | record _ => false

def text : Element → String
  | scalar codec => codec.text
  | record schema => "Compound(" ++ schema.name ++ ")"

end Element

namespace Kind

/-- The member itself holds one handle; an array of fixed elements never does. -/
def isVarying : Kind → Bool
  | single element => element.isVarying
  | array _ => false

def text : Kind → String
  | single element => element.text
  | array element => "Array(" ++ element.text ++ ")"

end Kind

namespace Member

def name (m : Member) : String := m.placement.name

/-- Some field of the record receives the member. -/
def isMapped (m : Member) : Bool := m.binding.isBound

end Member

namespace Schema

/-- Number of members. -/
def length (s : Schema) : Nat := s.members.length

/-- Position of the member with a name. -/
def position? (s : Schema) (name : String) : Option Nat :=
  s.members.findIdx? fun m => m.name == name

/-- Member with a name. -/
def member? (s : Schema) (name : String) : Option Member :=
  s.members.find? fun m => m.name == name

end Schema

end PackedRecord
