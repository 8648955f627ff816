import PackedRecord.Layout.Inference
import PackedRecord.Schema.Kind

/-!
# Building schemas

A `Blueprint` collects what a schema is built from: the shape of the records, optionally the
placements a type catalog states, and the settings.  `Blueprint.build` lays out the members,
checks each of them and their disjointness, and chooses codecs and bindings.
-/

namespace PackedRecord

namespace Placement

/-- A placement that can be used on its own. -/
def check (p : Placement) : Except Error Unit :=
  let fault (f : LayoutFault) : Except Error Unit := .error (.faultyLayout p.name f)
  match checkMeaning p.name p.storageClass p.meaning with
  | .error e => .error e
  | .ok () =>
    if p.size = 0 then fault .zeroElement
    else if maxRank < p.rank then fault .excessiveRank
    else if p.isArray && p.isVarying then fault .varyingWithDimensions
    else if p.isArray && p.elements == 0 then fault .zeroExtent
    else if p.storageClass = .enumeration ∧ p.isVarying then fault .varyingEnum
    else
      match p.nested with
      | some schema =>
        if p.storageClass = .compound ∧ sizeOfCount schema.totalSize ≠ p.size then
          fault .nestedSize
        else .ok ()
      | none => .ok ()

/-- Order by first byte, then by end, then by name. -/
def startsBefore (p q : Placement) : Bool :=
  if p.offset = q.offset then
    if p.stop = q.stop then decide (p.name ≤ q.name) else decide (p.stop < q.stop)
  else decide (p.offset < q.offset)

end Placement

/-- Highest end of some placements. -/
def extentOf (placements : List Placement) : Nat :=
  placements.foldl (fun extent p => max extent p.stop) 0

/-- Check placements one by one; a repeated name counts before the fault of its bearer. -/
def checkPlacements (typeName : String) : List String → List Placement → Except Error Unit
  | _, [] => .ok ()
  | earlier, p :: rest =>
    if earlier.contains p.name then .error (.conflict typeName (.repeatedMember p.name))
    else
      match p.check with
      | .error e => .error e
      | .ok () => checkPlacements typeName (p.name :: earlier) rest

/-- First of consecutive placements that starts before its predecessor ends. -/
def firstOverlap : List Placement → Option Conflict
  | p :: q :: rest =>
    if q.offset < p.stop then some (.overlap p.name q.name q.offset)
    else firstOverlap (q :: rest)
  | _ => none

/-- No two placements share a byte. -/
def checkDisjoint (typeName : String) (placements : List Placement) : Except Error Unit :=
  match firstOverlap (placements.mergeSort Placement.startsBefore) with
  | some cause => .error (.conflict typeName cause)
  | none => .ok ()

/-- Field of an outline that receives a member. -/
def Outline.bind (o : Outline) (name : String) : Binding :=
  if o.isOpen then .dynamic
  else
    match o.fields.findIdx? (· == name) with
    | some i => .field i
    | none => .unbound

/-- What a schema is built from. -/
structure Blueprint where
  shape : Shape
  /-- Name of the compound type; the type name of the shape if there is none. -/
  name : Option String := none
  /-- Stated placements; without them every declared field is laid out. -/
  placements : Option (List Placement) := none
  settings : Settings := {}
  rules : ViewRules := {}
  /-- With stated placements, lay out the fields they lack behind the last of them. -/
  inferMissing : Bool := false
  /-- Size of a record with its padding. -/
  totalSize : Option Nat := none

namespace Blueprint

/-- Name of a type that nothing names. -/
def anonymous : String := "<anonymous>"

/-- Name of the schema. -/
def typeName (b : Blueprint) : String :=
  match b.name with
  | some name => name
  | none => b.shape.typeName.getD anonymous

/-- Placements of all members. -/
def layOut (b : Blueprint) : Except Error (List Placement) :=
  match b.placements with
  | none => packFields b.settings 0 b.shape.fields
  | some stated =>
    if b.inferMissing then
      let missing := b.shape.fields.filter fun f => !stated.any fun p => p.name == f.name
      (packFields b.settings (extentOf stated) missing).map (stated ++ ·)
    else .ok stated

/-- Size of a record whose members end at `extent`. -/
def sizeFor (b : Blueprint) (extent : Nat) : Except Error Nat :=
  match b.totalSize with
  | some size =>
    if size < extent then .error (.conflict b.typeName (.sizeBelowExtent size extent)) else .ok size
  | none => .ok extent

/-- A placement with its codec and its binding. -/
def member (b : Blueprint) (p : Placement) : Except Error Member :=
  (Kind.ofPlacement b.rules b.settings p).map fun kind =>
    ⟨p, kind, b.shape.outline.bind p.name⟩

/-- Members of some placements, in order. -/
def members (b : Blueprint) : List Placement → Except Error (List Member)
  | [] => .ok []
  | p :: rest =>
    match b.member p with
    | .error e => .error e
    | .ok m => (members b rest).map (m :: ·)

/-- The schema, or what is wrong with the blueprint. -/
def build (b : Blueprint) : Except Error Schema := do
  if let some name := firstRepeated [] (b.shape.fields.map Field.name) then
    throw (.conflict b.typeName (.repeatedField name))
  let placements ← b.layOut
  checkPlacements b.typeName [] placements
  checkDisjoint b.typeName placements
  let size ← b.sizeFor (extentOf placements)
  let members ← b.members placements
  return ⟨b.typeName, members, b.shape.outline, size, b.settings⟩

end Blueprint

end PackedRecord
