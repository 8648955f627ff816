import PackedRecord.Assoc
import PackedRecord.Schema.Basic

/-!
# Coverage of a mapping

Which members no field receives, and which declared fields no member supplies.  Both sets are
ascending and without repetition.
-/

namespace PackedRecord

/-- The ascending set of some names. -/
def nameSet (names : List String) : List String :=
  (Assoc.ofList (names.map fun n => (n, ()))).keys

/-- Names on one side of a mapping only. -/
structure Coverage where
  /-- Members that the shape ignores. -/
  members : List String
  /-- Fields that the layout does not supply. -/
  fields : List String
  deriving DecidableEq, Repr

/-- Nothing is left out on either side. -/
def Coverage.isComplete (c : Coverage) : Bool := c.members.isEmpty && c.fields.isEmpty

namespace Schema

/-- Names of the members bound to a declared field. -/
def suppliedFields (s : Schema) : List String :=
  (s.members.filter fun m => match m.binding with
    | .field _ => true
    | _ => false).map Member.name

/-- Names of the members that the record receives. -/
def mappedNames (s : Schema) : List String := (s.members.filter Member.isMapped).map Member.name

/-- What the mapping leaves out. -/
def coverage (s : Schema) : Coverage where
  members := (nameSet (s.members.map Member.name)).filter fun n => !s.mappedNames.contains n
  fields := (nameSet s.outline.fields).filter fun n => !s.suppliedFields.contains n

/-- Fails with both sets unless the mapping is complete. -/
def requireComplete (s : Schema) : Except Error Unit :=
  if s.coverage.isComplete then .ok ()
  else .error (.incomplete s.name s.coverage.members s.coverage.fields)

/-- Members of which the record receives nothing, in storage order. -/
def unmappedMembers (s : Schema) : List Member := s.members.filter fun m => !m.isMapped

/-- The mapping leaves something out. -/
def isMappingIncomplete (s : Schema) : Bool := !s.coverage.isComplete

/-- The record does not receive every member. -/
def isRecordIncomplete (s : Schema) : Bool := s.members.any fun m => !m.isMapped

/-- The layout does not supply every field. -/
def isLayoutIncomplete (s : Schema) : Bool := !s.coverage.fields.isEmpty

end Schema

end PackedRecord
