import PackedRecord.Assoc
import PackedRecord.Error

/-!
# Views of raw members

A view is the in-memory form that fits a raw member: what a reader gets to see of it.  The
default view depends on storage class, width, rank and meaning; `ViewRules` may override it
for an exact combination of the four.  A member whose view is unknown is read as raw bytes.
-/

namespace PackedRecord

/-- In-memory form of a member. -/
inductive View where
  | bool
  | integer (size : Nat)
  | float (size : Nat)
  | string
  | enumeration
  | bitField
  | timePoint
  | duration
  | bytes
  | compound
  | array (element : View) (rank : Nat)
  | unknown
  deriving DecidableEq, Repr

namespace View

/-- Typed access is possible. -/
def isKnown : View → Bool
  | unknown => false
  | array element _ => element.isKnown
  | _ => true

/-- Default view of one element. -/
def ofElement (storageClass : StorageClass) (size : Int) (meaning : Option Meaning) : View :=
  if meaning.isSome ∧ storageClass ≠ .integer then unknown
  else
    match storageClass with
    | .integer =>
      match meaning with
      | some (.timestamp _) => timePoint
      | some (.duration _) => duration
      | none => if size ∈ [1, 2, 4, 8] then integer size.toNat else unknown
    | .float => if size ∈ [4, 8] then float size.toNat else unknown
    | .string => string
    | .boolean => bool
    | .enumeration => enumeration
    | .bitField => if 0 < size then bitField else unknown
    | .raw => bytes
    | .compound => if 0 < size then compound else unknown
    | .array => unknown

/-- Default view of a member.  Elements of variable length cannot form an array. -/
def ofMember (storageClass : StorageClass) (size : Int) (rank : Nat)
    (meaning : Option Meaning) : View :=
  let element := ofElement storageClass size meaning
  if rank = 0 ∨ element = unknown then element
  else if size < 0 then unknown
  else array element rank

end View

/-- What an override applies to. -/
structure ViewKey where
  storageClass : StorageClass
  size : Int
  rank : Nat
  meaning : Option Meaning
  deriving DecidableEq, Repr

/-- Overrides, the latest first. -/
structure ViewRules where
  overrides : List (ViewKey × View) := []
  deriving Repr

namespace ViewRules

/-- Add an override; it replaces an earlier one for the same key. -/
def register (rules : ViewRules) (key : ViewKey) (view : View) : ViewRules :=
  ⟨(key, view) :: rules.overrides⟩

/-- An exact override wins, then the default view applies. -/
def resolve (rules : ViewRules) (key : ViewKey) : View :=
  (Assoc.get? key rules.overrides).getD
    (View.ofMember key.storageClass key.size key.rank key.meaning)

end ViewRules

/-- Only an integer can carry a temporal meaning. -/
def checkMeaning (member : String) (storageClass : StorageClass) (meaning : Option Meaning) :
    Except Error Unit :=
  match meaning with
  | some m =>
    if storageClass = .integer then .ok () else .error (.misplacedMeaning member m storageClass)
  | none => .ok ()

end PackedRecord
