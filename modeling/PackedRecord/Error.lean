import PackedRecord.Handle
import PackedRecord.Layout.Class

/-!
# Errors

An error is its cause; the wording is in `Error.message` alone.  A conversion that does not
know the member it works for leaves the name empty, and `Error.forMember` fills it in.
-/

namespace PackedRecord

/-- Why the parts of a type contradict each other. -/
inductive Conflict where
  | repeatedField (name : String)
  | repeatedMember (name : String)
  | overlap (earlier later : String) (start : Nat)
  | sizeBelowExtent (size extent : Nat)
  | repeatedLabel (label : String)
  | repeatedCode (code : Int64)
  | divergentLayout
  | divergentDescription
  | allocatedSize (held requested : Nat)
  /-- A reason given by code outside of the library. -/
  | stated (reason : String)
  deriving DecidableEq, Repr

/-- Why a member cannot be laid out. -/
inductive LayoutFault where
  | zeroElement
  | excessiveRank
  | varyingWithDimensions
  | zeroExtent
  | varyingEnum
  | nestedSize
  | integerWidth (size : Nat)
  | floatWidth (size : Nat)
  | noBits
  | arrayElement
  | arrayRank (rank : Nat)
  | enumStorage (size : Nat)
  | enumWidth (size : Int)
  | cannotVary (storageClass : StorageClass)
  /-- A reason given by code outside of the library. -/
  | stated (reason : String)
  deriving DecidableEq, Repr

/-- Why a store refuses a request. -/
inductive StoreFault where
  | dangling (handle : Handle)
  | oversized (length : Nat)
  | unallocated (name : String)
  | uncatalogued (name : String)
  /-- A reason given by code outside of the library. -/
  | stated (reason : String)
  deriving DecidableEq, Repr

/-- Causes of failure. -/
inductive Error where
  | conflict (typeName : String) (cause : Conflict)
  | extents (member : String) (expected actual : List Nat)
  | textTooLong (member : String) (needed width : Nat)
  | incomplete (typeName : String) (members fields : List String)
  | misplacedMeaning (member : String) (meaning : Meaning) (storageClass : StorageClass)
  | kindMismatch (member expected actual : String)
  | unlistedLabel (member table value : String)
  | outOfRange (member : String) (width : Nat)
  | bufferSize (expected actual : Nat)
  | faultyLayout (member : String) (fault : LayoutFault)
  | noSuchField (name : String)
  | heapMissing (member : String)
  | store (fault : StoreFault)
  | cbor (reason : String)
  deriving DecidableEq, Repr

def Conflict.message : Conflict → String
  | repeatedField name => "field '" ++ name ++ "' is declared twice"
  | repeatedMember name => "member '" ++ name ++ "' is declared twice"
  | overlap earlier later start =>
    "members '" ++ earlier ++ "' and '" ++ later ++ "' overlap at byte " ++ toString start
  | sizeBelowExtent size extent =>
    "total size " ++ toString size ++ " is smaller than the member extent " ++ toString extent
  | repeatedLabel label => "duplicate enum value '" ++ label ++ "'"
  | repeatedCode code => "duplicate enum code " ++ toString code.toInt
  | divergentLayout => "a different layout is already registered under this name"
  | divergentDescription => "a different description is already registered"
  | allocatedSize held requested =>
    "allocated with " ++ toString held ++ " bytes per record, requested " ++ toString requested
  | stated reason => reason

def LayoutFault.message : LayoutFault → String
  | zeroElement => "element size is zero"
  | excessiveRank => "rank exceeds the supported maximum"
  | varyingWithDimensions => "variable-length members cannot have dimensions"
  | zeroExtent => "array with a zero extent"
  | varyingEnum => "enum members must have a fixed width"
  | nestedSize => "element size differs from the nested compound size"
  | integerWidth size => "unsupported integer width " ++ toString size
  | floatWidth size => "unsupported float width " ++ toString size
  | noBits => "bit field without bits"
  | arrayElement => "array elements must be fixed-size scalars"
  | arrayRank rank => "unsupported array rank " ++ toString rank
  | enumStorage size => "enum storage size " ++ toString size ++ " cannot hold all codes"
  | enumWidth size => "unsupported enum width " ++ toString size
  | cannotVary storageClass => storageClass.text ++ " cannot be variable-length"
  | stated reason => reason

def StoreFault.message : StoreFault → String
  | dangling handle => "dangling variable-length handle " ++ handle.inspect
  | oversized length => "variable-length value of " ++ toString length ++ " bytes"
  | unallocated name => "compound type '" ++ name ++ "' is not allocated"
  | uncatalogued name => "compound type '" ++ name ++ "' is not in the catalog"
  | stated reason => reason

/-- Names between braces. -/
def nameList (names : List String) : String :=
  "\x7b" ++ ",".intercalate names ++ "\x7d"

/-- Numbers between square brackets. -/
def numberList (numbers : List Nat) : String :=
  "[" ++ ", ".intercalate (numbers.map toString) ++ "]"

namespace Error

/-- The text of an error. -/
def message : Error → String
  | conflict typeName cause =>
    "schema conflict in compound type '" ++ typeName ++ "': " ++ cause.message
  | extents member expected actual =>
    "shape mismatch for member '" ++ member ++ "': expected " ++ numberList expected ++
      ", got " ++ numberList actual
  | textTooLong member needed width =>
    "string for member '" ++ member ++ "' needs " ++ toString needed ++
      " bytes, member width is " ++ toString width
  | incomplete typeName members fields =>
    "Incomplete mapping for compound type '" ++ typeName ++ "': " ++
      (if members.isEmpty then "" else "unmapped members: " ++ nameList members) ++
      (if members.isEmpty || fields.isEmpty then "" else ", ") ++
      (if fields.isEmpty then "" else "unmapped fields: " ++ nameList fields)
  | misplacedMeaning member meaning storageClass =>
    "variant " ++ meaning.text ++ " requires an INTEGER member, '" ++ member ++ "' is " ++
      storageClass.text
  | kindMismatch member expected actual =>
    "type mismatch for member '" ++ member ++ "': expected " ++ expected ++ ", got " ++ actual
  | unlistedLabel member table value =>
    "value " ++ value ++ " of member '" ++ member ++ "' has no entry in enum '" ++ table ++ "'"
  | outOfRange member width =>
    "value for member '" ++ member ++ "' does not fit into " ++ toString width ++ " bytes"
  | bufferSize expected actual =>
    "Invalid buffer length: expected " ++ toString expected ++ ", got " ++ toString actual
  | faultyLayout member fault =>
    "invalid layout for member '" ++ member ++ "': " ++ fault.message
  | noSuchField name => "Field not found: " ++ name
  | heapMissing member =>
    "member '" ++ member ++ "' is variable-length but no variable-length store was supplied"
  | store fault => "store error: " ++ fault.message
  | cbor reason => "CBOR error: " ++ reason

/-- Name the member in an error of a value conversion that left it open. -/
def forMember (name : String) : Error → Error
  | kindMismatch "" expected actual => kindMismatch name expected actual
  | outOfRange "" width => outOfRange name width
  | e => e

end Error

end PackedRecord
