import PackedRecord.Power
import PackedRecord.Time.Unit

/-!
# Storage classes and their qualifiers

The raw class of a member as a type catalog reports it, the character set of strings, the
temporal meaning an integer may carry, and the settings a schema is built with.
-/

namespace PackedRecord

attribute [local instance] corePow

/-- Raw class of a member. -/
inductive StorageClass where
  | integer
  | float
  | string
  | boolean
  | enumeration
  | bitField
  | raw
  | compound
  | array
  deriving DecidableEq, Repr

namespace StorageClass

def all : List StorageClass :=
  [integer, float, string, boolean, enumeration, bitField, raw, compound, array]

def name : StorageClass → String
  | integer => "Integer"
  | float => "Float"
  | string => "String"
  | boolean => "Boolean"
  | enumeration => "Enum"
  | bitField => "BitField"
  | raw => "Opaque"
  | compound => "Compound"
  | array => "Array"

/-- Name in capitals. -/
def text (c : StorageClass) : String := c.name.toUpper

end StorageClass

/-- Character set of a string member. -/
inductive Charset where
  | ascii
  | utf8
  deriving DecidableEq, Repr

namespace Charset

def all : List Charset := [ascii, utf8]

def name : Charset → String
  | ascii => "Ascii"
  | utf8 => "Utf8"

/-- Bytes set aside per character when a width is derived from a length. -/
def bytesPerChar : Charset → Nat
  | ascii => 1
  | utf8 => 2

/-- Bytes of a string of some length, with its terminator.  Widths are words of 64 bits and wrap
around, as in a build that does not check for overflow. -/
def widthOf (charset : Charset) (length : Nat) : Nat :=
  (length * charset.bytesPerChar + 1) % 2 ^ 64

/-- Where the product and the sum fit a word, the width is exact. -/
theorem widthOf_of_lt {charset : Charset} {length : Nat}
    (h : length * charset.bytesPerChar + 1 < 2 ^ 64) :
    charset.widthOf length = length * charset.bytesPerChar + 1 := Nat.mod_eq_of_lt h

theorem widthOf_le (charset : Charset) (length : Nat) :
    charset.widthOf length ≤ length * charset.bytesPerChar + 1 := Nat.mod_le ..

end Charset

namespace ByteOrder

def all : List ByteOrder := [little, big]

def name : ByteOrder → String
  | little => "Little"
  | big => "Big"

end ByteOrder

/-- What the count held by an integer member means: units from the epoch to a point in time,
or units of a span. -/
inductive Meaning where
  | timestamp (unit : Time.Unit)
  | duration (unit : Time.Unit)
  deriving DecidableEq, Repr

namespace Meaning

def isTimestamp : Meaning → Bool
  | timestamp _ => true
  | duration _ => false

def isDuration : Meaning → Bool
  | timestamp _ => false
  | duration _ => true

def unit : Meaning → Time.Unit
  | timestamp u => u
  | duration u => u

/-- Name of the type of such a member. -/
def text : Meaning → String
  | timestamp u => "TIMESTAMP_" ++ u.text ++ "_SINCE_START_OF_THE_EPOCH"
  | duration u => "TIME_DURATION_" ++ u.text

/-- Constructor and unit, as shown to a programmer. -/
def inspect : Meaning → String
  | timestamp u => "Timestamp(" ++ u.name ++ ")"
  | duration u => "Duration(" ++ u.name ++ ")"

end Meaning

/-- What a schema fixes for all of its members. -/
structure Settings where
  /-- Byte order of the numbers. -/
  byteOrder : ByteOrder := .little
  /-- Unit of inferred timestamps that name none. -/
  timeUnit : Time.Unit := .milliseconds
  /-- Character set of inferred strings that name none. -/
  charset : Charset := .ascii
  deriving DecidableEq, Repr

end PackedRecord
