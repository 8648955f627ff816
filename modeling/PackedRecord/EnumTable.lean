import PackedRecord.Error
import PackedRecord.Value.Basic

/-!
# Enum tables

An enum table lists labels in order of their ordinals, each with the integer code that is
stored for it, and the width of the stored code.  A checked table has distinct labels and
distinct codes.  A table taken as it stands from a description may repeat them or list more
of one than of the other; the entries are then the pairs both lists supply, and of two entries
with one label or one code the later counts.
-/

namespace PackedRecord

/-- Labels with their codes. -/
structure EnumTable where
  name : String
  labels : List String
  codes : List Int64
  /-- Bytes of a stored code. -/
  width : Nat
  deriving DecidableEq, Repr

/-- An entry of a table. -/
structure EnumTable.Entry where
  ordinal : Nat
  label : String
  code : Int64
  deriving DecidableEq, Repr

namespace EnumTable

/-- The code fits an integer of `width` bytes, unsigned unless some code is negative. -/
def codeFits (signed : Bool) (width : Nat) (code : Int64) : Bool :=
  if signed then decide (Word.FitsSigned width code.toInt)
  else decide (0 ≤ code.toInt ∧ Word.FitsUnsigned width code.toInt.toNat)

/-- Some code is negative, so codes are stored in two's complement. -/
def anyNegative (codes : List Int64) : Bool := codes.any fun c => decide (c.toInt < 0)

/-- Least of 1, 2, 4 and 8 bytes that holds every code. -/
def leastWidth (codes : List Int64) : Nat :=
  ([1, 2, 4].find? fun w => codes.all (codeFits (anyNegative codes) w)).getD 8

/-- The first label or code that an earlier entry has, the label checked before the code. -/
def firstRepetition : List (String × Int64) → List (String × Int64) → Option Conflict
  | _, [] => none
  | earlier, (label, code) :: rest =>
    if earlier.any fun e => e.1 == label then some (.repeatedLabel label)
    else if earlier.any fun e => e.2 == code then some (.repeatedCode code)
    else firstRepetition (earlier ++ [(label, code)]) rest

/-- Table of labels with explicit codes. -/
def ofCodes (name : String) (pairs : List (String × Int64)) : Except Error EnumTable :=
  match firstRepetition [] pairs with
  | some cause => .error (.conflict name cause)
  | none =>
    let codes := pairs.map Prod.snd
    .ok ⟨name, pairs.map Prod.fst, codes, leastWidth codes⟩

/-- Table whose codes are the ordinals. -/
def ofLabels (name : String) (labels : List String) : Except Error EnumTable :=
  ofCodes name (labels.mapIdx fun ordinal label => (label, Int64.ofNat ordinal))

/-- The same table with another width, if every code fits it. -/
def withWidth (t : EnumTable) (width : Nat) : Except Error EnumTable :=
  if [1, 2, 4, 8].contains width && decide (leastWidth t.codes ≤ width) then
    .ok { t with width := width }
  else .error (.faultyLayout t.name (.enumStorage width))

/-- Codes are stored in two's complement. -/
def isSigned (t : EnumTable) : Bool := anyNegative t.codes

/-- Entries in order. -/
def entries (t : EnumTable) : List Entry :=
  (t.labels.zip t.codes).mapIdx fun ordinal (label, code) => ⟨ordinal, label, code⟩

/-- The entry with a label. -/
def entryOfLabel? (t : EnumTable) (label : String) : Option Entry :=
  t.entries.reverse.find? fun e => e.label == label

/-- The entry with a code. -/
def entryOfCode? (t : EnumTable) (code : Int64) : Option Entry :=
  t.entries.reverse.find? fun e => e.code == code

/-- Choice at a position of the label list. -/
def choiceAt? (t : EnumTable) (ordinal : Nat) : Option Choice :=
  t.labels[ordinal]?.map (.known ordinal)

/-- Choice with a label. -/
def choiceOf? (t : EnumTable) (label : String) : Option Choice :=
  (t.entryOfLabel? label).map fun e => .known e.ordinal e.label

/-- Choice a stored code stands for. -/
def read (t : EnumTable) (code : Int64) : Choice :=
  match t.entryOfCode? code with
  | some e => .known e.ordinal e.label
  | none => .unlisted code

/-- Code to store for a value.  A known choice counts by its label, so that it may come from
another edition of the table; a text is a label, a number an ordinal. -/
def code? (t : EnumTable) : Value → Option Int64
  | .choice (.known _ label) => (t.entryOfLabel? label).map Entry.code
  | .choice (.unlisted code) => some code
  | .text label => (t.entryOfLabel? label).map Entry.code
  | .number n => n.toNat?.bind fun ordinal => t.codes[ordinal.toNat]?
  | _ => none

end EnumTable

end PackedRecord
