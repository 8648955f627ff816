import PackedRecord.Word

/-!
# Units of time

Every unit is a whole number of microseconds and divides the next coarser one, so a count is
converted by one exact multiplication or one division that truncates towards zero.
-/

namespace PackedRecord.Time

/-- Units, finest first. -/
inductive Unit where
  | microseconds
  | milliseconds
  | seconds
  | minutes
  | hours
  | days
  deriving DecidableEq, Repr

namespace Unit

/-- All units, finest first. -/
def all : List Unit := [microseconds, milliseconds, seconds, minutes, hours, days]

/-- Length of one unit in microseconds. -/
def micros : Unit → Nat
  | microseconds => 1
  | milliseconds => 1000
  | seconds => 1000000
  | minutes => 60000000
  | hours => 3600000000
  | days => 86400000000

/-- Units are ordered by length. -/
instance : Ord Unit := ⟨fun a b => compare a.micros b.micros⟩

/-- Express a count of `source` units in `target` units, truncating towards zero; nothing if
the result exceeds 64 bits. -/
def convert (target : Unit) (count : Int64) (source : Unit) : Option Int64 :=
  if target.micros ≤ source.micros then
    int64? (count.toInt * (source.micros / target.micros : Nat))
  else
    int64? (count.toInt.tdiv (target.micros / source.micros : Nat))

def abbreviation : Unit → String
  | microseconds => "us"
  | milliseconds => "ms"
  | seconds => "s"
  | minutes => "min"
  | hours => "h"
  | days => "d"

/-- Capitalised name. -/
def name : Unit → String
  | microseconds => "Microseconds"
  | milliseconds => "Milliseconds"
  | seconds => "Seconds"
  | minutes => "Minutes"
  | hours => "Hours"
  | days => "Days"

/-- Name in capitals. -/
def text (u : Unit) : String := u.name.toUpper

end Unit

/-- A count of units. -/
structure Span where
  count : Int64
  unit : Unit
  deriving DecidableEq, Repr

namespace Span

/-- The same span in another unit, truncated towards zero. -/
def convertTo (s : Span) (target : Unit) : Option Span :=
  (target.convert s.count s.unit).map (⟨·, target⟩)

/-- Count and abbreviation. -/
def text (s : Span) : String := s!"{s.count.toInt} {s.unit.abbreviation}"

end Span

end PackedRecord.Time
