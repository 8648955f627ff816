import PackedRecord.Time.Unit

/-!
# Points in time

A point in time counts whole seconds from 1970-01-01T00:00:00Z, downward before it, and
nanoseconds on from that second.  A leap second is held as nanoseconds from `10 ^ 9` on within
the second before it.  Calendar dates are proleptic Gregorian.
-/

namespace PackedRecord.Time

/-- A point in time with nanosecond resolution. -/
structure Instant where
  seconds : Int
  nanos : Nat
  deriving DecidableEq, Repr

/-- A calendar date. -/
structure Date where
  year : Int
  month : Nat
  day : Nat
  deriving DecidableEq, Repr

/-- Date of the day `days` after 1970-01-01.  Years are counted from March within eras of
400 years, so that the leap day ends a year and an era. -/
def Date.ofDays (days : Int) : Date :=
  let shifted := days + 719468
  let era := shifted / 146097
  let dayOfEra := (shifted % 146097).toNat
  let yearOfEra :=
    (dayOfEra - dayOfEra / 1460 + dayOfEra / 36524 - dayOfEra / 146096) / 365
  let dayOfYear := dayOfEra - (365 * yearOfEra + yearOfEra / 4 - yearOfEra / 100)
  let monthFromMarch := (5 * dayOfYear + 2) / 153
  let month := if monthFromMarch < 10 then monthFromMarch + 3 else monthFromMarch - 9
  { year := yearOfEra + era * 400 + (if month ≤ 2 then 1 else 0)
    month := month
    day := dayOfYear - (153 * monthFromMarch + 2) / 5 + 1 }

namespace Instant

/-- The start of the count. -/
def epoch : Instant := ⟨0, 0⟩

/-- Whole microseconds from the epoch, rounded down. -/
def micros (t : Instant) : Int := t.seconds * 1000000 + (t.nanos / 1000 : Nat)

/-- Whole milliseconds from the epoch, rounded down. -/
def millis (t : Instant) : Int := t.seconds * 1000 + (t.nanos / 1000000 : Nat)

/-- First second of the year -262143. -/
def firstSecond : Int := -8334601228800

/-- Last second of the year 262142. -/
def lastSecond : Int := 8210266876799

/-- The point `micros` microseconds after the epoch, if it lies in a representable year. -/
def ofMicros? (micros : Int) : Option Instant :=
  let seconds := micros / 1000000
  if firstSecond ≤ seconds ∧ seconds ≤ lastSecond then
    some ⟨seconds, (micros % 1000000).toNat * 1000⟩
  else none

/-- Decimal digits of `n`, at least `width` of them. -/
def padded (width n : Nat) : String :=
  let digits := Nat.toDigits 10 n
  String.ofList (List.replicate (width - digits.length) '0' ++ digits)

/-- A year of four digits, or a signed one outside of 0 to 9999. -/
def yearText (year : Int) : String :=
  if 0 ≤ year ∧ year ≤ 9999 then padded 4 year.toNat
  else (if year < 0 then "-" else "+") ++ padded 4 year.natAbs

/-- Fraction of a second in the fewest groups of three digits that hold it. -/
def fractionText (nanos : Nat) : String :=
  if nanos = 0 then ""
  else if nanos % 1000000 = 0 then "." ++ padded 3 (nanos / 1000000)
  else if nanos % 1000 = 0 then "." ++ padded 6 (nanos / 1000)
  else "." ++ padded 9 nanos

/-- Date and time of day with the offset of universal time (RFC 3339); a leap second is
second 60. -/
def text (t : Instant) : String :=
  let date := Date.ofDays (t.seconds / 86400)
  let clock := (t.seconds % 86400).toNat
  let leap := decide (1000000000 ≤ t.nanos)
  let second := clock % 60 + (if leap then 1 else 0)
  let nanos := if leap then t.nanos - 1000000000 else t.nanos
  yearText date.year ++ "-" ++ padded 2 date.month ++ "-" ++ padded 2 date.day ++ "T" ++
    padded 2 (clock / 3600) ++ ":" ++ padded 2 (clock / 60 % 60) ++ ":" ++ padded 2 second ++
    fractionText nanos ++ "+00:00"

end Instant

end PackedRecord.Time
