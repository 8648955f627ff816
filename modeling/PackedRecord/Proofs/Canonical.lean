import PackedRecord.Codec.Record
import PackedRecord.Proofs.SortedMaps

/-!
# Canonical values

A raw record holds each value in one form, while a writer accepts several: a flag for an
integer, a shorter bit set, an unknown edition of an enum entry.  A value is canonical for a
codec if it is the one form that a reader would give back.

* `Scalar.Canonical`, `Element.Canonical`, `Kind.Canonical` — canonical values of one member.
* `Schema.Canonical` — canonical records: the keys are the names the schema reads, and every
  mapped member has a canonical value.
-/

namespace PackedRecord

/-! ## Points in time -/

namespace Time

/-- Length of one unit in nanoseconds. -/
def Unit.nanos (u : Unit) : Nat := u.micros * 1000

namespace Instant

/-- Nanoseconds from the epoch. -/
def fromEpoch (t : Instant) : Int := t.seconds * 1000000000 + t.nanos

/-- A point of a representable year, and no leap second. -/
structure Proper (t : Instant) : Prop where
  first : firstSecond ≤ t.seconds
  last : t.seconds ≤ lastSecond
  nanos : t.nanos < 1000000000

/-- The point lies a whole count of units after the epoch. -/
def IsAt (t : Instant) (unit : Unit) (count : Int64) : Prop :=
  t.Proper ∧ t.fromEpoch = count.toInt * unit.nanos

end Instant

end Time

/-! ## Enum entries -/

namespace EnumTable

/-- Labels and codes are paired and do not repeat. -/
structure Distinct (t : EnumTable) : Prop where
  paired : t.labels.length = t.codes.length
  labels : t.labels.Nodup
  codes : t.codes.Nodup

theorem distinct_of_firstRepetition : ∀ {pairs earlier : List (String × Int64)},
    firstRepetition earlier pairs = none →
    (∀ p ∈ pairs, ∀ e ∈ earlier, e.1 ≠ p.1 ∧ e.2 ≠ p.2) ∧
      (pairs.map Prod.fst).Nodup ∧ (pairs.map Prod.snd).Nodup
  | [], _, _ => by simp
  | (label, code) :: rest, earlier, h => by
    unfold firstRepetition at h
    split at h
    · cases h
    rename_i hlabel
    split at h
    · cases h
    rename_i hcode
    obtain ⟨hlater, hlabels, hcodes⟩ := distinct_of_firstRepetition h
    have hfirst : ∀ p ∈ rest, label ≠ p.1 ∧ code ≠ p.2 := fun p hp =>
      hlater p hp (label, code) (by simp)
    refine ⟨?_, ?_, ?_⟩
    · intro p hp e he
      rcases List.mem_cons.1 hp with rfl | hp
      · refine ⟨fun heq => hlabel ?_, fun heq => hcode ?_⟩
        · exact List.any_eq_true.2 ⟨e, he, by simp [heq]⟩
        · exact List.any_eq_true.2 ⟨e, he, by simp [heq]⟩
      · exact hlater p hp e (List.mem_append_left _ he)
    · refine List.nodup_cons.2 ⟨fun hmem => ?_, hlabels⟩
      obtain ⟨p, hp, heq⟩ := List.mem_map.1 hmem
      exact (hfirst p hp).1 heq.symm
    · refine List.nodup_cons.2 ⟨fun hmem => ?_, hcodes⟩
      obtain ⟨p, hp, heq⟩ := List.mem_map.1 hmem
      exact (hfirst p hp).2 heq.symm

/-- Every table made of labels with codes is distinct. -/
theorem distinct_of_ofCodes {name : String} {pairs : List (String × Int64)} {t : EnumTable}
    (h : ofCodes name pairs = .ok t) : t.Distinct := by
  unfold ofCodes at h
  split at h
  · cases h
  rename_i hnone
  cases h
  obtain ⟨-, hlabels, hcodes⟩ := distinct_of_firstRepetition hnone
  exact ⟨by simp, hlabels, hcodes⟩

/-- A choice that reads back: an entry of the table, or a code that the table lacks. -/
def Holds (t : EnumTable) (code : Int64) : Choice → Prop
  | .known ordinal label => ⟨ordinal, label, code⟩ ∈ t.entries
  | .unlisted c => c = code ∧ ∀ e ∈ t.entries, e.code ≠ code

end EnumTable

/-! ## Bit sets -/

/-- Number of a bit set, its words in base `2 ^ 64`. -/
def Codec.bitNumber : List UInt64 → Nat
  | [] => 0
  | w :: rest => w.toNat + 2 ^ 64 * bitNumber rest

/-! ## One element -/

/-- A text that a character set allows. -/
def Charset.Allows (charset : Charset) (s : String) : Prop :=
  charset = .ascii → Text.Utf8.isAscii s = true

/-- Canonical values of a codec at a width. -/
def Scalar.Canonical (width : Nat) : Scalar → Value → Prop
  | bool, v => ∃ b, v = .bool b
  | integer true, v => ∃ i : Int64, v = .number (.int i) ∧ Word.FitsSigned width i.toInt
  | integer false, v => ∃ n : UInt64, v = .number (.nat n) ∧ Word.FitsUnsigned width n.toNat
  | float, v => ∃ x : Double, v = .number (.float x) ∧ x.isNaN = false ∧
      (width = 4 → ∃ pattern, x = .ofSingle pattern)
  | fixedText charset, v => ∃ s : String, v = .text s ∧ '\x00' ∉ s.toList ∧ charset.Allows s ∧
      (Text.Utf8.encode s).length < width
  | varyingText charset, v => v = .null ∨
      ∃ s : String, v = .text s ∧ charset.Allows s ∧ (Text.Utf8.encode s).length < 2 ^ 32
  | varyingBytes, v => v = .null ∨ ∃ content, v = .bytes content ∧ content.length < 2 ^ 32
  | enumeration table, v => table.Distinct ∧ ∃ c code, v = .choice c ∧ table.Holds code c ∧
      EnumTable.codeFits table.isSigned width code = true
  | bitField, v => ∃ words, v = .bits words ∧ words.length = (width + 7) / 8 ∧
      Codec.bitNumber words < 256 ^ width
  | timestamp unit, v => ∃ count : Int64, Word.FitsSigned width count.toInt ∧
      ((∃ t : Time.Instant, v = .instant t ∧ t.IsAt unit count) ∨
        v = .number (.int count) ∧ ∀ t : Time.Instant, ¬t.IsAt unit count)
  | duration unit, v => ∃ count : Int64, v = .span ⟨count, unit⟩ ∧
      Word.FitsSigned width count.toInt
  | raw, v => ∃ content, v = .bytes content ∧ content.length = width

/-! ## Records -/

/-- The schema gives a record an entry for the member: it is mapped, or the schema is that of a
positional record, which has a place for every member. -/
def Member.isRead (positional : Bool) (m : Member) : Bool := m.isMapped || positional

mutual

/-- Canonical values of a member. -/
def Kind.Canonical (p : Placement) : Kind → Value → Prop
  | .single element, v => element.Canonical p.footprint v
  | .array element, v => ∃ elements, v = .array p.dims elements ∧
      elements.length = p.elements ∧ ∀ w ∈ elements, element.Canonical p.elementWidth w

/-- Canonical values of one element. -/
def Element.Canonical (width : Nat) : Element → Value → Prop
  | .scalar codec, v => codec.Canonical width v
  | .record schema, v => ∃ entries, v = .fields entries ∧ schema.Canonical entries

/-- Canonical records: a map whose keys are the names read, with a canonical value under the
name of each mapped member and null under that of any other. -/
def Schema.Canonical : Schema → Fields → Prop
  | ⟨_, members, outline, _, _⟩, r =>
    Assoc.Ascending r ∧
    (∀ key ∈ Assoc.keys r,
      ∃ m ∈ members, m.isRead (outline.kind == .positional) = true ∧ m.name = key) ∧
    CanonicalMembers (outline.kind == .positional) members r

/-- Each member that is read has a canonical value. -/
def CanonicalMembers (positional : Bool) : List Member → Fields → Prop
  | [], _ => True
  | ⟨p, kind, binding⟩ :: rest, r =>
    (if binding.isBound then ∃ v, Assoc.get? p.name r = some v ∧ kind.Canonical p v
      else positional = true → Assoc.get? p.name r = some .null) ∧
    CanonicalMembers positional rest r

end

end PackedRecord
