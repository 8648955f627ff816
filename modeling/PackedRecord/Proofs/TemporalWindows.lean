import Mathlib.Order.Basic
import PackedRecord.Proofs.Canonical
import PackedRecord.Proofs.Layouts
import PackedRecord.Proofs.UnitConversions

/-!
# Windows of points in time and spans

A window holds a signed count of units.  It reads as the point in time that lies so many units from
the epoch if the calendar has one, and as the number otherwise; both are written back as the window.
A point in time that is given to a member is first rounded down to a microsecond and then towards
zero to a unit.  The two make one truncation but for the points less than a microsecond after a
whole count of units before the epoch.

* `Time.InCalendar` — microseconds from the epoch that lie in a representable year.
* `Codec.readTimestamp_instant_iff` — which point a window is read as.
* `temporal_windows_kept` — what windows are read as, and that they are written back.
* `Time.Instant.JustPast` — points less than a microsecond after a whole count of units.
* `Codec.writeTimestamp_instant` — the two roundings of a writer.
* `instants_truncated` — which count is stored for a point in time.
* `instant_rounded_away` — a point less than a second before the epoch is stored as one second.
-/

namespace PackedRecord

attribute [local instance] corePow

namespace Time

/-- Microseconds from the epoch to a point of a representable year. -/
def InCalendar (micros : Int) : Prop :=
  Instant.firstSecond * 1000000 ≤ micros ∧ micros < (Instant.lastSecond + 1) * 1000000

instance (micros : Int) : Decidable (InCalendar micros) := inferInstanceAs (Decidable (_ ∧ _))

/-- The calendar starts with a year and ends with one. -/
example : Date.ofDays (Instant.firstSecond / 86400) = ⟨-262143, 1, 1⟩ ∧
    Instant.firstSecond % 86400 = 0 ∧ Date.ofDays (Instant.lastSecond / 86400) = ⟨262142, 12, 31⟩ ∧
    Instant.lastSecond % 86400 = 86399 := by decide

theorem Unit.natCast_nanos (u : Unit) : (u.nanos : Int) = u.micros * 1000 := by
  rw [Unit.nanos, Int.natCast_mul]
  rfl

namespace Instant

theorem fromEpoch_of_ofMicros? {micros : Int} {t : Instant} (h : ofMicros? micros = some t) :
    t.Proper ∧ t.fromEpoch = micros * 1000 := by
  unfold ofMicros? at h
  dsimp only at h
  split at h
  · rename_i hrange
    cases h
    refine ⟨⟨hrange.1, hrange.2, ?_⟩, ?_⟩
    · dsimp only
      omega
    · simp only [fromEpoch]
      omega
  · cases h

/-- A proper point of whole microseconds is read from their count, which is a 64-bit one. -/
theorem Proper.ofMicros? {t : Instant} (ht : t.Proper) {micros : Int}
    (h : t.fromEpoch = micros * 1000) :
    t.micros = micros ∧ Instant.ofMicros? micros = some t ∧ ∃ n, int64? micros = some n := by
  obtain ⟨hfirst, hlast, hnanos⟩ := ht
  obtain ⟨seconds, nanos⟩ := t
  unfold firstSecond at hfirst
  unfold lastSecond at hlast
  simp only [fromEpoch] at h hfirst hlast hnanos
  refine ⟨?_, ?_, ?_⟩
  · simp only [Instant.micros]
    omega
  · have hseconds : micros / 1000000 = seconds := by omega
    have hrest : (micros % 1000000).toNat * 1000 = nanos := by omega
    simp only [Instant.ofMicros?, hseconds, hrest, firstSecond, lastSecond]
    exact if_pos ⟨hfirst, hlast⟩
  · exact ⟨_, if_pos (by omega)⟩

theorem ofMicros?_eq_some_iff {micros : Int} {t : Instant} :
    ofMicros? micros = some t ↔ t.Proper ∧ t.fromEpoch = micros * 1000 :=
  ⟨fromEpoch_of_ofMicros?, fun h => (h.1.ofMicros? h.2).2.1⟩

theorem exists_ofMicros?_iff {micros : Int} :
    (∃ t, ofMicros? micros = some t) ↔ InCalendar micros := by
  unfold ofMicros? InCalendar firstSecond lastSecond
  dsimp only
  split
  · exact iff_of_true ⟨_, rfl⟩ (by omega)
  · exact iff_of_false (by simp) (by omega)

/-- The point that is read from a count of units lies so many units from the epoch. -/
theorem ofCount?_eq_some_iff {unit : Unit} {count : Int64} {t : Instant} :
    ((Unit.microseconds.convert count unit).bind fun micros => ofMicros? micros.toInt) = some t ↔
      t.IsAt unit count := by
  rw [Unit.convert_to_micros, Option.bind_eq_some_iff, IsAt, Unit.natCast_nanos, ← Int.mul_assoc]
  constructor
  · rintro ⟨n, hn, ht⟩
    rw [← toInt_of_int64? hn]
    exact ofMicros?_eq_some_iff.1 ht
  · rintro ⟨hproper, hat⟩
    obtain ⟨-, ht, n, hn⟩ := hproper.ofMicros? hat
    exact ⟨n, hn, by rw [toInt_of_int64? hn, ht]⟩

end Instant

end Time

/-! ## Reading and writing back -/

namespace Codec

open Time

variable {order : ByteOrder} {unit : Time.Unit} {window : Bytes}

theorem toInt_signedWord (hw : window.length ≤ 8) :
    (signedWord order window).toInt = Word.readSigned order window :=
  (Word.fitsSigned_signedValue (Word.fitsUnsigned_read order window)).toInt_ofInt hw

theorem toNat_unsignedWord (hw : window.length ≤ 8) :
    (unsignedWord order window).toNat = Word.read order window :=
  (Word.fitsUnsigned_read order window).toNat_ofNat hw

/-- Writing the signed number of a window gives the window. -/
theorem writeSigned_signedWord (name : String) (hw : window.length ≤ 8) :
    writeSigned name order window.length (signedWord order window) = .ok window := by
  have hfits : Word.FitsSigned window.length (Word.readSigned order window) :=
    Word.fitsSigned_signedValue (Word.fitsUnsigned_read order window)
  rw [writeSigned, toInt_signedWord hw, if_pos hfits, Word.writeSigned_readSigned]

/-- **A window is read as the point that lies its count of units from the epoch.** -/
theorem readTimestamp_instant_iff {t : Instant} :
    readTimestamp order unit window = .instant t ↔ t.IsAt unit (signedWord order window) := by
  rw [← Instant.ofCount?_eq_some_iff, readTimestamp]
  split <;> simp [*]

/-- If there is no such point, a window is read as its count. -/
theorem readTimestamp_of_not_isAt (h : ∀ t : Instant, ¬t.IsAt unit (signedWord order window)) :
    readTimestamp order unit window = .number (.int (signedWord order window)) := by
  rw [readTimestamp]
  split
  · rename_i t ht
    exact absurd (Instant.ofCount?_eq_some_iff.1 ht) (h t)
  · rfl

/-- A point that lies a whole count of units after the epoch is written as the count. -/
theorem writeTimestamp_of_isAt {name : String} {width : Nat} {t : Instant} {count : Int64}
    (ht : t.IsAt unit count) : writeTimestamp name order width unit (.instant t) =
      writeSigned name order width count := by
  have hpos : (unit.micros : Int) ≠ 0 := by
    have := unit.micros_pos
    omega
  obtain ⟨hproper, hat⟩ := ht
  rw [Unit.natCast_nanos, ← Int.mul_assoc] at hat
  obtain ⟨htm, -, n, hn⟩ := hproper.ofMicros? hat
  simp only [writeTimestamp, writeCount, htm, hn, Option.bind_some, Unit.convert_from_micros,
    toInt_of_int64? hn, Int.mul_tdiv_cancel _ hpos, int64?_toInt]

/-- Whatever a window is read as, it is written as the count. -/
theorem writeTimestamp_readTimestamp (name : String) (width : Nat) :
    writeTimestamp name order width unit (readTimestamp order unit window) =
      writeSigned name order width (signedWord order window) := by
  by_cases h : ∃ t : Instant, t.IsAt unit (signedWord order window)
  · obtain ⟨t, ht⟩ := h
    rw [readTimestamp_instant_iff.2 ht, writeTimestamp_of_isAt ht]
  · rw [readTimestamp_of_not_isAt (not_exists.1 h)]
    rfl

theorem writeDuration_count (name : String) (width : Nat) (count : Int64) :
    writeDuration name order width unit (.span ⟨count, unit⟩) =
      writeSigned name order width count := by
  simp only [writeDuration, Span.convertTo, Unit.convert_self, Option.map_some, writeCount]

/-- There is a point so many units from the epoch exactly if the calendar has one there. -/
theorem exists_isAt_iff {count : Int64} :
    (∃ t : Instant, t.IsAt unit count) ↔
      Word.FitsSigned 8 (count.toInt * unit.micros) ∧ InCalendar (count.toInt * unit.micros) := by
  have hpoint : (∃ t : Instant, t.IsAt unit count) ↔ InCalendar (count.toInt * unit.micros) := by
    rw [← Instant.exists_ofMicros?_iff]
    simp only [Instant.ofMicros?_eq_some_iff, Instant.IsAt, Unit.natCast_nanos, Int.mul_assoc]
  rw [hpoint]
  refine ⟨fun h => ⟨?_, h⟩, fun h => h.2⟩
  -- The calendar ends long before the microseconds exceed 64 bits.
  unfold InCalendar Instant.firstSecond Instant.lastSecond at h
  constructor <;> omega

end Codec

/-- **Windows of points in time and of spans are read and written back without loss.**  A window of
a point in time is read as a point exactly if its count of units is one of 64 bits in microseconds
and lies in the calendar; the point is the one so many units from the epoch.  Every other window is
read as the number it holds.  Writing what was read gives the window back.  A window of a span is
read as so many units, and is written back too. -/
theorem temporal_windows_kept (name : String) (order : ByteOrder) (unit : Time.Unit)
    {window : Bytes} (hw : IsWordWidth window.length) :
    ∃ count : Int64, count.toInt = Word.readSigned order window ∧
      ((∃ t, Codec.readTimestamp order unit window = .instant t) ↔
        Word.FitsSigned 8 (count.toInt * unit.micros) ∧
          Time.InCalendar (count.toInt * unit.micros)) ∧
      (∀ t, Codec.readTimestamp order unit window = .instant t ↔
        t.Proper ∧ t.fromEpoch = count.toInt * unit.nanos) ∧
      ((∀ t, Codec.readTimestamp order unit window ≠ .instant t) →
        Codec.readTimestamp order unit window = .number (.int count)) ∧
      Codec.writeTimestamp name order window.length unit
        (Codec.readTimestamp order unit window) = .ok window ∧
      Codec.readDuration order unit window = .span ⟨count, unit⟩ ∧
      Codec.writeDuration name order window.length unit
        (Codec.readDuration order unit window) = .ok window := by
  have hback : Codec.writeSigned name order window.length (Codec.signedWord order window) =
      .ok window := Codec.writeSigned_signedWord name hw.le_eight
  refine ⟨Codec.signedWord order window, Codec.toInt_signedWord hw.le_eight, ?_, ?_, ?_, ?_, rfl,
    ?_⟩
  · simp only [Codec.readTimestamp_instant_iff]
    exact Codec.exists_isAt_iff
  · intro t
    exact Codec.readTimestamp_instant_iff
  · intro hnone
    apply Codec.readTimestamp_of_not_isAt
    intro t ht
    exact hnone t (Codec.readTimestamp_instant_iff.2 ht)
  · rw [Codec.writeTimestamp_readTimestamp, hback]
  · rw [Codec.readDuration, Codec.writeDuration_count, hback]

/-- Four bytes of ones are a day before the epoch, and the greatest count of eight bytes is no point
in time of any unit. -/
theorem temporal_windows_kept_days :
    (∃ t, Codec.readTimestamp .big .days (List.replicate 4 255) = .instant t ∧
      t.Proper ∧ t.fromEpoch = -86400000000000) ∧
    Codec.writeTimestamp "t" .big 4 .days
      (Codec.readTimestamp .big .days (List.replicate 4 255)) = .ok (List.replicate 4 255) ∧
    Codec.readTimestamp .big .microseconds (127 :: List.replicate 7 255) =
      .number (.int 9223372036854775807) ∧
    Codec.writeDuration "d" .big 4 .days
      (Codec.readDuration .big .days (List.replicate 4 255)) = .ok (List.replicate 4 255) := by
  have hfour : IsWordWidth (List.replicate 4 (255 : UInt8)).length := by simp [IsWordWidth]
  have height : IsWordWidth ((127 : UInt8) :: List.replicate 7 255).length := by simp [IsWordWidth]
  obtain ⟨count, hcount, hread, hpoint, -, hwrite, -, hspan⟩ :=
    temporal_windows_kept "t" .big .days hfour
  obtain ⟨most, hmost, hread', -, hnumber, -⟩ :=
    temporal_windows_kept "t" .big .microseconds height
  have hminus : count.toInt = -1 := hcount.trans (by decide)
  have hlast : most.toInt = 9223372036854775807 := hmost.trans (by decide)
  refine ⟨?_, hwrite, ?_, hspan⟩
  · obtain ⟨t, ht⟩ := hread.2 (by rw [hminus]; decide)
    refine ⟨t, ht, ((hpoint t).1 ht).1, ?_⟩
    rw [((hpoint t).1 ht).2, hminus]
    rfl
  · have hnone : ∀ t, Codec.readTimestamp .big .microseconds (127 :: List.replicate 7 255) ≠
        .instant t := by
      intro t ht
      have hcal := (hread'.1 ⟨t, ht⟩).2
      rw [hlast] at hcal
      exact absurd hcal (by decide)
    rw [hnumber hnone, ← Int64.ofInt_toInt most, hlast]
    rfl

/-! ## Truncation -/

/-- Up to zero a truncated quotient is the least number that is no smaller than the exact one. -/
theorem tdiv_eq_iff_of_nonpos {a b q : Int} (ha : a ≤ 0) (hb : 0 < b) :
    a.tdiv b = q ↔ (q - 1) * b < a ∧ a ≤ q * b := by
  have hneg : a.tdiv b = -(-a / b) := by
    rw [← Int.tdiv_eq_ediv_of_nonneg (by omega), Int.neg_tdiv, Int.neg_neg]
  rw [hneg, Int.neg_eq_comm, eq_comm, Int.ediv_eq_iff_of_pos hb, Int.neg_mul, Int.sub_mul,
    Int.one_mul]
  omega

namespace Time

namespace Instant

/-- The point lies less than a microsecond after a whole count of units before the epoch. -/
def JustPast (t : Instant) (unit : Unit) (count : Int) : Prop :=
  count < 0 ∧ count * unit.nanos < t.fromEpoch ∧ t.fromEpoch < count * unit.nanos + 1000

instance (t : Instant) (unit : Unit) (count : Int) : Decidable (t.JustPast unit count) :=
  inferInstanceAs (Decidable (_ ∧ _))

variable {t : Instant} {unit : Unit} {count : Int}

theorem Proper.micros_eq (ht : t.Proper) : t.micros = t.fromEpoch / 1000 := by
  have := ht.nanos
  unfold micros fromEpoch
  omega

/-- Every point of a representable year is a 64-bit count of microseconds. -/
theorem Proper.natAbs_micros_lt (ht : t.Proper) : t.micros.natAbs < 2 ^ 63 := by
  obtain ⟨hfirst, hlast, hnanos⟩ := ht
  unfold firstSecond at hfirst
  unfold lastSecond at hlast
  unfold micros
  omega

/-- Just past a whole count the two roundings end at that count, and one truncation at the next. -/
theorem JustPast.tdiv_eq (ht : t.Proper) (h : t.JustPast unit count) :
    t.micros.tdiv unit.micros = count ∧ t.fromEpoch.tdiv unit.nanos = count + 1 := by
  obtain ⟨hneg, hafter, hbefore⟩ := h
  have hpos : (0 : Int) < unit.micros := Int.natCast_pos.2 unit.micros_pos
  rw [Unit.natCast_nanos, ← Int.mul_assoc] at hafter hbefore
  have hmicros : t.micros = count * unit.micros := by
    rw [ht.micros_eq]
    omega
  have hbelow : count * (unit.micros : Int) < 0 := Int.mul_neg_of_neg_of_pos hneg hpos
  constructor
  · rw [hmicros, Int.mul_tdiv_cancel _ hpos.ne']
  · rw [Unit.natCast_nanos, tdiv_eq_iff_of_nonpos (by omega) (by omega),
      Int.add_sub_cancel, ← Int.mul_assoc, ← Int.mul_assoc, Int.add_mul, Int.one_mul]
    omega

/-- Everywhere else the two roundings are one truncation. -/
theorem Proper.tdiv_micros_eq (ht : t.Proper) (h : ∀ count, ¬t.JustPast unit count) :
    t.micros.tdiv unit.micros = t.fromEpoch.tdiv unit.nanos := by
  have hpos : (0 : Int) < unit.micros := Int.natCast_pos.2 unit.micros_pos
  rw [ht.micros_eq, Unit.natCast_nanos]
  rcases Int.le_total 0 t.fromEpoch with hge | hle
  · rw [Int.tdiv_eq_ediv_of_nonneg (by omega), Int.tdiv_eq_ediv_of_nonneg hge,
      Int.ediv_ediv_of_nonneg (by omega), Int.mul_comm]
  · -- Rounding down by less than a microsecond passes no whole count, or it would be just past one.
    rw [tdiv_eq_iff_of_nonpos (by omega) hpos]
    obtain ⟨hlow, hhigh⟩ := (tdiv_eq_iff_of_nonpos hle (by omega)).1
      (Eq.refl (t.fromEpoch.tdiv (unit.micros * 1000)))
    have hzero : t.fromEpoch.tdiv (unit.micros * 1000) ≤ 0 :=
      (Int.tdiv_le_tdiv (by omega) hle).trans_eq (Int.zero_tdiv _)
    have hfar := h (t.fromEpoch.tdiv (unit.micros * 1000) - 1)
    unfold JustPast at hfar
    rw [Unit.natCast_nanos] at hfar
    rw [← Int.mul_assoc] at hlow hhigh hfar
    omega

end Instant

end Time

namespace Codec

open Time

/-- **A point in time is rounded down to a microsecond, and then towards zero to a unit.** -/
theorem writeTimestamp_instant (name : String) (order : ByteOrder) (width : Nat)
    (unit : Time.Unit) {t : Instant} (ht : t.Proper) :
    writeTimestamp name order width unit (.instant t) =
      if Word.FitsSigned width (t.micros.tdiv unit.micros) then
        .ok (Word.writeSigned order width (t.micros.tdiv unit.micros))
      else .error (.outOfRange name width) := by
  have hlt := ht.natAbs_micros_lt
  have hle := Int.natAbs_tdiv_le_natAbs t.micros unit.micros
  have hmicros : int64? t.micros = some (Int64.ofInt t.micros) := if_pos (by omega)
  have hquotient : int64? (t.micros.tdiv unit.micros) =
      some (Int64.ofInt (t.micros.tdiv unit.micros)) := if_pos (by omega)
  have hcount := toInt_of_int64? hquotient
  simp only [writeTimestamp, hmicros, Option.bind_some, Unit.convert_from_micros,
    toInt_of_int64? hmicros, hquotient, writeCount, writeSigned, hcount]

/-- A count is stored in a window if it fits, and refused otherwise. -/
structure StoresCount (name : String) (order : ByteOrder) (width : Nat)
    (written : Except Error Bytes) (count : Int) : Prop where
  taken : (∃ window, written = .ok window) ↔ Word.FitsSigned width count
  held : ∀ window, written = .ok window →
    window.length = width ∧ Word.readSigned order window = count
  refused : ¬Word.FitsSigned width count → written = .error (.outOfRange name width)

theorem storesCount_writeSigned (name : String) (order : ByteOrder) (width : Nat) (count : Int) :
    StoresCount name order width
      (if Word.FitsSigned width count then .ok (Word.writeSigned order width count)
        else .error (.outOfRange name width)) count := by
  by_cases hfits : Word.FitsSigned width count
  · rw [if_pos hfits]
    refine ⟨iff_of_true ⟨_, rfl⟩ hfits, ?_, fun hnot => absurd hfits hnot⟩
    intro window hok
    cases hok
    exact ⟨Word.length_writeSigned .., Word.readSigned_writeSigned order hfits⟩
  · rw [if_neg hfits]
    exact ⟨iff_of_false (by simp) hfits, by simp, fun _ => rfl⟩

end Codec

/-- **Points in time are truncated towards zero, except for those just past a whole count.**  The
count that is stored for a point is its distance from the epoch in units, truncated towards zero,
unless the point lies less than a microsecond after a whole count of units before the epoch: then
that count is stored, which is one less. -/
theorem instants_truncated {t : Time.Instant} (ht : t.Proper) (name : String) (order : ByteOrder)
    (width : Nat) (unit : Time.Unit) :
    ((∀ count, ¬t.JustPast unit count) →
      Codec.StoresCount name order width (Codec.writeTimestamp name order width unit (.instant t))
        (t.fromEpoch.tdiv unit.nanos)) ∧
    ∀ count, t.JustPast unit count → t.fromEpoch.tdiv unit.nanos = count + 1 ∧
      Codec.StoresCount name order width (Codec.writeTimestamp name order width unit (.instant t))
        count := by
  have hstores := Codec.storesCount_writeSigned name order width (t.micros.tdiv unit.micros)
  rw [← Codec.writeTimestamp_instant name order width unit ht] at hstores
  constructor
  · intro hnone
    rwa [ht.tdiv_micros_eq hnone] at hstores
  · intro count hpast
    obtain ⟨htwo, hone⟩ := hpast.tdiv_eq ht
    rw [htwo] at hstores
    exact ⟨hone, hstores⟩

/-- Half a second before the epoch is no second before it, a nanosecond after one second before it
is one. -/
theorem instants_truncated_seconds :
    Time.Instant.Proper ⟨-1, 500000000⟩ ∧ Time.Instant.Proper ⟨-1, 1⟩ ∧
    Codec.StoresCount "t" .big 4
      (Codec.writeTimestamp "t" .big 4 .seconds (.instant ⟨-1, 500000000⟩)) 0 ∧
    Time.Instant.JustPast ⟨-1, 1⟩ .seconds (-1) ∧
    Codec.StoresCount "t" .big 4
      (Codec.writeTimestamp "t" .big 4 .seconds (.instant ⟨-1, 1⟩)) (-1) := by
  have hhalf : Time.Instant.Proper ⟨-1, 500000000⟩ := ⟨by decide, by decide, by decide⟩
  have hpast : Time.Instant.Proper ⟨-1, 1⟩ := ⟨by decide, by decide, by decide⟩
  have hnone : ∀ count, ¬Time.Instant.JustPast ⟨-1, 500000000⟩ .seconds count := by
    intro count h
    simp only [Time.Instant.JustPast, Time.Instant.fromEpoch, Time.Unit.nanos,
      Time.Unit.micros] at h
    omega
  have hjust : Time.Instant.JustPast ⟨-1, 1⟩ .seconds (-1) := by decide
  exact ⟨hhalf, hpast, (instants_truncated hhalf "t" .big 4 .seconds).1 hnone, hjust,
    ((instants_truncated hpast "t" .big 4 .seconds).2 (-1) hjust).2⟩

/-- A point less than a second before the epoch is stored as one second before it. -/
theorem instant_rounded_away :
    Time.Instant.Proper ⟨-1, 1⟩ ∧ Time.Instant.fromEpoch ⟨-1, 1⟩ = -999999999 ∧
    Int.tdiv (-999999999) Time.Unit.seconds.nanos = 0 ∧
    Codec.writeTimestamp "t" .little 8 .seconds (.instant ⟨-1, 1⟩) = .ok (List.replicate 8 255) ∧
    Word.readSigned .little (List.replicate 8 255) = -1 :=
  ⟨⟨by decide, by decide, by decide⟩, by decide, by decide, by decide +kernel, by decide⟩

end PackedRecord
