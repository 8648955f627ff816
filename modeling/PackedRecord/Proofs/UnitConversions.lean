import PackedRecord.Proofs.Words
import PackedRecord.Time.Unit

/-!
# Conversions between units of time

Every unit divides all coarser ones.  So the one multiplication or division that a conversion
performs is the exact quotient of two lengths, truncated towards zero; what is said about chains
of conversions follows from that quotient alone.

* `Time.Unit.convert_eq` — a conversion is a truncated quotient, if that is a 64-bit number.
* `Time.Unit.convert_back`, `Time.Unit.convert_through`, `Time.Unit.convert_mono` — to a finer unit
  and back, through a unit in between, and the order of counts.
* `units_converted_exactly` — all of them.
-/

namespace PackedRecord

attribute [local instance] corePow

/-- Two truncated divisions in a row are one. -/
theorem tdiv_tdiv_of_nonneg (a : Int) {b : Int} (hb : 0 ≤ b) (c : Int) :
    (a.tdiv b).tdiv c = a.tdiv (b * c) := by
  -- Above zero truncation rounds down, and both sides change their sign with `a`.
  have habove : ∀ n : Int, 0 ≤ n → (n.tdiv b).tdiv c = n.tdiv (b * c) := by
    intro n hn
    rw [Int.tdiv_eq_ediv_of_nonneg hn, Int.tdiv_eq_ediv_of_nonneg (Int.ediv_nonneg hn hb),
      Int.tdiv_eq_ediv_of_nonneg hn, Int.ediv_ediv_of_nonneg hb]
  rcases Int.le_total 0 a with ha | ha
  · exact habove a ha
  · have hneg := habove (-a) (by omega)
    rwa [Int.neg_tdiv, Int.neg_tdiv, Int.neg_tdiv, Int.neg_inj] at hneg

/-- Truncated division keeps a number within its word. -/
theorem Word.FitsSigned.tdiv {n : Nat} {v b : Int} (h : Word.FitsSigned n v) (hb : 0 ≤ b) :
    Word.FitsSigned n (v.tdiv b) := by
  have hsize := Int.natAbs_tdiv_le_natAbs v b
  have habove : 0 ≤ v → 0 ≤ v.tdiv b := fun hv => Int.tdiv_nonneg hv hb
  have hbelow : 0 ≤ -v → 0 ≤ -v.tdiv b := fun hv => Int.neg_tdiv v b ▸ Int.tdiv_nonneg hv hb
  unfold Word.FitsSigned at h ⊢
  omega

namespace Time.Unit

theorem micros_pos (u : Unit) : 0 < u.micros := by cases u <;> decide

/-- A unit divides every unit that is no shorter. -/
theorem micros_dvd {fine coarse : Unit} (h : fine.micros ≤ coarse.micros) :
    fine.micros ∣ coarse.micros := by
  revert h
  cases fine <;> cases coarse <;> decide

/-- **A conversion is the quotient of two lengths, truncated towards zero.** -/
theorem convert_eq (target source : Unit) (count : Int64) :
    target.convert count source = int64? ((count.toInt * source.micros).tdiv target.micros) := by
  have htarget : (0 : Int) < target.micros := Int.natCast_pos.2 target.micros_pos
  have hsource : (0 : Int) < source.micros := Int.natCast_pos.2 source.micros_pos
  rw [convert]
  split
  · rename_i h
    obtain ⟨ratio, hratio⟩ := micros_dvd h
    rw [hratio, Nat.mul_div_cancel_left ratio target.micros_pos, Int.natCast_mul,
      Int.mul_left_comm, Int.mul_tdiv_cancel_left _ (Int.ne_of_gt htarget)]
  · rename_i h
    obtain ⟨ratio, hratio⟩ := micros_dvd (Nat.le_of_not_le h)
    rw [hratio, Nat.mul_div_cancel_left ratio source.micros_pos, Int.natCast_mul,
      Int.mul_comm source.micros, Int.mul_tdiv_mul_of_pos_left _ _ hsource]

variable {source middle target : Unit} {count result : Int64}

theorem convert_eq_some_iff : target.convert count source = some result ↔
    result.toInt = (count.toInt * source.micros).tdiv target.micros := by
  rw [convert_eq, int64?_eq_some_iff, eq_comm]

theorem convert_eq_none_iff : target.convert count source = none ↔
    ¬Word.FitsSigned 8 ((count.toInt * source.micros).tdiv target.micros) := by
  rw [convert_eq, int64?_eq_none_iff]

theorem convert_self (u : Unit) (count : Int64) : u.convert count u = some count := by
  have hpos : (0 : Int) < u.micros := Int.natCast_pos.2 u.micros_pos
  rw [convert_eq, Int.mul_tdiv_cancel _ (Int.ne_of_gt hpos), int64?_toInt]

/-- Microseconds are the finest unit. -/
theorem convert_to_micros (u : Unit) (count : Int64) :
    microseconds.convert count u = int64? (count.toInt * u.micros) := by
  rw [convert_eq, micros, Int.natCast_one, Int.tdiv_one]

theorem convert_from_micros (u : Unit) (count : Int64) :
    u.convert count microseconds = int64? (count.toInt.tdiv u.micros) := by
  rw [convert_eq, micros, Int.natCast_one, Int.mul_one]

/-- To a finer unit and back nothing is lost. -/
theorem convert_back (h : target.micros ≤ source.micros)
    (hr : target.convert count source = some result) :
    source.convert result target = some count := by
  have hsource : (0 : Int) < source.micros := Int.natCast_pos.2 source.micros_pos
  have hexact : (target.micros : Int) ∣ count.toInt * source.micros :=
    Int.dvd_trans (Int.natCast_dvd_natCast.2 (micros_dvd h)) (Int.dvd_mul_left _ _)
  rw [convert_eq_some_iff] at hr ⊢
  rw [hr, Int.tdiv_mul_cancel hexact, Int.mul_tdiv_cancel _ (Int.ne_of_gt hsource)]

/-- A conversion to a coarser unit never exceeds 64 bits. -/
theorem exists_convert (h : source.micros ≤ target.micros) (count : Int64) :
    ∃ result, target.convert count source = some result := by
  obtain ⟨ratio, hratio⟩ := micros_dvd h
  have hsource : (0 : Int) < source.micros := Int.natCast_pos.2 source.micros_pos
  have hquotient : (count.toInt * source.micros).tdiv target.micros = count.toInt.tdiv ratio := by
    rw [hratio, Int.natCast_mul, Int.mul_comm source.micros,
      Int.mul_tdiv_mul_of_pos_left _ _ hsource]
  have hcount : Word.FitsSigned 8 count.toInt := by
    refine Decidable.not_not.1 fun hnot => ?_
    rw [← int64?_eq_none_iff, int64?_toInt] at hnot
    cases hnot
  cases hresult : target.convert count source with
  | some result => exact ⟨result, rfl⟩
  | none =>
    rw [convert_eq_none_iff, hquotient] at hresult
    exact absurd (hcount.tdiv (Int.natCast_nonneg ratio)) hresult

/-- By way of a unit in between a count reaches a coarser one as it does directly. -/
theorem convert_through (hfine : source.micros ≤ middle.micros)
    (hcoarse : middle.micros ≤ target.micros) (count : Int64) :
    ((middle.convert count source).bind fun between => target.convert between middle) =
      target.convert count source := by
  obtain ⟨between, hbetween⟩ := exists_convert hfine count
  obtain ⟨ratio, hratio⟩ := micros_dvd hcoarse
  have hmiddle : (0 : Int) < middle.micros := Int.natCast_pos.2 middle.micros_pos
  have hquotient : (between.toInt * middle.micros).tdiv target.micros =
      (count.toInt * source.micros).tdiv target.micros := by
    rw [hratio, Int.natCast_mul, Int.mul_comm between.toInt,
      Int.mul_tdiv_mul_of_pos _ _ hmiddle, convert_eq_some_iff.1 hbetween,
      tdiv_tdiv_of_nonneg _ (Int.le_of_lt hmiddle)]
  rw [hbetween, Option.bind_some, convert_eq, hquotient, convert_eq]

theorem convert_mono {count' result' : Int64} (h : count ≤ count')
    (hr : target.convert count source = some result)
    (hr' : target.convert count' source = some result') : result ≤ result' := by
  have htarget : (0 : Int) < target.micros := Int.natCast_pos.2 target.micros_pos
  rw [convert_eq_some_iff] at hr hr'
  rw [Int64.le_iff_toInt_le] at h ⊢
  rw [hr, hr']
  exact Int.tdiv_le_tdiv htarget (Int.mul_le_mul_of_nonneg_right h (Int.natCast_nonneg _))

end Time.Unit

/-- A span in another unit is the same quotient of lengths. -/
theorem Time.Span.convertTo_eq_some_iff {s t : Time.Span} {target : Time.Unit} :
    s.convertTo target = some t ↔ t.unit = target ∧
      t.count.toInt = (s.count.toInt * s.unit.micros).tdiv target.micros := by
  obtain ⟨count, unit⟩ := t
  simp only [convertTo, Option.map_eq_some_iff, Time.Unit.convert_eq_some_iff, mk.injEq]
  constructor
  · rintro ⟨_, hquotient, rfl, rfl⟩
    exact ⟨rfl, hquotient⟩
  · rintro ⟨rfl, hquotient⟩
    exact ⟨count, hquotient, rfl, rfl⟩

/-- **Counts of units are converted exactly and truncated towards zero.**  A conversion gives the
exact quotient of the two lengths, truncated, and nothing exactly if that exceeds 64 bits; a span is
converted like its count.  So a count of a finer unit leads back, a unit in between makes no
difference on the way to a coarser one, and conversions keep the order of counts. -/
theorem units_converted_exactly (source target : Time.Unit) :
    (∀ count result : Int64, target.convert count source = some result ↔
      result.toInt = (count.toInt * source.micros).tdiv target.micros) ∧
    (∀ count : Int64, target.convert count source = none ↔
      ¬Word.FitsSigned 8 ((count.toInt * source.micros).tdiv target.micros)) ∧
    (∀ (count : Int64) (t : Time.Span), Time.Span.convertTo ⟨count, source⟩ target = some t ↔
      t.unit = target ∧ t.count.toInt = (count.toInt * source.micros).tdiv target.micros) ∧
    (target.micros ≤ source.micros → ∀ count result : Int64,
      target.convert count source = some result → source.convert result target = some count) ∧
    (∀ middle : Time.Unit, source.micros ≤ middle.micros → middle.micros ≤ target.micros →
      ∀ count : Int64,
        ((middle.convert count source).bind fun between => target.convert between middle) =
          target.convert count source) ∧
    ∀ count count' result result' : Int64, count ≤ count' →
      target.convert count source = some result → target.convert count' source = some result' →
      result ≤ result' := by
  refine ⟨?_, ?_, ?_, ?_, ?_, ?_⟩
  · intro count result
    exact Time.Unit.convert_eq_some_iff
  · intro count
    exact Time.Unit.convert_eq_none_iff
  · intro count t
    exact Time.Span.convertTo_eq_some_iff
  · intro hfine count result hr
    exact Time.Unit.convert_back hfine hr
  · intro middle hfine hcoarse count
    exact Time.Unit.convert_through hfine hcoarse count
  · intro count count' result result' hle hr hr'
    exact Time.Unit.convert_mono hle hr hr'

/-- Just under four seconds are three, on both sides of zero; the greatest count of days is none of
microseconds, and a day leads to its microseconds and back. -/
theorem units_converted_exactly_days :
    Time.Unit.seconds.convert 3999 .milliseconds = some 3 ∧
    Time.Unit.seconds.convert (-3999) .milliseconds = some (-3) ∧
    Time.Unit.microseconds.convert 9223372036854775807 .days = none ∧
    Time.Unit.days.convert 86400000000 .microseconds = some 1 := by
  obtain ⟨hseconds, -⟩ := units_converted_exactly .milliseconds .seconds
  obtain ⟨hmicros, hnone, -, hback, -⟩ := units_converted_exactly .days .microseconds
  refine ⟨(hseconds _ _).2 (by decide), (hseconds _ _).2 (by decide), (hnone _).2 (by decide), ?_⟩
  exact hback (by decide) 1 86400000000 ((hmicros _ _).2 (by decide))

end PackedRecord
