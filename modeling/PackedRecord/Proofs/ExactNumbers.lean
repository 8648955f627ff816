import Mathlib.Algebra.Order.Ring.Rat
import Mathlib.Data.UInt
import Mathlib.Tactic.Linarith
import Mathlib.Tactic.NormNum
import Mathlib.Tactic.Positivity
import PackedRecord.Proofs.NativeFields

/-!
# Numbers are stored exactly or refused

An integer member, an integer view of a number and a native integer field take the numbers that
are integers of their range, whichever of the three kinds they have, and refuse all others.  There
is one double for signed and one for unsigned integers that is no integer of 64 bits and is taken
for the greatest of them: the double that is one more.

* `Number.value?` — what a number stands for, as a rational.
* `Double.toInt?_eq_some_iff` — a double is read as an integer exactly if it is equal to it.
* `Double.eq_ofQuotient` — there is no more than one double for a positive rational.
* `Number.TakenAs` — the integer that a number is taken for.
* `number_exact_or_refused` — views, members and native fields take it exactly if it is in range.
* `limit_taken` — the double of `2 ^ 63` is taken for a number it does not equal.
-/

namespace PackedRecord

attribute [local instance] corePow

open Floating

/-! ## What a number stands for -/

/-- The rational that a finite double stands for. -/
def Double.value? (x : Double) : Option ℚ :=
  match x.classify with
  | .finite negative significand exponent =>
    some ((if negative then -1 else 1) * (significand * 2 ^ exponent))
  | _ => none

/-- The rational that a number stands for. -/
def Number.value? : Number → Option ℚ
  | .int i => some i.toInt
  | .nat n => some n.toNat
  | .float x => x.value?

namespace Double

/-- A quotient is whole exactly if it is equal to an integer. -/
theorem whole_iff {num den : Nat} (hden : 0 < den) (negative : Bool) (i : Int) :
    (if num % den = 0 then
      some (if negative then -((num / den : Nat) : Int) else (num / den : Nat)) else none) =
        some i ↔
      (if negative then -1 else 1) * ((num : ℚ) / den) = i := by
  have hd : (den : ℚ) ≠ 0 := by exact_mod_cast hden.ne'
  by_cases hmod : num % den = 0
  · obtain ⟨k, rfl⟩ := Nat.dvd_of_mod_eq_zero hmod
    rw [if_pos hmod, Nat.mul_div_cancel_left k hden, Option.some.injEq, Nat.cast_mul,
      mul_div_cancel_left₀ _ hd]
    cases negative
    · simp only [Bool.false_eq_true, if_false, one_mul]
      exact_mod_cast Iff.rfl
    · simp only [if_true, neg_mul, one_mul]
      exact_mod_cast Iff.rfl
  · rw [if_neg hmod]
    refine iff_of_false (by simp) fun hq => hmod ?_
    -- The numerator would be a multiple of the denominator.
    have habs : (num : ℚ) / den = |(i : ℚ)| := by
      rw [← hq]
      have hnonneg : (0 : ℚ) ≤ (num : ℚ) / den := by positivity
      cases negative <;> simp [abs_of_nonneg hnonneg, abs_neg]
    have hnum : (num : ℚ) = (i.natAbs * den : Nat) := by
      rw [div_eq_iff hd] at habs
      rw [habs, Nat.cast_mul, Nat.cast_natAbs, Int.cast_abs]
    have hmul : num = i.natAbs * den := by exact_mod_cast hnum
    rw [hmul, Nat.mul_mod_left]

/-- **A double is read as an integer exactly if it is equal to it.** -/
theorem toInt?_eq_some_iff {x : Double} {i : Int} :
    x.toInt? = some i ↔ x.value? = some (i : ℚ) := by
  unfold toInt? value?
  cases x.classify with
  | finite negative significand exponent =>
    obtain ⟨hpos, hratio⟩ := quotient_ratio significand exponent
    dsimp only
    rw [whole_iff hpos, hratio, Option.some.injEq]
  | _ => simp

/-- A finite double has the pattern of its significand and exponent. -/
theorem classify_finite {x : Double} {negative : Bool} {s : Nat} {e : Int}
    (h : x.classify = .finite negative s e) : x.negative = negative ∧ double.Exact s e ∧
      double.pattern s e = x.magnitude ∧ x.magnitude < double.infinity := by
  obtain ⟨hexact, hpattern⟩ := Format.exact_decode double x.magnitude
  unfold classify at h
  split at h
  · cases h
  split at h
  · cases h
  rename_i hnan hinf
  cases h
  exact ⟨rfl, hexact, hpattern, by omega⟩

/-- **There is no more than one double for a positive rational.** -/
theorem eq_ofQuotient {x : Double} {num den : Nat} (hnum : 0 < num) (hden : 0 < den)
    (h : x.value? = some ((num : ℚ) / den)) : x = ofQuotient false num den := by
  have hq : (0 : ℚ) < (num : ℚ) / den := by positivity
  unfold value? at h
  cases hx : x.classify with
  | finite negative s e =>
    rw [hx] at h
    obtain ⟨hnegative, hexact, hpattern, hfin⟩ := classify_finite hx
    have hvalue : (if negative then -1 else 1) * ((s : ℚ) * 2 ^ e) = (num : ℚ) / den :=
      Option.some.inj h
    have hmag : (0 : ℚ) ≤ (s : ℚ) * 2 ^ e := by positivity
    obtain rfl : negative = false := by
      cases negative with
      | false => rfl
      | true =>
        rw [if_pos rfl] at hvalue
        linarith
    rw [if_neg Bool.false_ne_true, one_mul] at hvalue
    have hs : 0 < s := by
      refine Nat.pos_of_ne_zero fun hzero => hq.ne ?_
      rw [← hvalue, hzero, Nat.cast_zero, zero_mul]
    have hround : double.round num den = x.magnitude := by
      rw [Format.round_of_eq hden hs hexact hvalue.symm, hpattern, Nat.min_eq_left hfin.le]
    have hbits : x.bits.toNat = x.magnitude := by
      have hsmall : ¬double.signUnit ≤ x.bits.toNat := of_decide_eq_false hnegative
      exact (Nat.mod_eq_of_lt (Nat.not_le.1 hsmall)).symm
    rw [ofQuotient, hround, ofMagnitude, if_neg Bool.false_ne_true, Nat.zero_add, ← hbits,
      UInt64.ofNat_toNat]
  | _ =>
    rw [hx] at h
    cases h

end Double

/-! ## What a number is taken for -/

/-- One more than the greatest integer of 64 bits. -/
def wordEnd (signed : Bool) : Nat := if signed then 2 ^ 63 else 2 ^ 64

/-- A signed or unsigned word of some bytes can hold the number. -/
def Word.InRange (signed : Bool) (width : Nat) (k : Int) : Prop :=
  if signed then FitsSigned width k else 0 ≤ k ∧ FitsUnsigned width k.toNat

instance (signed : Bool) (width : Nat) (k : Int) : Decidable (Word.InRange signed width k) := by
  unfold Word.InRange
  infer_instance

namespace Number

/-- The double that is one more than the greatest integer of 64 bits. -/
def limit (signed : Bool) : Number := .float (.ofInt (wordEnd signed))

/-- The integer that a number is taken for: the one it is equal to, or the greatest one of 64 bits
if the number is the double that is one more. -/
def TakenAs (signed : Bool) (x : Number) (k : Int) : Prop :=
  x.value? = some (k : ℚ) ∨ x = limit signed ∧ k = wordEnd signed - 1

theorem toInt?_ofInt_wordEnd (signed : Bool) :
    (Double.ofInt (wordEnd signed)).toInt? = some (wordEnd signed : Int) := by
  cases signed <;> decide +kernel

/-- A double is the limit exactly if it is equal to it as a number. -/
theorem float_eq_limit_iff (signed : Bool) (y : Double) :
    .float y = limit signed ↔ y.toInt? = some (wordEnd signed : Int) := by
  constructor
  · intro h
    cases h
    exact toInt?_ofInt_wordEnd signed
  · intro h
    have hpos : 0 < wordEnd signed := by cases signed <;> decide
    have hvalue : y.value? = some ((wordEnd signed : ℚ) / (1 : Nat)) := by
      rw [Double.toInt?_eq_some_iff.1 h, Int.cast_natCast, Nat.cast_one, div_one]
    rw [Double.eq_ofQuotient hpos Nat.one_pos hvalue]
    rfl

/-- What a double is taken for is read off the integer it is equal to. -/
theorem float_takenAs_iff (signed : Bool) (y : Double) (k : Int) :
    (Number.float y).TakenAs signed k ↔ ∃ i, y.toInt? = some i ∧
      (i = k ∨ i = wordEnd signed ∧ k = wordEnd signed - 1) := by
  rw [TakenAs, float_eq_limit_iff]
  constructor
  · rintro (hvalue | ⟨hlimit, rfl⟩)
    · exact ⟨k, Double.toInt?_eq_some_iff.2 hvalue, .inl rfl⟩
    · exact ⟨_, hlimit, .inr ⟨rfl, rfl⟩⟩
  · rintro ⟨i, hi, rfl | ⟨rfl, rfl⟩⟩
    · exact .inl (Double.toInt?_eq_some_iff.1 hi)
    · exact .inr ⟨hi, rfl⟩

/-- An integer is taken for itself. -/
theorem takenAs_iff_of_value? {signed : Bool} {x : Number} {i k : Int} (hx : x ≠ limit signed)
    (hvalue : x.value? = some (i : ℚ)) : x.TakenAs signed k ↔ i = k := by
  rw [TakenAs, hvalue, Option.some.injEq, Int.cast_inj, or_iff_left fun h => hx h.1]

/-- **The signed view of a number is the integer it is taken for.** -/
theorem toInt?_eq_some_iff {x : Number} {k : Int64} :
    x.toInt? = some k ↔ x.TakenAs true k.toInt := by
  have hl := k.le_toInt
  have hu := k.toInt_lt
  cases x with
  | int i =>
    rw [takenAs_iff_of_value? (fun h => by cases h) rfl, toInt?, Option.some.injEq, Int64.toInt_inj]
  | nat n =>
    rw [takenAs_iff_of_value? (i := n.toNat) (fun h => by cases h) rfl, toInt?, int64?_eq_some_iff]
  | float y =>
    rw [float_takenAs_iff, toInt?]
    cases y.toInt? with
    | none => simp
    | some i =>
      simp only [Option.some.injEq, exists_eq_left', wordEnd, if_true]
      split
      · have hback : (Int64.ofInt (min i (2 ^ 63 - 1))).toInt = min i (2 ^ 63 - 1) :=
          Int64.toInt_ofInt_of_le (by omega) (by omega)
        rw [Option.some.injEq, ← Int64.toInt_inj, hback]
        omega
      · exact iff_of_false (Option.some_ne_none _).symm (by omega)

/-- **The unsigned view of a number is the integer it is taken for.** -/
theorem toNat?_eq_some_iff {x : Number} {k : UInt64} :
    x.toNat? = some k ↔ x.TakenAs false k.toNat := by
  have hk := k.toNat_lt
  cases x with
  | int i =>
    rw [takenAs_iff_of_value? (fun h => by cases h) rfl, toNat?, uint64?_eq_some_iff]
  | nat n =>
    rw [takenAs_iff_of_value? (i := n.toNat) (fun h => by cases h) rfl, toNat?, Option.some.injEq,
      ← UInt64.toNat_inj, Nat.cast_inj]
  | float y =>
    rw [float_takenAs_iff, toNat?]
    cases y.toInt? with
    | none => simp
    | some i =>
      simp only [Option.some.injEq, exists_eq_left', wordEnd, Bool.false_eq_true, if_false]
      split
      · have hback : (UInt64.ofNat (min i (2 ^ 64 - 1)).toNat).toNat =
            (min i (2 ^ 64 - 1)).toNat :=
          UInt64.toNat_ofNat_of_lt' (by change _ < 2 ^ 64; omega)
        rw [Option.some.injEq, ← UInt64.toNat_inj, hback]
        omega
      · exact iff_of_false (Option.some_ne_none _).symm (by omega)

end Number

/-! ## Ranges of words -/

namespace Word

/-- The greatest integer of 64 bits is beyond every narrower word. -/
theorem not_inRange_end {width : Nat} (hw : IsWordWidth width) (hn : width ≠ 8) (signed : Bool) :
    ¬InRange signed width (wordEnd signed - 1) := by
  unfold IsWordWidth at hw
  have hcases : width = 1 ∨ width = 2 ∨ width = 4 := by grind
  rcases hcases with rfl | rfl | rfl <;> cases signed <;> decide

end Word

namespace Number

variable {x : Number} {k : Int} {width : Nat}

/-- Below the greatest integer of 64 bits a number is only taken for what it is equal to. -/
theorem takenAs_iff_of_not_inRange_end {signed : Bool}
    (hend : ¬Word.InRange signed width (wordEnd signed - 1)) :
    x.TakenAs signed k ∧ Word.InRange signed width k ↔
      x.value? = some (k : ℚ) ∧ Word.InRange signed width k := by
  refine and_congr_left fun hk => or_iff_left ?_
  rintro ⟨-, rfl⟩
  exact hend hk

/-- The signed view of a number with a value that fits a word. -/
theorem exists_toInt?_iff (hw : width ≤ 8) :
    (∃ i : Int64, x.toInt? = some i ∧ Word.FitsSigned width i.toInt ∧ i.toInt = k) ↔
      x.TakenAs true k ∧ Word.InRange true width k := by
  constructor
  · rintro ⟨i, hi, hfits, rfl⟩
    exact ⟨toInt?_eq_some_iff.1 hi, hfits⟩
  · rintro ⟨htaken, hfits⟩
    have hback : (Int64.ofInt k).toInt = k := Word.FitsSigned.toInt_ofInt hfits hw
    exact ⟨Int64.ofInt k, toInt?_eq_some_iff.2 (by rwa [hback]), by rwa [hback], hback⟩

/-- The unsigned view of a number with a value that fits a word. -/
theorem exists_toNat?_iff (hw : width ≤ 8) :
    (∃ n : UInt64, x.toNat? = some n ∧ Word.FitsUnsigned width n.toNat ∧ (n.toNat : Int) = k) ↔
      x.TakenAs false k ∧ Word.InRange false width k := by
  constructor
  · rintro ⟨n, hn, hfits, rfl⟩
    exact ⟨toNat?_eq_some_iff.1 hn, Int.natCast_nonneg _, by rwa [Int.toNat_natCast]⟩
  · rintro ⟨htaken, hnonneg, hfits⟩
    have hback : ((UInt64.ofNat k.toNat).toNat : Int) = k := by
      rw [hfits.toNat_ofNat hw, Int.toNat_of_nonneg hnonneg]
    refine ⟨UInt64.ofNat k.toNat, toNat?_eq_some_iff.2 (by rwa [hback]), ?_, hback⟩
    rwa [hfits.toNat_ofNat hw]

end Number

/-! ## Integer members -/

namespace Codec

variable (name : String) (order : ByteOrder) {width : Nat} {x : Number}

/-- The window is read as a number that is equal to the integer. -/
def ReadsAs (signed : Bool) (window : Bytes) (k : Int) : Prop :=
  ∃ y : Number, readInteger order signed window = .number y ∧ y.value? = some (k : ℚ)

theorem readsAs_signed_iff {window : Bytes} {k : Int} :
    ReadsAs order true window k ↔ (signedWord order window).toInt = k := by
  simp [ReadsAs, readInteger, Number.value?]

theorem readsAs_unsigned_iff {window : Bytes} {k : Int} :
    ReadsAs order false window k ↔ ((unsignedWord order window).toNat : Int) = k := by
  have hcast : ((unsignedWord order window).toNat : ℚ) = (k : ℚ) ↔
      ((unsignedWord order window).toNat : Int) = k := by exact_mod_cast Iff.rfl
  simp [ReadsAs, readInteger, Number.value?, hcast]

/-- An integer that is viewed as a word and written if it fits: the window holds it. -/
theorem elim_ok_iff {ι : Type} {view : Option ι} {value : ι → Int} {fits : ι → Prop}
    {write : ι → Except Error Bytes} {e : Error} {word : Bytes → Int}
    (hkeeps : ∀ i, fits i → ∃ window, write i = .ok window ∧ window.length = width ∧
      word window = value i)
    (hrefuses : ∀ i, ¬fits i → write i = .error e) (k : Int) :
    (∃ window, view.elim (.error e) write = .ok window ∧ window.length = width ∧
        word window = k) ↔
      ∃ i, view = some i ∧ fits i ∧ value i = k := by
  cases view with
  | none => simp
  | some i =>
    simp only [Option.elim_some, Option.some.injEq, exists_eq_left']
    constructor
    · rintro ⟨window, hok, -, hread⟩
      by_cases hfits : fits i
      · obtain ⟨window', hok', -, hword⟩ := hkeeps i hfits
        cases hok.symm.trans hok'
        exact ⟨hfits, hword.symm.trans hread⟩
      · rw [hrefuses i hfits] at hok
        cases hok
    · rintro ⟨hfits, rfl⟩
      exact hkeeps i hfits

theorem writeInteger_signed : writeInteger name order width true (.number x) =
    x.toInt?.elim (.error (.outOfRange name width)) (writeSigned name order width) := by
  simp only [writeInteger, integerOf?, if_true]
  cases x.toInt? <;> rfl

theorem writeInteger_unsigned : writeInteger name order width false (.number x) =
    x.toNat?.elim (.error (.outOfRange name width)) (writeUnsigned name order width) := by
  simp only [writeInteger, integerOf?, Bool.false_eq_true, if_false]
  cases x.toNat? <;> rfl

/-- **A member takes a number exactly if it is taken for an integer of the member's range, and
reads as that integer.** -/
theorem writeInteger_ok_iff (hw : width ≤ 8) (signed : Bool) (k : Int) :
    (∃ window, writeInteger name order width signed (.number x) = .ok window ∧
        window.length = width ∧ ReadsAs order signed window k) ↔
      x.TakenAs signed k ∧ Word.InRange signed width k := by
  cases signed with
  | true =>
    simp only [← Number.exists_toInt?_iff hw, writeInteger_signed, readsAs_signed_iff]
    refine elim_ok_iff (fun i hfits => ?_) (fun i hfits => if_neg hfits) k
    obtain ⟨window, hok, hlen, hword⟩ := signed_keeps name order hfits
    exact ⟨window, hok, hlen, congrArg Int64.toInt hword⟩
  | false =>
    simp only [← Number.exists_toNat?_iff hw, writeInteger_unsigned, readsAs_unsigned_iff]
    refine elim_ok_iff (fun n hfits => ?_) (fun n hfits => if_neg hfits) k
    obtain ⟨window, hok, hlen, hword⟩ := unsigned_keeps name order hfits
    exact ⟨window, hok, hlen, by rw [hword]⟩

/-- Every other number is refused. -/
theorem writeInteger_refuses (signed : Bool)
    (h : ∀ k, x.TakenAs signed k → ¬Word.InRange signed width k) :
    writeInteger name order width signed (.number x) = .error (.outOfRange name width) := by
  cases signed with
  | true =>
    rw [writeInteger_signed]
    cases hi : x.toInt? with
    | none => rfl
    | some i => exact if_neg (h _ (Number.toInt?_eq_some_iff.1 hi))
  | false =>
    rw [writeInteger_unsigned]
    cases hn : x.toNat? with
    | none => rfl
    | some n =>
      refine if_neg fun hfits => h _ (Number.toNat?_eq_some_iff.1 hn) ?_
      exact ⟨Int.natCast_nonneg _, by rwa [Int.toNat_natCast]⟩

end Codec

/-! ## Native integer fields -/

namespace Native

variable {α : Type} {width : Nat} {x : Number} {a : α} (expected : String)

theorem takeSigned_number : takeSigned expected width (.number x) =
    match x.toInt? with
    | some i =>
      if Word.FitsSigned width i.toInt then .ok i.toInt else .error (.outOfRange "" width)
    | none => .error (mismatch expected (.number x)) := by
  have hview : Value.int? (.number x) = x.toInt? := rfl
  rw [takeSigned, take, hview]
  cases x.toInt? <;> rfl

theorem takeUnsigned_number : takeUnsigned expected width (.number x) =
    match x.toNat? with
    | some n =>
      if Word.FitsUnsigned width n.toNat then .ok n.toNat else .error (.outOfRange "" width)
    | none => .error (mismatch expected (.number x)) := by
  have hview : Value.nat? (.number x) = x.toNat? := rfl
  rw [takeUnsigned, take, hview]
  cases x.toNat? <;> rfl

/-- A signed field takes a number for the integer it then has. -/
theorem map_takeSigned_ok_iff (hw : width ≤ 8) {ofInt : Int → α} {toInt : α → Int}
    (hback : ∀ a, ofInt (toInt a) = a)
    (hof : ∀ i, Word.FitsSigned width i → toInt (ofInt i) = i) :
    (takeSigned expected width (.number x)).map ofInt = .ok a ↔
      x.TakenAs true (toInt a) ∧ Word.InRange true width (toInt a) := by
  rw [← Number.exists_toInt?_iff hw, takeSigned_number]
  cases x.toInt? with
  | none => simp [Except.map]
  | some i =>
    by_cases hi : Word.FitsSigned width i.toInt
    · simp only [hi, if_true, Except.map, Except.ok.injEq, Option.some.injEq, exists_eq_left',
        true_and]
      exact ⟨fun h => by rw [← h, hof _ hi], fun h => by rw [h, hback]⟩
    · simp [hi, Except.map]

/-- An unsigned field takes a number for the integer it then has. -/
theorem map_takeUnsigned_ok_iff (hw : width ≤ 8) {ofNat : Nat → α} {toNat : α → Nat}
    (hback : ∀ a, ofNat (toNat a) = a)
    (hof : ∀ n, Word.FitsUnsigned width n → toNat (ofNat n) = n) :
    (takeUnsigned expected width (.number x)).map ofNat = .ok a ↔
      x.TakenAs false (toNat a) ∧ Word.InRange false width (toNat a) := by
  rw [← Number.exists_toNat?_iff hw, takeUnsigned_number]
  cases x.toNat? with
  | none => simp [Except.map]
  | some n =>
    by_cases hn : Word.FitsUnsigned width n.toNat
    · simp only [hn, if_true, Except.map, Except.ok.injEq, Option.some.injEq, exists_eq_left',
        true_and, Nat.cast_inj]
      exact ⟨fun h => by rw [← h, hof _ hn], fun h => by rw [h, hback]⟩
    · simp [hn, Except.map]

/-- A native type takes the number for an integer exactly if they are equal. -/
def TakesExact (α : Type) [Native α] (toInt : α → Int) (x : Number) : Prop :=
  ∀ a : α, ofValue (.number x) = .ok a ↔ x.value? = some (toInt a : ℚ)

/-- A narrow signed type takes no number for another one. -/
theorem takesExact_of_signed [Native α] {ofInt : Int → α} {toInt : α → Int}
    (hw : IsWordWidth width) (hn : width ≠ 8)
    (h : ∀ v : Value, ofValue v = (takeSigned expected width v).map ofInt)
    (hfits : ∀ a, Word.FitsSigned width (toInt a)) (hback : ∀ a, ofInt (toInt a) = a)
    (hof : ∀ i, Word.FitsSigned width i → toInt (ofInt i) = i) : TakesExact α toInt x := by
  intro a
  rw [h, map_takeSigned_ok_iff expected hw.le_eight hback hof,
    Number.takenAs_iff_of_not_inRange_end (Word.not_inRange_end hw hn true),
    and_iff_left (show Word.InRange true width (toInt a) from hfits a)]

/-- A narrow unsigned type takes no number for another one. -/
theorem takesExact_of_unsigned [Native α] {ofNat : Nat → α} {toNat : α → Nat}
    (hw : IsWordWidth width) (hn : width ≠ 8)
    (h : ∀ v : Value, ofValue v = (takeUnsigned expected width v).map ofNat)
    (hfits : ∀ a, Word.FitsUnsigned width (toNat a)) (hback : ∀ a, ofNat (toNat a) = a)
    (hof : ∀ n, Word.FitsUnsigned width n → toNat (ofNat n) = n) :
    TakesExact α (fun a => toNat a) x := by
  intro a
  have hin : Word.InRange false width (toNat a) := ⟨Int.natCast_nonneg _, hfits a⟩
  rw [h, map_takeUnsigned_ok_iff expected hw.le_eight hback hof,
    Number.takenAs_iff_of_not_inRange_end (Word.not_inRange_end hw hn false), and_iff_left hin]

variable (x)

theorem takesExact_int8 : TakesExact Int8 Int8.toInt x :=
  takesExact_of_signed "i8" (by simp [IsWordWidth]) (by decide) (fun _ => rfl)
    Word.fitsSigned_int8 Int8.ofInt_toInt fun _ h =>
      Int8.toInt_ofInt_of_le (by have := h.1; omega) (by have := h.2; omega)

theorem takesExact_int16 : TakesExact Int16 Int16.toInt x :=
  takesExact_of_signed "i16" (by simp [IsWordWidth]) (by decide) (fun _ => rfl)
    Word.fitsSigned_int16 Int16.ofInt_toInt fun _ h =>
      Int16.toInt_ofInt_of_le (by have := h.1; omega) (by have := h.2; omega)

theorem takesExact_int32 : TakesExact Int32 Int32.toInt x :=
  takesExact_of_signed "i32" (by simp [IsWordWidth]) (by decide) (fun _ => rfl)
    Word.fitsSigned_int32 Int32.ofInt_toInt fun _ h =>
      Int32.toInt_ofInt_of_le (by have := h.1; omega) (by have := h.2; omega)

theorem takesExact_uint8 : TakesExact UInt8 (fun n => n.toNat) x :=
  takesExact_of_unsigned "u8" (by simp [IsWordWidth]) (by decide) (fun _ => rfl)
    Word.fitsUnsigned_uint8 (fun _ => UInt8.ofNat_toNat) fun _ => UInt8.toNat_ofNat_of_lt'

theorem takesExact_uint16 : TakesExact UInt16 (fun n => n.toNat) x :=
  takesExact_of_unsigned "u16" (by simp [IsWordWidth]) (by decide) (fun _ => rfl)
    Word.fitsUnsigned_uint16 (fun _ => UInt16.ofNat_toNat) fun _ => UInt16.toNat_ofNat_of_lt'

theorem takesExact_uint32 : TakesExact UInt32 (fun n => n.toNat) x :=
  takesExact_of_unsigned "u32" (by simp [IsWordWidth]) (by decide) (fun _ => rfl)
    Word.fitsUnsigned_uint32 (fun _ => UInt32.ofNat_toNat) fun _ => UInt32.toNat_ofNat_of_lt'

theorem ofValue_int64_iff (i : Int64) : ofValue (.number x) = .ok i ↔ x.TakenAs true i.toInt := by
  have hin : Word.InRange true 8 i.toInt := Word.fitsSigned_int64 i
  rw [← and_iff_left (a := x.TakenAs true i.toInt) hin]
  exact map_takeSigned_ok_iff "i64" le_rfl Int64.ofInt_toInt fun _ h => h.toInt_ofInt le_rfl

theorem ofValue_uint64_iff (n : UInt64) :
    ofValue (.number x) = .ok n ↔ x.TakenAs false n.toNat := by
  have hin : Word.InRange false 8 n.toNat :=
    ⟨Int.natCast_nonneg _, Word.fitsUnsigned_uint64 n⟩
  rw [← and_iff_left (a := x.TakenAs false n.toNat) hin]
  exact map_takeUnsigned_ok_iff "u64" le_rfl (fun _ => UInt64.ofNat_toNat)
    fun _ h => h.toNat_ofNat le_rfl

end Native

/-! ## Exact or refused -/

/-- **Numbers are stored exactly or refused.**  A number is viewed as the integer it is taken for,
an integer member takes it for that integer if the integer is in its range, reads back as it, and
refuses all other numbers; native integer types do the same.  A number is taken for the integer it
is equal to.  The one exception at either sign is the double that is one more than the greatest
integer of 64 bits, and only members and types of eight bytes can take it. -/
theorem number_exact_or_refused (x : Number) :
    (∀ k : Int64, x.toInt? = some k ↔ x.TakenAs true k.toInt) ∧
    (∀ k : UInt64, x.toNat? = some k ↔ x.TakenAs false k.toNat) ∧
    (∀ name order signed width, IsWordWidth width →
      (∀ k, (∃ window, Codec.writeInteger name order width signed (.number x) = .ok window ∧
          window.length = width ∧ Codec.ReadsAs order signed window k) ↔
        x.TakenAs signed k ∧ Word.InRange signed width k) ∧
      ((∀ k, x.TakenAs signed k → ¬Word.InRange signed width k) →
        Codec.writeInteger name order width signed (.number x) =
          .error (.outOfRange name width)) ∧
      (width ≠ 8 → ∀ k, x.TakenAs signed k ∧ Word.InRange signed width k ↔
        x.value? = some (k : ℚ) ∧ Word.InRange signed width k)) ∧
    (Native.TakesExact Int8 Int8.toInt x ∧ Native.TakesExact Int16 Int16.toInt x ∧
      Native.TakesExact Int32 Int32.toInt x ∧
      ∀ i : Int64, Native.ofValue (.number x) = .ok i ↔ x.TakenAs true i.toInt) ∧
    Native.TakesExact UInt8 (fun n => n.toNat) x ∧
      Native.TakesExact UInt16 (fun n => n.toNat) x ∧
      Native.TakesExact UInt32 (fun n => n.toNat) x ∧
      ∀ n : UInt64, Native.ofValue (.number x) = .ok n ↔ x.TakenAs false n.toNat :=
  ⟨fun _ => Number.toInt?_eq_some_iff, fun _ => Number.toNat?_eq_some_iff,
    fun name order signed _ hw =>
      ⟨Codec.writeInteger_ok_iff name order hw.le_eight signed,
        Codec.writeInteger_refuses name order signed,
        fun hn _ => Number.takenAs_iff_of_not_inRange_end (Word.not_inRange_end hw hn signed)⟩,
    ⟨Native.takesExact_int8 x, Native.takesExact_int16 x, Native.takesExact_int32 x,
      Native.ofValue_int64_iff x⟩,
    Native.takesExact_uint8 x, Native.takesExact_uint16 x, Native.takesExact_uint32 x,
    Native.ofValue_uint64_iff x⟩

/-- Three hundred is stored in two bytes and refused by one, as an integer or as a double.  The
double that is one more than the greatest integer is stored as that integer. -/
theorem number_exact_or_refused_hundreds : IsWordWidth 1 ∧ IsWordWidth 2 ∧ (2 : Nat) ≠ 8 ∧
    (∃ window, Codec.writeInteger "n" .little 2 true (.number (.int 300)) = .ok window ∧
      window.length = 2 ∧ Codec.ReadsAs .little true window 300) ∧
    (Number.int 300).value? = some 300 ∧
    Codec.writeInteger "n" .little 1 true (.number (.int 300)) = .error (.outOfRange "n" 1) ∧
    (∃ window, Codec.writeInteger "n" .little 2 true (.number (.float (.ofInt 300))) = .ok window ∧
      window.length = 2 ∧ Codec.ReadsAs .little true window 300) ∧
    Codec.writeInteger "n" .little 1 true (.number (.float (.ofInt 300))) =
      .error (.outOfRange "n" 1) ∧
    IsWordWidth 8 ∧
    ∃ window, Codec.writeInteger "n" .little 8 true (.number (Number.limit true)) = .ok window ∧
      window.length = 8 ∧ Codec.ReadsAs .little true window (2 ^ 63 - 1) := by
  have hone : IsWordWidth 1 := by simp [IsWordWidth]
  have htwo : IsWordWidth 2 := by simp [IsWordWidth]
  have height : IsWordWidth 8 := by simp [IsWordWidth]
  have hdouble : (Number.float (.ofInt 300)).value? = some ((300 : Int) : ℚ) := by
    have hwhole : (Double.ofInt 300).toInt? = some 300 := by decide +kernel
    exact Double.toInt?_eq_some_iff.1 hwhole
  have hnarrow : ∀ x : Number, x ≠ Number.limit true → x.value? = some ((300 : Int) : ℚ) →
      ∀ k, x.TakenAs true k → ¬Word.InRange true 1 k := by
    intro x hx hvalue k hk
    have hthree : (300 : Int) = k := (Number.takenAs_iff_of_value? hx hvalue).1 hk
    rw [← hthree]
    decide
  obtain ⟨-, -, hmember, -⟩ := number_exact_or_refused (.int 300)
  obtain ⟨-, -, hfloat, -⟩ := number_exact_or_refused (.float (.ofInt 300))
  obtain ⟨-, -, hlimit, -⟩ := number_exact_or_refused (Number.limit true)
  obtain ⟨hstored, -, hexact⟩ := hmember "n" .little true 2 htwo
  have hin : (Number.int 300).TakenAs true 300 ∧ Word.InRange true 2 300 := ⟨.inl rfl, by decide⟩
  have hvalue := ((hexact (by decide) 300).1 hin).1
  refine ⟨hone, htwo, by decide, (hstored 300).2 hin, hvalue, ?_, ?_, ?_, height, ?_⟩
  · exact (hmember "n" .little true 1 hone).2.1 (hnarrow _ (by decide) rfl)
  · exact ((hfloat "n" .little true 2 htwo).1 300).2 ⟨.inl hdouble, by decide⟩
  · exact (hfloat "n" .little true 1 hone).2.1 (hnarrow _ (by decide +kernel) hdouble)
  · exact ((hlimit "n" .little true 8 height).1 (2 ^ 63 - 1)).2 ⟨.inr ⟨rfl, rfl⟩, by decide⟩

/-- The double of `2 ^ 63` is taken for the integer before it, in views, in members and in native
fields, while the same number is refused as an integer. -/
theorem limit_taken :
    (Number.limit true).value? = some (2 ^ 63 : ℚ) ∧
    (Number.limit true).toInt? = some (Int64.ofInt (2 ^ 63 - 1)) ∧
    Codec.writeInteger "n" .little 8 true (.number (Number.limit true)) =
      .ok [255, 255, 255, 255, 255, 255, 255, 127] ∧
    Native.ofValue (.number (Number.limit true)) = .ok (Int64.ofInt (2 ^ 63 - 1)) ∧
    (Number.nat (2 ^ 63)).value? = some (2 ^ 63 : ℚ) ∧
    (Number.nat (2 ^ 63)).toInt? = none ∧
    Codec.writeInteger "n" .little 8 true (.number (.nat (2 ^ 63))) =
      .error (.outOfRange "n" 8) := by
  refine ⟨?_, by decide +kernel, by decide +kernel, by decide +kernel, ?_, by decide +kernel,
    by decide +kernel⟩
  · have hvalue := Double.toInt?_eq_some_iff.1 (Number.toInt?_ofInt_wordEnd true)
    rw [show (2 ^ 63 : ℚ) = ((wordEnd true : Int) : ℚ) by norm_num [wordEnd]]
    exact hvalue
  · have hnat : (2 ^ 63 : UInt64).toNat = 2 ^ 63 := by decide +kernel
    rw [Number.value?, hnat, Nat.cast_pow, Nat.cast_ofNat]

end PackedRecord
