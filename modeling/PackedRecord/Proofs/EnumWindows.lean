import PackedRecord.Proofs.CanonicalForms
import PackedRecord.Proofs.Layouts
import PackedRecord.Proofs.StoredCodes

/-!
# Windows of an enum

A table with a negative code reads and writes its windows as signed numbers, any other table as
unsigned ones.  Codes are signed numbers of 64 bits: a window of eight bytes may hold an unsigned
number that is none of them.  It reads as an unlisted code below zero, and that is refused where
codes are unsigned.

* `EnumTable.Made` — tables as they are made; `EnumTable.held` — the number a window holds.
* `Codec.writeCode_readCode` — writing the code that was read.
* `every_window_chosen` — a window reads as an entry exactly if it holds the entry's code, as an
  unlisted code otherwise, and writing what was read gives the window back except for unsigned
  numbers of `2 ^ 63` and more.
* `unlisted_code_refused` — such a number is read and cannot be written.
-/

namespace PackedRecord

attribute [local instance] corePow

namespace EnumTable

/-- Tables made from labels with codes, or from labels whose codes are their ordinals, and the
same tables with another width. -/
inductive Made : List (String × Int64) → EnumTable → Prop where
  | codes {name : String} {pairs : List (String × Int64)} {t : EnumTable}
    (h : ofCodes name pairs = .ok t) : Made pairs t
  | labels {name : String} {labels : List String} {t : EnumTable}
    (h : ofLabels name labels = .ok t) :
    Made (labels.mapIdx fun ordinal label => (label, Int64.ofNat ordinal)) t
  | width {pairs : List (String × Int64)} {t t' : EnumTable} {width : Nat} (h : Made pairs t)
    (hw : t.withWidth width = .ok t') : Made pairs t'

/-- The number a window holds for a table. -/
def held (t : EnumTable) (order : ByteOrder) (window : Bytes) : Int :=
  if t.isSigned then Word.readSigned order window else Word.read order window

theorem ofCodes_eq {name : String} {pairs : List (String × Int64)} {t : EnumTable}
    (h : ofCodes name pairs = .ok t) :
    t.labels = pairs.map Prod.fst ∧ t.codes = pairs.map Prod.snd := by
  unfold ofCodes at h
  split at h
  · cases h
  · cases h
    exact ⟨rfl, rfl⟩

theorem withWidth_eq {t t' : EnumTable} {width : Nat} (h : t.withWidth width = .ok t') :
    t' = { t with width := width } := by
  unfold withWidth at h
  split at h <;> cases h
  rfl

namespace Made

variable {pairs : List (String × Int64)} {t : EnumTable}

theorem lists (h : Made pairs t) :
    t.labels = pairs.map Prod.fst ∧ t.codes = pairs.map Prod.snd := by
  induction h with
  | codes h => exact ofCodes_eq h
  | labels h => exact ofCodes_eq h
  | width _ hw ih =>
    rw [withWidth_eq hw]
    exact ih

theorem distinct (h : Made pairs t) : t.Distinct := by
  induction h with
  | codes h => exact distinct_of_ofCodes h
  | labels h => exact distinct_of_ofCodes h
  | width _ hw ih =>
    rw [withWidth_eq hw]
    exact ⟨ih.paired, ih.labels, ih.codes⟩

/-- The entries are the pairs the table was made from. -/
theorem mem_entries_iff (h : Made pairs t) {ordinal : Nat} {label : String} {code : Int64} :
    ⟨ordinal, label, code⟩ ∈ t.entries ↔ pairs[ordinal]? = some (label, code) := by
  obtain ⟨hlabels, hcodes⟩ := h.lists
  rw [mem_entries, hlabels, hcodes, List.getElem?_map, List.getElem?_map]
  rcases pairs[ordinal]? with _ | ⟨_, _⟩ <;> simp

end Made

/-- No code of an unsigned table is negative. -/
theorem nonneg_of_unsigned {t : EnumTable} (h : t.isSigned = false) {e : Entry}
    (he : e ∈ t.entries) : 0 ≤ e.code.toInt := by
  have hnone := List.any_eq_false.1 h e.code (List.mem_of_getElem? (mem_entries.1 he).2)
  simpa using hnone

end EnumTable

/-! ## The code of a window -/

namespace Codec

variable {order : ByteOrder} {window : Bytes}

/-- The code of an unsigned window is the number it holds, modulo `2 ^ 64`. -/
theorem toInt_readCode_unsigned (hw : window.length ≤ 8) :
    (readCode order false window).toInt =
      if Word.read order window < 2 ^ 63 then (Word.read order window : Int)
      else Word.read order window - 2 ^ 64 := by
  have hvalue : (readCode order false window).toInt =
      Word.signedValue 8 (Word.read order window) := by
    rw [← toNat_unsignedWord hw]
    exact Word.toInt_toInt64 (unsignedWord order window)
  rw [hvalue, Word.signedValue]
  split <;> split <;> omega

/-- **Writing the code that was read gives the window back**, unless the code is unsigned and
reads as a number below zero. -/
theorem writeCode_readCode (name : String) (signed : Bool) (hw : window.length ≤ 8) :
    writeCode name order signed window.length (readCode order signed window) =
      if signed = true ∨ Word.read order window < 2 ^ 63 then .ok window
      else .error (.outOfRange name window.length) := by
  have hread := Word.fitsUnsigned_read order window
  cases signed with
  | true =>
    rw [if_pos (.inl rfl), writeCode, if_pos rfl]
    exact writeSigned_signedWord name hw
  | false =>
    have hcode : (readCode order false window).toInt = _ := toInt_readCode_unsigned hw
    simp only [writeCode, Bool.false_eq_true, if_false, false_or]
    by_cases hsmall : Word.read order window < 2 ^ 63
    · rw [if_pos hsmall] at hcode ⊢
      have hnat : (readCode order false window).toUInt64.toNat = Word.read order window := by
        rw [toNat_toUInt64_of_nonneg (by omega), hcode, Int.toNat_natCast]
      rw [if_neg (by omega), writeUnsigned, hnat, if_pos hread, Word.write_read]
    · have hlt : Word.read order window < 2 ^ 64 :=
        hread.trans_le (Nat.pow_le_pow_right (by decide) hw)
      rw [if_neg hsmall] at hcode ⊢
      rw [if_pos (by omega)]

end Codec

/-! ## Choices -/

namespace EnumTable.Made

variable {pairs : List (String × Int64)} {t : EnumTable} {order : ByteOrder} {window : Bytes}

/-- An entry has the code that is read exactly if its code is the number that is held. -/
theorem code_eq_iff (hw : window.length ≤ 8) {e : Entry} (he : e ∈ t.entries) :
    e.code = Codec.readCode order t.isSigned window ↔ e.code.toInt = t.held order window := by
  unfold held
  rw [← Int64.toInt_inj]
  cases hsigned : t.isSigned with
  | true => rw [Codec.toInt_readCode_signed hw, if_pos rfl]
  | false =>
    have hnonneg := nonneg_of_unsigned hsigned he
    have hlt := e.code.toInt_lt
    have hread : Word.read order window < 2 ^ 64 :=
      (Word.fitsUnsigned_read order window).trans_le (Nat.pow_le_pow_right (by decide) hw)
    rw [Codec.toInt_readCode_unsigned hw, if_neg Bool.false_ne_true]
    split <;> omega

/-- Entries are read under the codes that windows hold. -/
theorem readChoice_known_iff (h : Made pairs t) (hw : window.length ≤ 8) {ordinal : Nat}
    {label : String} : Codec.readChoice order t window = .choice (.known ordinal label) ↔
      ∃ code, pairs[ordinal]? = some (label, code) ∧ code.toInt = t.held order window := by
  have hholds := Codec.holds_read (t := t) (Codec.readCode order t.isSigned window)
  rw [Codec.readChoice_eq, Value.choice.injEq]
  constructor
  · intro hread
    rw [hread] at hholds
    exact ⟨_, h.mem_entries_iff.1 hholds, (code_eq_iff hw hholds).1 rfl⟩
  · rintro ⟨code, hpair, hcode⟩
    have hmem := h.mem_entries_iff.2 hpair
    have hsame : code = _ := (code_eq_iff hw hmem).2 hcode
    rw [← hsame]
    exact (code_of_holds h.distinct (c := .known ordinal label) hmem).2

/-- Every other window is read as an unlisted code. -/
theorem readChoice_unlisted_iff (h : Made pairs t) (hw : window.length ≤ 8) :
    (∃ code, Codec.readChoice order t window = .choice (.unlisted code)) ↔
      ∀ p ∈ pairs, p.2.toInt ≠ t.held order window := by
  have hknown : ∀ ordinal label, Codec.readChoice order t window = .choice (.known ordinal label) ↔
      ∃ code, pairs[ordinal]? = some (label, code) ∧ code.toInt = t.held order window :=
    fun _ _ => h.readChoice_known_iff hw
  constructor
  · rintro ⟨code, hread⟩ ⟨label, c⟩ hp hc
    obtain ⟨ordinal, hpair⟩ := List.getElem?_of_mem hp
    have hentry := (hknown ordinal label).2 ⟨c, hpair, hc⟩
    rw [hread] at hentry
    cases hentry
  · intro hnone
    rcases hread : t.read (Codec.readCode order t.isSigned window) with ⟨ordinal, label⟩ | code
    · obtain ⟨code, hpair, hcode⟩ := (hknown ordinal label).1 (by rw [Codec.readChoice_eq, hread])
      exact absurd hcode (hnone _ (List.mem_of_getElem? hpair))
    · exact ⟨code, by rw [Codec.readChoice_eq, hread]⟩

end EnumTable.Made

/-- **A window of an enum reads as the entry whose code it holds**, and as an unlisted code if
there is none.  Writing the choice that was read gives the window back, unless codes are unsigned
and the window holds a number of `2 ^ 63` or more, which takes all of eight bytes: then the choice
is refused as out of range. -/
theorem every_window_chosen {pairs : List (String × Int64)} {t : EnumTable}
    (ht : EnumTable.Made pairs t) (name : String) (order : ByteOrder) {window : Bytes}
    (hw : IsWordWidth window.length) :
    (∀ ordinal label, Codec.readChoice order t window = .choice (.known ordinal label) ↔
      ∃ code, pairs[ordinal]? = some (label, code) ∧ code.toInt = t.held order window) ∧
    ((∃ code, Codec.readChoice order t window = .choice (.unlisted code)) ↔
      ∀ p ∈ pairs, p.2.toInt ≠ t.held order window) ∧
    Codec.writeChoice name order window.length t (Codec.readChoice order t window) =
      (if t.isSigned = true ∨ t.held order window < 2 ^ 63 then .ok window
        else .error (.outOfRange name window.length)) ∧
    (window.length ≠ 8 → t.held order window < 2 ^ 63) := by
  have hle := hw.le_eight
  refine ⟨fun ordinal label => ht.readChoice_known_iff hle, ht.readChoice_unlisted_iff hle, ?_, ?_⟩
  · have hback := (EnumTable.code_of_holds ht.distinct
      (Codec.holds_read (Codec.readCode order t.isSigned window))).1
    rw [Codec.readChoice_eq, Codec.writeChoice_eq, hback]
    dsimp only
    rw [Codec.writeCode_readCode name t.isSigned hle, EnumTable.held]
    cases t.isSigned with
    | true => rfl
    | false =>
      have hcast : ((Word.read order window : Int) < 2 ^ 63) =
          (Word.read order window < 2 ^ 63) := by
        rw [eq_iff_iff]
        omega
      simp only [Bool.false_eq_true, if_false, false_or, hcast]
  · intro hne
    have hseven : window.length ≤ 7 := by omega
    have hread : Word.read order window < 2 ^ 63 :=
      (Word.fitsUnsigned_read order window).trans_le
        ((Nat.pow_le_pow_right (by decide) hseven).trans (by decide))
    have hsigned := Word.fitsSigned_signedValue (Word.fitsUnsigned_read order window)
    obtain ⟨-, hu⟩ := hsigned.mono hle
    unfold EnumTable.held Word.readSigned
    split <;> omega

/-- Two labels whose codes are their ordinals. -/
def pairTable : EnumTable := ⟨"E", ["X", "Y"], [0, 1], 1⟩

theorem made_pairTable : EnumTable.Made [("X", 0), ("Y", 1)] pairTable :=
  have h : EnumTable.ofLabels "E" ["X", "Y"] = .ok pairTable := by cbv
  .labels h

theorem every_window_chosen_pair :
    Codec.readChoice .little pairTable [1] = .choice (.known 1 "Y") ∧
    (∃ code, Codec.readChoice .big pairTable [1, 0] = .choice (.unlisted code)) ∧
    Codec.writeChoice "c" .big 2 pairTable (Codec.readChoice .big pairTable [1, 0]) =
      .ok [1, 0] := by
  have hone : IsWordWidth [(1 : UInt8)].length := by simp [IsWordWidth]
  have htwo : IsWordWidth [(1 : UInt8), 0].length := by simp [IsWordWidth]
  obtain ⟨hknown, -⟩ := every_window_chosen made_pairTable "c" .little hone
  obtain ⟨-, hunlisted, hback, -⟩ := every_window_chosen made_pairTable "c" .big htwo
  refine ⟨(hknown 1 "Y").2 ⟨1, rfl, by decide⟩, hunlisted.2 (by decide), ?_⟩
  rw [if_pos (by decide)] at hback
  exact hback

/-- The window of the greatest number is read as an unlisted code, and that is not written. -/
theorem unlisted_code_refused :
    EnumTable.ofLabels "E" ["X", "Y"] = .ok pairTable ∧
    Codec.readChoice .little pairTable (List.replicate 8 255) = .choice (.unlisted (-1)) ∧
    Codec.writeChoice "c" .little 8 pairTable (.choice (.unlisted (-1))) =
      .error (.outOfRange "c" 8) := by
  refine ⟨by cbv, by cbv, by cbv⟩

end PackedRecord
