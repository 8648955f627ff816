import Mathlib.Order.Bounds.Basic
import PackedRecord.Proofs.EnumWindows
import PackedRecord.Proofs.ExactNumbers

/-!
# Widths of enum tables

The width of a table is found by trying 1, 2 and 4 bytes, its codes are signed if one of them is
below zero, and a codec checks each code again when it writes it.  The three agree: from the width
of the table on, every code of it is written and read.

* `EnumTable.leastWidth_le_iff` — the widths that hold all codes are those from the least one on.
* `EnumTable.Made.entry_keeps` — an entry is written and read back, whichever way it is given.
* `table_width_least` — which tables can be made, how wide they are, which other widths they may
  have, and that a member of such a width takes and returns every entry.
-/

namespace PackedRecord

attribute [local instance] corePow

/-! ## Ranges -/

theorem Word.FitsUnsigned.mono {m n v : Nat} (h : FitsUnsigned m v) (hmn : m ≤ n) :
    FitsUnsigned n v := h.trans_le (Nat.pow_le_pow_right (by decide) hmn)

theorem Word.InRange.mono {signed : Bool} {m n : Nat} {k : Int} (h : InRange signed m k)
    (hmn : m ≤ n) : InRange signed n k := by
  cases signed with
  | true => exact FitsSigned.mono h hmn
  | false => exact ⟨h.1, h.2.mono hmn⟩

/-- A signed number of 64 bits is in the signed range of eight bytes, and in the unsigned one
unless it is below zero. -/
theorem Word.inRange_eight {signed : Bool} {code : Int64} (h : signed = false → 0 ≤ code.toInt) :
    InRange signed 8 code.toInt := by
  have hl := code.le_toInt
  have hu := code.toInt_lt
  cases signed with
  | true =>
    change -(256 ^ 8 : Int) ≤ 2 * code.toInt ∧ 2 * code.toInt < (256 ^ 8 : Int)
    omega
  | false =>
    refine ⟨h rfl, ?_⟩
    change code.toInt.toNat < 256 ^ 8
    omega

/-- Of a predicate that holds from some width on, a search finds that width. -/
theorem getD_find?_le_iff {fits : Nat → Bool} (hmono : ∀ m n, m ≤ n → fits m → fits n)
    (height : fits 8 = true) {w : Nat} (hw : IsWordWidth w) :
    ([1, 2, 4].find? fits).getD 8 ≤ w ↔ fits w = true := by
  have h12 := hmono 1 2 (by decide)
  have h24 := hmono 2 4 (by decide)
  simp only [IsWordWidth, List.mem_cons, List.not_mem_nil, or_false] at hw
  simp only [List.find?_cons, List.find?_nil]
  cases h1 : fits 1 <;> cases h2 : fits 2 <;> cases h4 : fits 4 <;>
    rcases hw with rfl | rfl | rfl | rfl <;> simp_all

namespace EnumTable

/-! ## The least width -/

section Widths

variable {codes : List Int64}

theorem anyNegative_eq_false_iff : anyNegative codes = false ↔ ∀ c ∈ codes, 0 ≤ c.toInt := by
  simp [anyNegative]

theorem codeFits_iff {signed : Bool} {width : Nat} {code : Int64} :
    codeFits signed width code = true ↔ Word.InRange signed width code.toInt := by
  unfold codeFits Word.InRange
  cases signed <;> simp

theorem isWordWidth_leastWidth : IsWordWidth (leastWidth codes) := by
  unfold leastWidth IsWordWidth
  cases h : [1, 2, 4].find? fun w => codes.all (codeFits (anyNegative codes) w) with
  | none => decide
  | some w =>
    have hmem : w ∈ [1, 2, 4] := List.mem_of_find?_eq_some h
    exact List.mem_append_left [8] hmem

/-- **The widths that hold all codes are those from the least one on.** -/
theorem leastWidth_le_iff {w : Nat} (hw : IsWordWidth w) :
    leastWidth codes ≤ w ↔ ∀ c ∈ codes, Word.InRange (anyNegative codes) w c.toInt := by
  have hall : ∀ {w : Nat}, codes.all (codeFits (anyNegative codes) w) = true ↔
      ∀ c ∈ codes, Word.InRange (anyNegative codes) w c.toInt := by
    intro w
    simp only [List.all_eq_true, codeFits_iff]
  rw [← hall]
  refine getD_find?_le_iff ?_ ?_ hw
  · intro m n hmn hm
    exact hall.2 fun c hc => (hall.1 hm c hc).mono hmn
  · exact hall.2 fun c hc => Word.inRange_eight fun h => anyNegative_eq_false_iff.1 h c hc

theorem isLeast_leastWidth :
    IsLeast {w | IsWordWidth w ∧ ∀ c ∈ codes, Word.InRange (anyNegative codes) w c.toInt}
      (leastWidth codes) :=
  ⟨⟨isWordWidth_leastWidth, (leastWidth_le_iff isWordWidth_leastWidth).1 le_rfl⟩,
    fun _ ⟨hw, hall⟩ => (leastWidth_le_iff hw).2 hall⟩

end Widths

/-! ## Tables that can be made -/

/-- Pairs without a repetition pass the check. -/
theorem firstRepetition_of_distinct : ∀ {pairs earlier : List (String × Int64)},
    (∀ p ∈ pairs, ∀ e ∈ earlier, e.1 ≠ p.1 ∧ e.2 ≠ p.2) → (pairs.map Prod.fst).Nodup →
    (pairs.map Prod.snd).Nodup → firstRepetition earlier pairs = none
  | [], _, _, _, _ => rfl
  | (label, code) :: rest, earlier, hnew, hlabels, hcodes => by
    obtain ⟨hfirst, hnew⟩ := List.forall_mem_cons.1 hnew
    obtain ⟨hlabel, hlabels⟩ := List.nodup_cons.1 hlabels
    obtain ⟨hcode, hcodes⟩ := List.nodup_cons.1 hcodes
    have hold : ∀ {f : String × Int64 → Bool}, (∀ e ∈ earlier, f e = false) →
        ¬earlier.any f = true := fun h hany => by
      obtain ⟨e, he, hf⟩ := List.any_eq_true.1 hany
      rw [h e he] at hf
      cases hf
    rw [firstRepetition, if_neg (hold fun e he => beq_false_of_ne (hfirst e he).1),
      if_neg (hold fun e he => beq_false_of_ne (hfirst e he).2)]
    refine firstRepetition_of_distinct (fun p hp e he => ?_) hlabels hcodes
    rcases List.mem_append.1 he with he | he
    · exact hnew p hp e he
    · obtain rfl := List.mem_singleton.1 he
      exact ⟨fun h => hlabel (List.mem_map.2 ⟨p, hp, h.symm⟩),
        fun h => hcode (List.mem_map.2 ⟨p, hp, h.symm⟩)⟩

theorem exists_ofCodes_iff {name : String} {pairs : List (String × Int64)} :
    (∃ t, ofCodes name pairs = .ok t) ↔
      (pairs.map Prod.fst).Nodup ∧ (pairs.map Prod.snd).Nodup := by
  constructor
  · rintro ⟨t, h⟩
    have hdistinct := distinct_of_ofCodes h
    obtain ⟨hlabels, hcodes⟩ := ofCodes_eq h
    exact ⟨hlabels ▸ hdistinct.labels, hcodes ▸ hdistinct.codes⟩
  · rintro ⟨hlabels, hcodes⟩
    have hnone : firstRepetition [] pairs = none :=
      firstRepetition_of_distinct (fun _ _ _ he => absurd he List.not_mem_nil) hlabels hcodes
    exact ⟨_, by rw [ofCodes, hnone]⟩

theorem width_ofCodes {name : String} {pairs : List (String × Int64)} {t : EnumTable}
    (h : ofCodes name pairs = .ok t) : t.width = leastWidth t.codes := by
  unfold ofCodes at h
  split at h <;> cases h
  rfl

theorem exists_withWidth_iff {t : EnumTable} {width : Nat} :
    (∃ t', t.withWidth width = .ok t') ↔ IsWordWidth width ∧ leastWidth t.codes ≤ width := by
  unfold withWidth IsWordWidth
  split
  · rename_i h
    simpa using h
  · rename_i h
    simpa using h

namespace Made

variable {pairs : List (String × Int64)} {t : EnumTable}

/-- A table is wide enough for its codes, however it was made. -/
theorem wide (h : Made pairs t) : IsWordWidth t.width ∧ leastWidth t.codes ≤ t.width := by
  induction h with
  | codes h =>
    rw [width_ofCodes h]
    exact ⟨isWordWidth_leastWidth, le_rfl⟩
  | labels h =>
    rw [width_ofCodes h]
    exact ⟨isWordWidth_leastWidth, le_rfl⟩
  | width _ hw _ =>
    have hwide := exists_withWidth_iff.1 ⟨_, hw⟩
    rw [withWidth_eq hw]
    exact hwide

/-- Every code of a table fits its width. -/
theorem codeFits (h : Made pairs t) {e : Entry} (he : e ∈ t.entries) :
    EnumTable.codeFits t.isSigned t.width e.code = true := by
  obtain ⟨hword, hwide⟩ := h.wide
  have hcode : e.code ∈ t.codes := List.mem_of_getElem? (mem_entries.1 he).2
  exact codeFits_iff.2 ((leastWidth_le_iff hword).1 hwide _ hcode)

end Made

/-! ## Entries of a table -/

/-- Ways to give an entry: the choice, which counts by its label; the label as a text; the ordinal
as a number of any kind. -/
inductive Entry.GivenAs (e : Entry) : Value → Prop where
  | choice (ordinal : Nat) : GivenAs e (.choice (.known ordinal e.label))
  | text : GivenAs e (.text e.label)
  | number (x : Number) (h : x.value? = some (e.ordinal : ℚ)) : GivenAs e (.number x)

/-- There are no more codes than numbers of 64 bits. -/
theorem Distinct.length_le {t : EnumTable} (h : t.Distinct) : t.codes.length ≤ 2 ^ 64 := by
  have hnodup : (t.codes.map fun c => c.toUInt64.toNat).Nodup := by
    refine h.codes.map fun c d hcd => ?_
    obtain ⟨c⟩ := c
    obtain ⟨d⟩ := d
    exact congrArg Int64.ofUInt64 (UInt64.toNat_inj.1 hcd)
  have hsub : (t.codes.map fun c => c.toUInt64.toNat) ⊆ List.range (2 ^ 64) := by
    intro n hn
    obtain ⟨c, -, rfl⟩ := List.mem_map.1 hn
    exact List.mem_range.2 c.toUInt64.toNat_lt
  have hlen := (List.subperm_of_subset hnodup hsub).length_le
  rwa [List.length_map, List.length_range] at hlen

/-- An entry is found, whichever way it is given. -/
theorem Distinct.code?_of_givenAs {t : EnumTable} (h : t.Distinct) {e : Entry}
    (he : e ∈ t.entries) {v : Value} (hv : e.GivenAs v) : t.code? v = some e.code := by
  have hlabel := entryOfLabel?_of_mem h he
  cases hv with
  | choice ordinal => simp only [code?, hlabel, Option.map_some]
  | text => simp only [code?, hlabel, Option.map_some]
  | number x hx =>
    have hcode := (mem_entries.1 he).2
    have hlt : e.ordinal < 2 ^ 64 :=
      (List.getElem?_eq_some_iff.1 hcode).1.trans_le h.length_le
    have hback : (UInt64.ofNat e.ordinal).toNat = e.ordinal := UInt64.toNat_ofNat_of_lt' hlt
    have hview : x.toNat? = some (UInt64.ofNat e.ordinal) := by
      refine Number.toNat?_eq_some_iff.2 (.inl ?_)
      rw [hx, hback, Int.cast_natCast]
    simp only [code?, hview, Option.bind_some, hback, hcode]

/-- **An entry is written and read back**, whichever way it is given. -/
theorem Made.entry_keeps {pairs : List (String × Int64)} {t : EnumTable} (h : Made pairs t)
    (name : String) (order : ByteOrder) {e : Entry} (he : e ∈ t.entries) {v : Value}
    (hv : e.GivenAs v) :
    Codec.Keeps t.width (Codec.writeChoice name order t.width t v) (Codec.readChoice order t)
      (.choice (.known e.ordinal e.label)) := by
  have hdistinct := h.distinct
  obtain ⟨window, hwrite, hlen, hback⟩ := Codec.code_keeps name order (h.codeFits he)
  refine ⟨window, ?_, hlen, ?_⟩
  · rw [Codec.writeChoice_eq, hdistinct.code?_of_givenAs he hv]
    exact hwrite
  · have hholds : t.Holds e.code (.known e.ordinal e.label) := he
    rw [Codec.readChoice_eq, hback, (code_of_holds hdistinct hholds).2]

end EnumTable

/-! ## Members of an enum class -/

/-- A single member of an enum class, as wide as its table. -/
structure Placement.StoresTable (p : Placement) (t : EnumTable) : Prop where
  storageClass : p.storageClass = .enumeration
  size : p.size = t.width
  dims : p.dims = []
  meaning : p.meaning = none
  table : p.table = some t

namespace Placement.StoresTable

variable {p : Placement} {t : EnumTable}

theorem isArray (h : p.StoresTable t) : p.isArray = false := by
  rw [Placement.isArray, h.dims]
  rfl

theorem isVarying (h : p.StoresTable t) : p.isVarying = false := by
  rw [Placement.isVarying, h.size]
  simp

theorem footprint (h : p.StoresTable t) : p.footprint = t.width := by
  rw [footprint_of_single h.isArray h.isVarying, elementWidth, h.size, Int.toNat_natCast]

/-- Without overrides such a member has the codec of its table. -/
theorem ofPlacement (h : p.StoresTable t) (hword : IsWordWidth t.width) (settings : Settings) :
    Kind.ofPlacement {} settings p = .ok (.single (.scalar (.enumeration t))) := by
  have hview : p.view {} = .enumeration := by
    simp [view, viewKey, ViewRules.resolve, Assoc.get?, View.ofMember, View.ofElement, rank,
      h.storageClass, h.dims, h.meaning]
  have hfits : Element.isIntegerWidth p.size = true := by
    simp only [IsWordWidth, List.mem_cons, List.not_mem_nil, or_false] at hword
    rw [h.size, Element.isIntegerWidth]
    rcases hword with hw | hw | hw | hw <;> simp [hw]
  have hchoose : Element.choose p settings .enumeration = .ok (.scalar (.enumeration t)) := by
    simp only [Element.choose, h.table, hfits, if_true]
  simp only [Kind.ofPlacement, h.isArray, Bool.false_eq_true, if_false, hview, Element.ofView,
    hchoose, h.isVarying, Element.isVarying, Scalar.isVarying, if_true]
  rfl

/-- **A member as wide as its table takes every entry and returns it.** -/
theorem keeps {σ : Type} [Heap σ] {pairs : List (String × Int64)} (h : p.StoresTable t)
    (ht : EnumTable.Made pairs t) (order : ByteOrder) {e : EnumTable.Entry} (he : e ∈ t.entries)
    {v : Value} (hv : e.GivenAs v) (heap : Option σ) :
    ∃ window, (Kind.single (.scalar (.enumeration t))).write p order v heap = (.ok window, heap) ∧
      window.length = t.width ∧ ∀ later : Option σ,
        (Kind.single (.scalar (.enumeration t))).read p order window later =
          .ok (.choice (.known e.ordinal e.label)) := by
  obtain ⟨window, hwrite, hlen, hread⟩ := ht.entry_keeps p.name order he hv
  have hnull : v.isNull = false := by cases hv <;> rfl
  refine ⟨window, ?_, hlen, fun later => ?_⟩
  · simp only [Kind.write, hnull, Bool.false_eq_true, if_false, Element.write, Scalar.write,
      h.footprint, hwrite]
  · simp only [Kind.read, Element.read, Scalar.read, hread]

end Placement.StoresTable

/-- **A table takes the least width that holds its codes.**  It is made exactly if labels and codes
do not repeat; its codes are stored in two's complement if one of them is below zero; the widths
it may be given are those from the least one on.  A member of the width of a table, in either byte
order and on any heap, takes each entry as the choice, as its label or as its ordinal, and returns
the choice. -/
theorem table_width_least (name : String) (pairs : List (String × Int64)) :
    ((∃ t, EnumTable.ofCodes name pairs = .ok t) ↔
      (pairs.map Prod.fst).Nodup ∧ (pairs.map Prod.snd).Nodup) ∧
    ∀ t₀, EnumTable.ofCodes name pairs = .ok t₀ →
      IsLeast {w | IsWordWidth w ∧ ∀ q ∈ pairs,
        Word.InRange (decide (∃ q ∈ pairs, q.2.toInt < 0)) w q.2.toInt} t₀.width ∧
      ∀ t, EnumTable.Made pairs t →
        (∀ width, (∃ t', t.withWidth width = .ok t') ↔ IsWordWidth width ∧ t₀.width ≤ width) ∧
        ∀ (p : Placement) (settings : Settings), p.StoresTable t →
          ∃ kind, Kind.ofPlacement {} settings p = .ok kind ∧
            ∀ (ordinal : Nat) (label : String) (code : Int64),
              pairs[ordinal]? = some (label, code) →
              ∀ v, (EnumTable.Entry.mk ordinal label code).GivenAs v →
              ∀ (order : ByteOrder) (σ : Type) [Heap σ] (heap : Option σ),
                ∃ window, kind.write p order v heap = (.ok window, heap) ∧
                  window.length = t.width ∧ ∀ later : Option σ,
                    kind.read p order window later = .ok (.choice (.known ordinal label)) := by
  refine ⟨EnumTable.exists_ofCodes_iff, fun t₀ ht₀ => ?_⟩
  obtain ⟨-, hcodes₀⟩ := EnumTable.ofCodes_eq ht₀
  have hwidth := EnumTable.width_ofCodes ht₀
  refine ⟨?_, fun t ht => ⟨fun width => ?_, fun p settings hp => ?_⟩⟩
  · have hsigned : decide (∃ q ∈ pairs, q.2.toInt < 0) =
        EnumTable.anyNegative (pairs.map Prod.snd) := by
      rw [Bool.eq_iff_iff]
      simp [EnumTable.anyNegative]
    have hleast : IsLeast {w | IsWordWidth w ∧ ∀ c ∈ pairs.map Prod.snd,
        Word.InRange (EnumTable.anyNegative (pairs.map Prod.snd)) w c.toInt}
        (EnumTable.leastWidth (pairs.map Prod.snd)) := EnumTable.isLeast_leastWidth
    simp only [List.forall_mem_map] at hleast
    rw [hwidth, hcodes₀, hsigned]
    exact hleast
  · rw [hwidth, hcodes₀, ← ht.lists.2]
    exact EnumTable.exists_withWidth_iff
  · refine ⟨_, hp.ofPlacement ht.wide.1 settings, ?_⟩
    intro ordinal label code hpair v hv order σ _ heap
    exact hp.keeps ht order (ht.mem_entries_iff.2 hpair) hv heap

/-- Codes of one byte below zero and above, which take two bytes together. -/
def levelPairs : List (String × Int64) := [("low", -1), ("high", 200)]

def levelTable : EnumTable := ⟨"Level", ["low", "high"], [-1, 200], 2⟩

theorem table_width_least_level :
    EnumTable.ofCodes "Level" levelPairs = .ok levelTable ∧
    (∃ t, levelTable.withWidth 8 = .ok t) ∧ (¬∃ t, levelTable.withWidth 1 = .ok t) ∧
    ∃ (p : Placement) (kind : Kind), Kind.ofPlacement {} {} p = .ok kind ∧
      ∀ (heap : Option TransientStore), ∃ window,
        kind.write p .big (.number (.int 1)) heap = (.ok window, heap) ∧ window.length = 2 ∧
        kind.read p .big window heap = .ok (.choice (.known 1 "high")) := by
  have hmade : EnumTable.ofCodes "Level" levelPairs = .ok levelTable := by cbv
  obtain ⟨-, htables⟩ := table_width_least "Level" levelPairs
  obtain ⟨-, hwidths⟩ := htables levelTable hmade
  obtain ⟨hother, hmembers⟩ := hwidths levelTable (.codes hmade)
  have hp : Placement.StoresTable
      { Placement.plain "at" 0 .enumeration 2 with table := some levelTable } levelTable :=
    ⟨rfl, rfl, rfl, rfl, rfl⟩
  obtain ⟨kind, hkind, hentries⟩ := hmembers _ {} hp
  refine ⟨hmade, (hother 8).2 ⟨by simp [IsWordWidth], by decide⟩, ?_, _, kind, hkind, ?_⟩
  · exact fun h => absurd ((hother 1).1 h).2 (by decide)
  · intro heap
    obtain ⟨window, hwrite, hlen, hread⟩ := hentries 1 "high" 200 rfl _
      (.number (.int 1) (by simp [Number.value?])) .big TransientStore heap
    exact ⟨window, hwrite, hlen, hread heap⟩

end PackedRecord
