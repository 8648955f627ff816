import Mathlib.Data.String.Basic
import Mathlib.Order.RelClasses
import PackedRecord.Proofs.InferredLayouts

/-!
# Exact coverage

What a mapping leaves out is computed from the bindings of the members, some queries by way of the
two sets of names and some without them.  The bindings come from the names, so that every query
can be answered from the names alone.

* `Outline.isBound_bind`, `Outline.bind_eq_field_iff` — when a name is bound, and when to a field.
* `Schema.LaidOut.difference_members`, `Schema.LaidOut.difference_fields` — both sets are
  differences of the names of the members and of the fields.
* `Schema.Reports` — the queries, as one answer that is told by two lists of names.
* `coverage_exact` — for every built schema these lists are the two differences.
-/

namespace PackedRecord

/-! ## Sets of names -/

theorem mem_nameSet {names : List String} {n : String} : n ∈ nameSet names ↔ n ∈ names := by
  have hset : nameSet names = (Assoc.insertAll (names.map fun n => (n, ())) []).keys := rfl
  rw [hset, Assoc.mem_keys_insertAll]
  simp [Assoc.keys]

theorem pairwise_nameSet (names : List String) : (nameSet names).Pairwise (· < ·) := by
  have hascending : Assoc.Ascending (Assoc.insertAll (names.map fun n => (n, ())) []) :=
    Assoc.ascending_insertAll Assoc.ascending_nil
  exact hascending

/-- A set holds the names of one list that another one lacks, in ascending order. -/
structure IsDifference (names others set : List String) : Prop where
  ascending : set.Pairwise (· < ·)
  mem_iff : ∀ n, n ∈ set ↔ n ∈ names ∧ n ∉ others

theorem isDifference_filter {names others : List String} {keep : String → Bool}
    (hkeep : ∀ n ∈ names, keep n = true ↔ n ∉ others) :
    IsDifference names others ((nameSet names).filter keep) := by
  refine ⟨(pairwise_nameSet names).filter keep, fun n => ?_⟩
  rw [List.mem_filter, mem_nameSet]
  exact ⟨fun h => ⟨h.1, (hkeep n h.1).1 h.2⟩, fun h => ⟨h.1, (hkeep n h.1).2 h.2⟩⟩

namespace IsDifference

variable {names others set back : List String}

theorem eq_nil_iff (h : IsDifference names others set) : set = [] ↔ ∀ n ∈ names, n ∈ others := by
  rw [List.eq_nil_iff_forall_not_mem]
  refine forall_congr' fun n => ?_
  rw [h.mem_iff]
  tauto

/-- Nothing is left out on either side exactly if both lists have the same names. -/
theorem eq_nil_and_iff (h : IsDifference names others set)
    (hback : IsDifference others names back) :
    (set = [] ∧ back = []) ↔ ∀ n, n ∈ names ↔ n ∈ others := by
  rw [h.eq_nil_iff, hback.eq_nil_iff]
  exact ⟨fun h n => ⟨h.1 n, h.2 n⟩, fun h => ⟨fun n => (h n).1, fun n => (h n).2⟩⟩

end IsDifference

/-! ## Bindings -/

namespace Outline

variable {o : Outline} {name : String}

theorem fields_eq_nil_of_isOpen (h : o.isOpen = true) : o.fields = [] := by
  simp only [isOpen, Bool.and_eq_true, List.isEmpty_iff] at h
  exact h.2

theorem findIdx?_isSome_iff : (o.fields.findIdx? (· == name)).isSome = true ↔ name ∈ o.fields := by
  simp

/-- The record receives a member if it is open or has a field of that name. -/
theorem isBound_bind : (o.bind name).isBound = true ↔ o.isOpen = true ∨ name ∈ o.fields := by
  rw [← findIdx?_isSome_iff]
  unfold bind
  cases o.isOpen with
  | true => simp [Binding.isBound]
  | false => cases o.fields.findIdx? (· == name) <;> simp [Binding.isBound]

/-- A member is bound to a field exactly if one has its name. -/
theorem bind_eq_field_iff : (∃ i, o.bind name = .field i) ↔ name ∈ o.fields := by
  cases hopen : o.isOpen with
  | true => simp [bind, hopen, fields_eq_nil_of_isOpen hopen]
  | false =>
    rw [← findIdx?_isSome_iff, bind, hopen, if_neg Bool.false_ne_true]
    cases o.fields.findIdx? (· == name) <;> simp

end Outline

namespace Schema

variable {s : Schema} {rules : ViewRules}

/-! ## The two sets -/

namespace LaidOut

theorem isMapped_iff (hs : s.LaidOut rules) {m : Member} (hm : m ∈ s.members) :
    m.isMapped = true ↔ s.outline.isOpen = true ∨ m.name ∈ s.outline.fields := by
  rw [Member.isMapped, hs.bound m hm, Outline.isBound_bind]

/-- The record receives the members with certain names. -/
theorem mem_mappedNames (hs : s.LaidOut rules) {n : String} : n ∈ s.mappedNames ↔
    n ∈ s.members.map Member.name ∧ (s.outline.isOpen = true ∨ n ∈ s.outline.fields) := by
  simp only [mappedNames, List.mem_map, List.mem_filter]
  constructor
  · rintro ⟨m, ⟨hm, hmapped⟩, rfl⟩
    exact ⟨⟨m, hm, rfl⟩, (hs.isMapped_iff hm).1 hmapped⟩
  · rintro ⟨⟨m, hm, rfl⟩, hreceived⟩
    exact ⟨m, ⟨hm, (hs.isMapped_iff hm).2 hreceived⟩, rfl⟩

/-- The layout supplies the fields that have the name of a member. -/
theorem mem_suppliedFields (hs : s.LaidOut rules) {n : String} : n ∈ s.suppliedFields ↔
    n ∈ s.members.map Member.name ∧ n ∈ s.outline.fields := by
  have hbound : ∀ m ∈ s.members, (∃ i, m.binding = .field i) ↔ m.name ∈ s.outline.fields := by
    intro m hm
    rw [hs.bound m hm, Outline.bind_eq_field_iff]
  simp only [suppliedFields, List.mem_map, List.mem_filter]
  constructor
  · rintro ⟨m, ⟨hm, hfield⟩, rfl⟩
    refine ⟨⟨m, hm, rfl⟩, (hbound m hm).1 ?_⟩
    revert hfield
    cases m.binding <;> simp
  · rintro ⟨⟨m, hm, rfl⟩, hdeclared⟩
    obtain ⟨i, hi⟩ := (hbound m hm).2 hdeclared
    exact ⟨m, ⟨hm, by rw [hi]⟩, rfl⟩

/-- **The members left out are those without a field of their name**, unless the record is open. -/
theorem difference_members (hs : s.LaidOut rules) (hopen : s.outline.isOpen = false) :
    IsDifference (s.members.map Member.name) s.outline.fields s.coverage.members := by
  refine isDifference_filter fun n hn => ?_
  simp only [Bool.not_eq_true', ← Bool.not_eq_true, List.contains_iff_mem, hs.mem_mappedNames, hn,
    hopen, true_and, Bool.false_eq_true, false_or]

/-- **The fields left out are those without a member of their name.** -/
theorem difference_fields (hs : s.LaidOut rules) :
    IsDifference s.outline.fields (s.members.map Member.name) s.coverage.fields := by
  refine isDifference_filter fun n hn => ?_
  simp only [Bool.not_eq_true', ← Bool.not_eq_true, List.contains_iff_mem, hs.mem_suppliedFields,
    hn, and_true]

/-- An open record receives every member and has no field of its own. -/
theorem coverage_eq_of_isOpen (hs : s.LaidOut rules) (hopen : s.outline.isOpen = true) :
    s.coverage = ⟨[], []⟩ := by
  have hmembers : s.coverage.members = [] :=
    coverage_members_eq_nil fun m hm => (hs.isMapped_iff hm).2 (.inl hopen)
  have hfields : s.coverage.fields = [] := by
    rw [hs.difference_fields.eq_nil_iff, Outline.fields_eq_nil_of_isOpen hopen]
    exact fun n hn => absurd hn List.not_mem_nil
  exact congrArg₂ Coverage.mk hmembers hfields

/-- A member is left out by name exactly if it is not mapped. -/
theorem mem_coverage_members (hs : s.LaidOut rules) {m : Member} (hm : m ∈ s.members) :
    m.name ∈ s.coverage.members ↔ m.isMapped = false := by
  have hname : m.name ∈ s.members.map Member.name := List.mem_map_of_mem hm
  rw [← Bool.not_eq_true, hs.isMapped_iff hm]
  cases hopen : s.outline.isOpen with
  | true => simp [hs.coverage_eq_of_isOpen hopen]
  | false =>
    rw [(hs.difference_members hopen).mem_iff]
    simp [hname]

end LaidOut

/-! ## The queries -/

/-- What the queries about a mapping say, if some members and some fields are left out. -/
structure Reports (s : Schema) (members fields : List String) : Prop where
  coverage : s.coverage = ⟨members, fields⟩
  complete : s.requireComplete = .ok () ↔ members = [] ∧ fields = []
  incomplete : ∀ e, s.requireComplete = .error e ↔
    ¬(members = [] ∧ fields = []) ∧ e = .incomplete s.name members fields
  mapping : s.isMappingIncomplete = true ↔ ¬(members = [] ∧ fields = [])
  record : s.isRecordIncomplete = true ↔ members ≠ []
  layout : s.isLayoutIncomplete = true ↔ fields ≠ []
  unmapped : s.unmappedMembers = s.members.filter fun m => m.name ∈ members

theorem isComplete_coverage_iff (s : Schema) :
    s.coverage.isComplete = true ↔ s.coverage.members = [] ∧ s.coverage.fields = [] := by
  simp [Coverage.isComplete]

/-- **All queries go by the two sets**, those that look at the bindings themselves included. -/
theorem LaidOut.reports (hs : s.LaidOut rules) :
    s.Reports s.coverage.members s.coverage.fields := by
  have hcomplete := s.isComplete_coverage_iff
  have hunmapped : s.unmappedMembers =
      s.members.filter fun m => m.name ∈ s.coverage.members := by
    refine List.filter_congr fun m hm => ?_
    rw [Bool.eq_iff_iff, decide_eq_true_iff, hs.mem_coverage_members hm, Bool.not_eq_true']
  refine ⟨rfl, ?_, fun e => ?_, ?_, ?_, ?_, hunmapped⟩
  · rw [requireComplete, ← hcomplete]
    split
    · rename_i h
      simp [h]
    · rename_i h
      simp [h]
  · rw [requireComplete, ← hcomplete]
    split
    · rename_i h
      simp [h]
    · rename_i h
      simp [h, eq_comm]
  · rw [isMappingIncomplete, ← hcomplete, Bool.not_eq_true', Bool.not_eq_true]
  · rw [isRecordIncomplete, List.any_eq_true]
    constructor
    · rintro ⟨m, hm, hnot⟩ hnil
      have hmem := (hs.mem_coverage_members hm).2 (by simpa using hnot)
      rw [hnil] at hmem
      exact absurd hmem List.not_mem_nil
    · intro hne
      obtain ⟨n, hn⟩ := List.exists_mem_of_ne_nil _ hne
      obtain ⟨m, hm, rfl⟩ := List.mem_map.1 (mem_nameSet.1 (List.mem_filter.1 hn).1)
      exact ⟨m, hm, by simp [(hs.mem_coverage_members hm).1 hn]⟩
  · simp [isLayoutIncomplete]

end Schema

/-- **The mapping leaves out exactly the names that only one side has.**  If the record is open
nothing is left out.  Otherwise the two sets are the names of members that no declared field has,
and the names of declared fields that no member has, each in ascending order.  Every query reports
these sets, and the mapping is complete exactly if members and fields have the same names. -/
theorem coverage_exact (b : Blueprint) (s : Schema) (h : b.build = .ok s) :
    s.Reports s.coverage.members s.coverage.fields ∧
    ((b.shape.kind ≠ .reflected ∧ b.shape.fields = []) → s.coverage = ⟨[], []⟩) ∧
    (¬(b.shape.kind ≠ .reflected ∧ b.shape.fields = []) →
      IsDifference (s.members.map Member.name) (b.shape.fields.map Field.name)
        s.coverage.members ∧
      IsDifference (b.shape.fields.map Field.name) (s.members.map Member.name)
        s.coverage.fields) ∧
    (s.requireComplete = .ok () ↔ (b.shape.kind ≠ .reflected ∧ b.shape.fields = []) ∨
      ∀ n, n ∈ s.members.map Member.name ↔ n ∈ b.shape.fields.map Field.name) := by
  obtain ⟨hs, houtline, -⟩ := Blueprint.laidOut_of_build h
  have hreports := hs.reports
  have hisOpen : s.outline.isOpen = true ↔ b.shape.kind ≠ .reflected ∧ b.shape.fields = [] := by
    simp [houtline, Outline.isOpen, Shape.outline]
  have hfields : b.shape.fields.map Field.name = s.outline.fields := by rw [houtline]; rfl
  rw [← hisOpen, hfields]
  refine ⟨hreports, hs.coverage_eq_of_isOpen, fun hclosed => ?_, ?_⟩
  · exact ⟨hs.difference_members (by simpa using hclosed), hs.difference_fields⟩
  · rw [hreports.complete]
    cases hopen : s.outline.isOpen with
    | true => simp [hs.coverage_eq_of_isOpen hopen]
    | false =>
      rw [(hs.difference_members hopen).eq_nil_and_iff hs.difference_fields]
      simp

/-- A typed record that lacks two members and has two fields of its own, one of them named like a
member but for its case. -/
def eventBlueprint : Blueprint where
  shape := .reflected "Event" [⟨"id", .integer 4 true⟩, ⟨"note", .string 15 none⟩, ⟨"Extra", .bool⟩]
  placements := some [.integer "id" 0 4, .string "label" 4 8, .integer "extra" 20 2]

/-- A typed record without fields, which receives nothing. -/
def fieldlessBlueprint : Blueprint where
  shape := .reflected "Fieldless" []
  placements := some [.integer "id" 0 4]

theorem coverage_exact_event :
    (∃ s, eventBlueprint.build = .ok s ∧
      IsDifference ["id", "label", "extra"] ["id", "note", "Extra"] ["extra", "label"] ∧
      IsDifference ["id", "note", "Extra"] ["id", "label", "extra"] ["Extra", "note"] ∧
      s.requireComplete = .error (.incomplete "Event" ["extra", "label"] ["Extra", "note"])) ∧
    ∃ s, fieldlessBlueprint.build = .ok s ∧ IsDifference ["id"] [] s.coverage.members ∧
      s.requireComplete = .error (.incomplete "Fieldless" ["id"] []) := by
  refine ⟨⟨_, by cbv, ?_⟩, ⟨_, by cbv, ?_⟩⟩
  · obtain ⟨hreports, -, hclosed, -⟩ := coverage_exact eventBlueprint _ (by cbv)
    obtain ⟨hmembers, hfields⟩ := hclosed (by decide)
    exact ⟨hmembers, hfields, (hreports.incomplete _).2 ⟨by decide, rfl⟩⟩
  · obtain ⟨hreports, -, hclosed, -⟩ := coverage_exact fieldlessBlueprint _ (by cbv)
    exact ⟨(hclosed (by simp [fieldlessBlueprint, Shape.reflected])).1,
      (hreports.incomplete _).2 ⟨by decide, rfl⟩⟩

end PackedRecord
