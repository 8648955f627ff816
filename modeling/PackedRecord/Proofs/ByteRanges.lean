import Mathlib.Data.List.Nodup
import Mathlib.Data.List.Pairwise
import Mathlib.Data.String.Basic
import Mathlib.Tactic
import PackedRecord.Proofs.Layouts

/-!
# Members share out the bytes of a record

A build looks for overlaps between neighbours only, after it has sorted the members by their
first bytes.  That is enough because no member is empty.

* `Placement.Checked.footprint_pos` — a checked member occupies at least one byte.
* `exists_overlap_of_checkDisjoint`, `apart_of_checkDisjoint` — the check fails with two members
  that share a byte, and passes only if there are none.
* `build_shares_out_bytes` — each byte of a built record belongs to one member at most, and a
  build reports an overlap exactly if two valid members share a byte.
-/

namespace PackedRecord

/-! ## Bytes of a member -/

namespace Placement

/-- The byte belongs to the member. -/
def Covers (p : Placement) (byte : Nat) : Prop := p.offset ≤ byte ∧ byte < p.stop

/-- Some byte belongs to both members. -/
def Meets (p q : Placement) : Prop := ∃ byte, p.Covers byte ∧ q.Covers byte

theorem Apart.not_covers {p q : Placement} (h : p.Apart q) {byte : Nat} (hp : p.Covers byte) :
    ¬q.Covers byte := by
  unfold Apart at h
  unfold Covers at *
  omega

theorem Apart.not_meets {p q : Placement} (h : p.Apart q) : ¬p.Meets q :=
  fun ⟨_, hp, hq⟩ => h.not_covers hp hq

theorem countOfSize_pos {size : Int} (h : size ≠ 0) : 0 < countOfSize size := by
  unfold countOfSize
  split <;> omega

theorem sizeOfCount_ne_zero {count : Nat} (h : count ≠ 0) : sizeOfCount count ≠ 0 := by
  unfold sizeOfCount
  split <;> omega

/-- **A checked member is not empty**: it has a slot for a handle, or elements of some size. -/
theorem Checked.footprint_pos {p : Placement} (h : p.Checked) : 0 < p.footprint := by
  cases hv : p.isVarying with
  | true =>
    rw [footprint_of_varying hv]
    decide
  | false =>
    have helements : p.elements ≠ 0 := by
      cases ha : p.isArray with
      | true => exact h.elements_ne ha
      | false =>
        rw [elements_eq_one ha]
        exact Nat.one_ne_zero
    have hextent : p.extent ≠ 0 := by
      rw [extent, hv, if_neg Bool.false_ne_true]
      exact Int.mul_ne_zero h.size_ne (sizeOfCount_ne_zero helements)
    rw [footprint, hv, if_neg Bool.false_ne_true]
    exact countOfSize_pos hextent

/-! ## The order of the members -/

theorem offset_le_of_startsBefore {p q : Placement} (h : p.startsBefore q = true) :
    p.offset ≤ q.offset := by
  unfold startsBefore at h
  split at h
  · omega
  · exact (of_decide_eq_true h).le

theorem startsBefore_trans {p q r : Placement} (hpq : p.startsBefore q = true)
    (hqr : q.startsBefore r = true) : p.startsBefore r = true := by
  unfold startsBefore at *
  split_ifs at * <;> simp only [decide_eq_true_eq] at *
  all_goals first
    | omega
    | exact le_trans hpq hqr

theorem startsBefore_total (p q : Placement) :
    (p.startsBefore q || q.startsBefore p) = true := by
  rw [Bool.or_eq_true]
  unfold startsBefore
  split_ifs <;> simp only [decide_eq_true_eq]
  all_goals first
    | omega
    | exact le_total p.name q.name

theorem pairwise_offset_mergeSort (ps : List Placement) :
    (ps.mergeSort startsBefore).Pairwise fun p q => p.offset ≤ q.offset := by
  have htrans : ∀ p q r : Placement, p.startsBefore q = true → q.startsBefore r = true →
      p.startsBefore r = true := fun _ _ _ => startsBefore_trans
  have hsorted : (ps.mergeSort startsBefore).Pairwise fun p q => p.startsBefore q = true :=
    List.pairwise_mergeSort htrans startsBefore_total ps
  exact hsorted.imp offset_le_of_startsBefore

end Placement

/-! ## Overlaps -/

/-- An overlap is reported for two neighbours, at the first byte of the latter. -/
theorem exists_of_firstOverlap : ∀ {ps : List Placement} {cause : Conflict},
    firstOverlap ps = some cause → ∃ p q, [p, q].Sublist ps ∧ q.offset < p.stop ∧
      cause = .overlap p.name q.name q.offset
  | p :: q :: rest, cause, h => by
    unfold firstOverlap at h
    split at h
    · rename_i hpq
      cases h
      exact ⟨p, q, ((List.nil_sublist rest).cons_cons q).cons_cons p, hpq, rfl⟩
    · obtain ⟨p', q', hsub, hoverlap, hcause⟩ := exists_of_firstOverlap h
      exact ⟨p', q', hsub.cons p, hoverlap, hcause⟩

/-- **The check for overlaps fails with two members that share the byte it names.** -/
theorem exists_overlap_of_checkDisjoint {typeName : String} {ps : List Placement} {e : Error}
    (hnames : (ps.map Placement.name).Nodup) (hpos : ∀ p ∈ ps, 0 < p.footprint)
    (h : checkDisjoint typeName ps = .error e) :
    ∃ p ∈ ps, ∃ q ∈ ps, p.name ≠ q.name ∧ p.Covers q.offset ∧ q.Covers q.offset ∧
      e = .conflict typeName (.overlap p.name q.name q.offset) := by
  unfold checkDisjoint at h
  rcases hcause : firstOverlap (ps.mergeSort Placement.startsBefore) with _ | cause <;>
    simp only [hcause] at h
  · cases h
  cases h
  obtain ⟨p, q, hsub, hoverlap, rfl⟩ := exists_of_firstOverlap hcause
  have hperm := List.mergeSort_perm ps Placement.startsBefore
  have hp : p ∈ ps := hperm.mem_iff.1 (hsub.subset (by simp))
  have hq : q ∈ ps := hperm.mem_iff.1 (hsub.subset (by simp))
  have hne : p.name ≠ q.name := by
    have hnodup := (hsub.map Placement.name).nodup ((hperm.map Placement.name).nodup_iff.2 hnames)
    simpa using hnodup
  have hle : p.offset ≤ q.offset := by
    have hpair := (Placement.pairwise_offset_mergeSort ps).sublist hsub
    simpa using hpair
  refine ⟨p, hp, q, hq, hne, ⟨hle, hoverlap⟩, ⟨Nat.le_refl _, ?_⟩, rfl⟩
  exact Nat.lt_add_of_pos_right (hpos q hq)

/-! ## Repeated names -/

theorem firstRepeated_eq_none_iff : ∀ {names earlier : List String},
    firstRepeated earlier names = none ↔ names.Nodup ∧ ∀ n ∈ names, n ∉ earlier
  | [], _ => by simp [firstRepeated]
  | name :: rest, earlier => by
    rw [firstRepeated, List.nodup_cons, List.forall_mem_cons]
    split
    · rename_i hrepeated
      rw [List.contains_iff_mem] at hrepeated
      simp [hrepeated]
    · rename_i hnew
      rw [List.contains_iff_mem] at hnew
      rw [firstRepeated_eq_none_iff]
      constructor
      · rintro ⟨hnodup, hlater⟩
        refine ⟨⟨fun hmem => hlater name hmem List.mem_cons_self, hnodup⟩, hnew, ?_⟩
        exact fun n hn hearlier => hlater n hn (List.mem_cons_of_mem _ hearlier)
      · rintro ⟨⟨hname, hnodup⟩, -, hlater⟩
        refine ⟨hnodup, fun n hn hmem => ?_⟩
        rcases List.mem_cons.1 hmem with rfl | hmem
        · exact hname hn
        · exact hlater n hn hmem

/-- Valid members with distinct names pass. -/
theorem checkPlacements_of_valid {typeName : String} : ∀ {ps : List Placement}
    {earlier : List String}, (ps.map Placement.name).Nodup → (∀ p ∈ ps, p.name ∉ earlier) →
    (∀ p ∈ ps, p.check = .ok ()) → checkPlacements typeName earlier ps = .ok ()
  | [], _, _, _, _ => rfl
  | p :: rest, earlier, hnodup, hnew, hvalid => by
    rw [List.map_cons, List.nodup_cons] at hnodup
    have hp : earlier.contains p.name = false := by
      rw [Bool.eq_false_iff, Ne, List.contains_iff_mem]
      exact hnew p List.mem_cons_self
    simp only [checkPlacements, hp, hvalid p List.mem_cons_self, Bool.false_eq_true, if_false]
    refine checkPlacements_of_valid hnodup.2 ?_ fun q hq => hvalid q (List.mem_cons_of_mem _ hq)
    intro q hq hmem
    rcases List.mem_cons.1 hmem with hname | hmem
    · exact hnodup.1 (hname ▸ List.mem_map_of_mem hq)
    · exact hnew q (List.mem_cons_of_mem _ hq) hmem

/-! ## Other stages report no overlap -/

/-- The error is a conflict over a byte. -/
def Error.IsOverlap (typeName : String) (e : Error) : Prop :=
  ∃ earlier later start, e = .conflict typeName (.overlap earlier later start)

namespace Element

theorem faulty_of_ofView {p : Placement} {settings : Settings} {view : View} {e : Error}
    (h : ofView p settings view = .error e) : ∃ fault, e = .faultyLayout p.name fault := by
  unfold ofView at h
  rcases hc : choose p settings view with e' | element <;> simp only [hc] at h
  · cases h
    unfold choose at hc
    dsimp only at hc
    split at hc
    case h_5 =>
      split at hc
      · split at hc
        · cases hc
        · cases hc
          exact ⟨_, rfl⟩
      · cases hc
    case h_9 => split at hc <;> cases hc
    all_goals cases hc
  · split at h
    · cases h
    · cases h
      exact ⟨_, rfl⟩

end Element

theorem Kind.faulty_of_ofPlacement {rules : ViewRules} {settings : Settings} {p : Placement}
    {e : Error} (h : ofPlacement rules settings p = .error e) :
    ∃ fault, e = .faultyLayout p.name fault := by
  have hview : ∀ {view : View} {f : Element → Kind},
      (Element.ofView p settings view).map f = .error e →
        ∃ fault, e = .faultyLayout p.name fault := by
    intro view f hmap
    rcases hv : Element.ofView p settings view with e' | element <;>
      simp only [hv, Except.map] at hmap
    · cases hmap
      exact Element.faulty_of_ofView hv
    · cases hmap
  unfold ofPlacement at h
  split at h
  · split at h
    · exact hview h
    · exact hview h
  · exact hview h

namespace Blueprint

theorem faulty_of_members {b : Blueprint} : ∀ {ps : List Placement} {e : Error},
    b.members ps = .error e → ∃ name fault, e = .faultyLayout name fault
  | p :: rest, e, h => by
    unfold members at h
    rcases hm : b.member p with e' | m <;> simp only [hm] at h
    · cases h
      unfold member at hm
      rcases hk : Kind.ofPlacement b.rules b.settings p with e'' | kind <;>
        simp only [hk, Except.map] at hm
      · cases hm
        exact ⟨_, Kind.faulty_of_ofPlacement hk⟩
      · cases hm
    · rcases hrest : b.members rest with e' | ms <;> simp only [hrest, Except.map] at h
      · cases h
        exact faulty_of_members hrest
      · cases h

/-- Once the members are laid out and valid, a build reports an overlap exactly if the check for
overlaps does. -/
theorem build_overlap_iff {b : Blueprint} {ps : List Placement}
    (hfields : firstRepeated [] (b.shape.fields.map Field.name) = none)
    (hlay : b.layOut = .ok ps) (hchecks : checkPlacements b.typeName [] ps = .ok ()) {e : Error}
    (he : e.IsOverlap b.typeName) :
    b.build = .error e ↔ checkDisjoint b.typeName ps = .error e := by
  simp only [build, bind, Except.bind, pure, Except.pure, hfields, hlay, hchecks]
  rcases happart : checkDisjoint b.typeName ps with e' | _
  · simp only [Except.error.injEq]
  obtain ⟨earlier, later, start, rfl⟩ := he
  refine iff_of_false ?_ (fun h => by cases h)
  intro h
  dsimp only at h
  rcases hsize : b.sizeFor (extentOf ps) with e' | size <;> simp only [hsize] at h
  · cases h
    unfold sizeFor at hsize
    split at hsize
    · split at hsize <;> cases hsize
    · cases hsize
  rcases hmembers : b.members ps with e' | ms <;> simp only [hmembers] at h
  · cases h
    obtain ⟨name, fault, hfault⟩ := faulty_of_members hmembers
    cases hfault
  · cases h

end Blueprint

/-! ## Built schemas -/

theorem extentOf_eq (ps : List Placement) : extentOf ps = (ps.map Placement.stop).max?.getD 0 := by
  cases ps with
  | nil => rfl
  | cons p rest =>
    simp only [extentOf, List.map_cons, List.max?_cons', Option.getD_some, List.foldl_cons,
      Nat.zero_max, List.foldl_map]

/-- Members have names of their own and bytes of their own, and the record ends behind them. -/
structure Schema.SharesOut (s : Schema) (stated : Option Nat) : Prop where
  names : (s.members.map Member.name).Nodup
  position : ∀ (name : String) (i : Nat),
    s.position? name = some i ↔ (s.members[i]?).map Member.name = some name
  nonempty : ∀ m ∈ s.members, m.placement.offset < m.placement.stop
  apart : ∀ (i j : Nat) (m n : Member), s.members[i]? = some m → s.members[j]? = some n →
    i ≠ j → ¬m.placement.Meets n.placement
  within : ∀ m ∈ s.members, m.placement.stop ≤ s.totalSize
  /-- The stated size, or else the highest end. -/
  size : s.totalSize = stated.getD ((s.members.map fun m => m.placement.stop).max?.getD 0)

/-- Among distinct names a search ends at the one entry of the name. -/
theorem findIdx?_eq_some_iff_of_nodup {α : Type} {f : α → String} {as : List α}
    (hn : (as.map f).Nodup) {name : String} {i : Nat} :
    as.findIdx? (fun a => f a == name) = some i ↔ (as[i]?).map f = some name := by
  rw [List.findIdx?_eq_some_iff_getElem, Option.map_eq_some_iff]
  constructor
  · rintro ⟨hi, hname, -⟩
    exact ⟨_, List.getElem?_eq_getElem hi, eq_of_beq hname⟩
  · rintro ⟨a, ha, rfl⟩
    obtain ⟨hi, rfl⟩ := List.getElem?_eq_some_iff.1 ha
    refine ⟨hi, beq_self_eq_true _, fun j hji heq => ?_⟩
    have hj : j < as.length := hji.trans hi
    have hsame : as[j] = as[i] :=
      List.inj_on_of_nodup_map hn (List.getElem_mem hj) (List.getElem_mem hi) (eq_of_beq heq)
    exact absurd (hn.of_map.getElem_inj_iff.1 hsame) hji.ne

theorem Blueprint.sharesOut_of_build {b : Blueprint} {s : Schema} (h : b.build = .ok s) :
    s.SharesOut b.totalSize := by
  obtain ⟨ps, hs⟩ := stages_of_build h
  obtain ⟨hlaid, -, -⟩ := laidOut_of_build h
  refine ⟨hlaid.names, fun _ _ => findIdx?_eq_some_iff_of_nodup hlaid.names, ?_, ?_,
    hlaid.within, ?_⟩
  · intro m hm
    exact Nat.lt_add_of_pos_right (hlaid.checked m hm).footprint_pos
  · intro i j m n hm hn hij
    obtain ⟨hi, rfl⟩ := List.getElem?_eq_some_iff.1 hm
    obtain ⟨hj, rfl⟩ := List.getElem?_eq_some_iff.1 hn
    have hpairs := List.pairwise_iff_getElem.1 hlaid.apart
    rcases Nat.lt_or_gt_of_ne hij with hlt | hgt
    · exact (hpairs i j hi hj hlt).not_meets
    · exact (hpairs j i hj hi hgt).symm.not_meets
  · have hstops : (s.members.map fun m => m.placement.stop) = ps.map Placement.stop := by
      rw [← hs.placements, List.map_map]
      rfl
    have hsize := hs.size
    rw [hstops, ← extentOf_eq]
    unfold sizeFor at hsize
    split at hsize
    · rename_i size hstated
      split at hsize
      · cases hsize
      · rw [hstated, ← Except.ok.inj hsize]
        rfl
    · rename_i hstated
      rw [hstated, ← Except.ok.inj hsize]
      rfl

/-- **A built schema shares out the bytes of its records among its members**, whatever it was
built from.  Conversely, where the fields of the shape have distinct names and so have the
members, each of them valid, a build reports an overlap exactly if two members share a byte, and
it names two such members and the byte. -/
theorem build_shares_out_bytes (b : Blueprint) :
    (∀ s, b.build = .ok s → s.SharesOut b.totalSize) ∧
    ∀ ps, b.layOut = .ok ps → (b.shape.fields.map Field.name).Nodup →
      (ps.map Placement.name).Nodup → (∀ p ∈ ps, p.check = .ok ()) →
      ((∃ e : Error, e.IsOverlap b.typeName ∧ b.build = .error e) ↔
        ∃ p ∈ ps, ∃ q ∈ ps, p.name ≠ q.name ∧ p.Meets q) ∧
      ∀ earlier later start,
        b.build = .error (.conflict b.typeName (.overlap earlier later start)) →
        ∃ p ∈ ps, ∃ q ∈ ps, p.name = earlier ∧ q.name = later ∧ earlier ≠ later ∧
          p.Covers start ∧ q.Covers start := by
  refine ⟨fun s h => Blueprint.sharesOut_of_build h, ?_⟩
  intro ps hlay hfields hnames hvalid
  have hunrepeated : firstRepeated [] (b.shape.fields.map Field.name) = none :=
    firstRepeated_eq_none_iff.2 ⟨hfields, fun _ _ => List.not_mem_nil⟩
  have hchecks : checkPlacements b.typeName [] ps = .ok () :=
    checkPlacements_of_valid hnames (fun _ _ => List.not_mem_nil) hvalid
  have hpos : ∀ p ∈ ps, 0 < p.footprint := fun p hp =>
    (Placement.checked_of_check (hvalid p hp)).footprint_pos
  have hreport : ∀ e : Error, e.IsOverlap b.typeName →
      (b.build = .error e ↔ checkDisjoint b.typeName ps = .error e) :=
    fun e he => Blueprint.build_overlap_iff hunrepeated hlay hchecks he
  refine ⟨⟨?_, ?_⟩, ?_⟩
  · rintro ⟨e, he, hbuild⟩
    obtain ⟨p, hp, q, hq, hne, hcovers, hcovers', -⟩ :=
      exists_overlap_of_checkDisjoint hnames hpos ((hreport e he).1 hbuild)
    exact ⟨p, hp, q, hq, hne, q.offset, hcovers, hcovers'⟩
  · rintro ⟨p, hp, q, hq, hne, hmeets⟩
    rcases hdisjoint : checkDisjoint b.typeName ps with e | _
    · obtain ⟨p', -, q', -, -, -, -, rfl⟩ :=
        exists_overlap_of_checkDisjoint hnames hpos hdisjoint
      exact ⟨_, ⟨_, _, _, rfl⟩, (hreport _ ⟨_, _, _, rfl⟩).2 hdisjoint⟩
    · have hpairs := apart_of_checkDisjoint hdisjoint
      have hpq : p ≠ q := fun h => hne (congrArg Placement.name h)
      have : Std.Symm Placement.Apart := ⟨fun _ _ h => h.symm⟩
      exact absurd hmeets (hpairs.forall hp hq hpq).not_meets
  · intro earlier later start hbuild
    have hdisjoint := (hreport _ ⟨_, _, _, rfl⟩).1 hbuild
    obtain ⟨p, hp, q, hq, hne, hcovers, hcovers', he⟩ :=
      exists_overlap_of_checkDisjoint hnames hpos hdisjoint
    cases he
    exact ⟨p, hp, q, hq, rfl, rfl, hne, hcovers, hcovers'⟩

/-- A text and an array with a gap between them, in records of 48 bytes. -/
def gappedBlueprint : Blueprint where
  shape := .map [⟨"tag", .varyingString none⟩, ⟨"count", .integer 8 false⟩]
  name := some "Gapped"
  placements := some [{ Placement.integer "cells" 24 2 with dims := [3] },
    .plain "tag" 0 .string (-1)]
  inferMissing := true
  totalSize := some 48

/-- The last of three members lies across the other two. -/
def crossingPlacements : List Placement :=
  [.integer "low" 0 2, .integer "high" 4 4, .plain "across" 1 .raw 5]

def crossingBlueprint : Blueprint where
  shape := .openMap
  name := some "Crossing"
  placements := some crossingPlacements

theorem build_shares_out_bytes_crossing :
    (∃ s, gappedBlueprint.build = .ok s ∧ s.SharesOut (some 48) ∧ s.length = 3) ∧
    (∃ e : Error, e.IsOverlap "Crossing" ∧ crossingBlueprint.build = .error e) ∧
    ∃ p ∈ crossingPlacements, ∃ q ∈ crossingPlacements,
      p.name = "low" ∧ q.name = "across" ∧ p.Covers 1 ∧ q.Covers 1 := by
  obtain ⟨hgapped, -⟩ := build_shares_out_bytes gappedBlueprint
  obtain ⟨s, hs, hlength⟩ : ∃ s, gappedBlueprint.build = .ok s ∧ s.length = 3 :=
    ⟨_, by cbv, rfl⟩
  have hvalid : ∀ p ∈ crossingPlacements, p.check = .ok () := by
    simp only [crossingPlacements, List.forall_mem_cons]
    exact ⟨rfl, rfl, rfl, fun _ h => absurd h List.not_mem_nil⟩
  obtain ⟨hiff, hbytes⟩ := (build_shares_out_bytes crossingBlueprint).2 crossingPlacements rfl
    List.nodup_nil (by decide) hvalid
  have hmeets : (Placement.integer "low" 0 2).Meets (.plain "across" 1 .raw 5) :=
    ⟨1, ⟨by decide, by decide⟩, ⟨by decide, by decide⟩⟩
  have hbuild := hiff.2
    ⟨_, List.mem_cons_self, _, by simp [crossingPlacements], by decide, hmeets⟩
  refine ⟨⟨s, hs, hgapped s hs, hlength⟩, hbuild, ?_⟩
  obtain ⟨p, hp, q, hq, hpn, hqn, -, hpc, hqc⟩ := hbytes "low" "across" 1 (by cbv)
  exact ⟨p, hp, q, hq, hpn, hqn, hpc, hqc⟩

end PackedRecord
