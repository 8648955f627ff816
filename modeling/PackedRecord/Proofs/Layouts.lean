import Mathlib.Order.Basic
import PackedRecord.Schema.Build

/-!
# Layouts of built schemas

What a successful build says about its result.

* `Blueprint.laidOut_of_build` — names are distinct, members lie apart and within the record,
  each of them passed its check, and codecs and bindings are the chosen ones.
* `Kind.suits` — a chosen codec suits the width of its windows.
* `Kind.fills` — without overrides a nested record is as long as its window.
* `Schema.Hereditarily` — a property of a schema and of all schemas nested in it.
-/

namespace PackedRecord

/-! ## Placements -/

namespace Placement

/-- Two members share no byte. -/
def Apart (p q : Placement) : Prop := p.stop ≤ q.offset ∨ q.stop ≤ p.offset

theorem Apart.symm {p q : Placement} (h : p.Apart q) : q.Apart p := Or.symm h

/-- What the check of a single placement ensures. -/
structure Checked (p : Placement) : Prop where
  size_ne : p.size ≠ 0
  elements_ne : p.isArray = true → p.elements ≠ 0
  fixed : p.isArray = true → p.isVarying = false
  nested_size : ∀ schema, p.nested = some schema → p.storageClass = .compound →
    sizeOfCount schema.totalSize = p.size

theorem checked_of_check {p : Placement} (h : p.check = .ok ()) : p.Checked := by
  unfold check at h
  dsimp only at h
  split at h
  · cases h
  split at h
  · cases h
  rename_i hsize
  split at h
  · cases h
  split at h
  · cases h
  rename_i hvarying
  split at h
  · cases h
  rename_i hextent
  split at h
  · cases h
  refine ⟨hsize, ?_, ?_, ?_⟩
  · intro ha h0
    exact hextent (by simp [ha, h0])
  · intro ha
    cases hv : p.isVarying with
    | false => rfl
    | true => exact absurd (by simp [ha, hv]) hvarying
  · intro schema hs hc
    rw [hs] at h
    dsimp only at h
    split at h
    · cases h
    · rename_i hn
      by_contra hne
      exact hn ⟨hc, hne⟩

theorem elements_eq_one {p : Placement} (h : p.isArray = false) : p.elements = 1 := by
  have hdims : p.dims = [] := by simpa [isArray] using h
  simp [elements, hdims, elementCount]

/-- A single member of fixed length is one element long. -/
theorem footprint_of_single {p : Placement} (ha : p.isArray = false) (hv : p.isVarying = false) :
    p.footprint = p.elementWidth := by
  have hsize : ¬p.size < 0 := by simpa [isVarying] using hv
  simp only [footprint, extent, hv, elements_eq_one ha, sizeOfCount, countOfSize, elementWidth]
  simp only [Bool.false_eq_true, if_false]
  split
  · omega
  · split <;> omega

theorem footprint_of_varying {p : Placement} (hv : p.isVarying = true) :
    p.footprint = Handle.width := if_pos hv

end Placement

/-! ## Disjointness -/

/-- Members without an overlap follow each other. -/
theorem pairwise_of_firstOverlap : ∀ {ps : List Placement}, firstOverlap ps = none →
    ps.Pairwise fun p q => p.stop ≤ q.offset
  | [], _ => List.Pairwise.nil
  | [p], _ => List.pairwise_singleton _ p
  | p :: q :: rest, h => by
    unfold firstOverlap at h
    split at h
    · cases h
    rename_i hpq
    have hrest := pairwise_of_firstOverlap h
    refine List.pairwise_cons.2 ⟨?_, hrest⟩
    intro r hr
    rcases List.mem_cons.1 hr with rfl | hr
    · exact Nat.le_of_not_lt hpq
    · have hqr := (List.pairwise_cons.1 hrest).1 r hr
      unfold Placement.stop at hpq hqr ⊢
      omega

theorem apart_of_checkDisjoint {typeName : String} {ps : List Placement}
    (h : checkDisjoint typeName ps = .ok ()) : ps.Pairwise Placement.Apart := by
  unfold checkDisjoint at h
  split at h
  · cases h
  rename_i hnone
  have hsorted := pairwise_of_firstOverlap hnone
  have hperm := List.mergeSort_perm ps Placement.startsBefore
  refine (hperm.pairwise_iff fun h => Placement.Apart.symm h).1 ?_
  exact hsorted.imp fun h => Or.inl h

/-! ## Names -/

theorem checked_of_checkPlacements {typeName : String} : ∀ {ps : List Placement}
    {earlier : List String}, checkPlacements typeName earlier ps = .ok () →
    (∀ p ∈ ps, p.name ∉ earlier) ∧ (ps.map Placement.name).Nodup ∧ ∀ p ∈ ps, p.check = .ok ()
  | [], _, _ => by simp
  | p :: rest, earlier, h => by
    unfold checkPlacements at h
    split at h
    · cases h
    rename_i hnew
    rw [List.contains_iff_mem] at hnew
    split at h
    · cases h
    rename_i hok
    obtain ⟨hfresh, hnodup, hchecks⟩ := checked_of_checkPlacements h
    refine ⟨?_, ?_, ?_⟩
    · intro q hq
      rcases List.mem_cons.1 hq with rfl | hq
      · exact hnew
      · exact fun hmem => hfresh q hq (List.mem_cons_of_mem _ hmem)
    · refine List.nodup_cons.2 ⟨?_, hnodup⟩
      intro hmem
      obtain ⟨q, hq, hname⟩ := List.mem_map.1 hmem
      exact hfresh q hq (hname ▸ List.mem_cons_self)
    · intro q hq
      rcases List.mem_cons.1 hq with rfl | hq
      · exact hok
      · exact hchecks q hq

theorem stop_le_extentOf {ps : List Placement} {p : Placement} (h : p ∈ ps) :
    p.stop ≤ extentOf ps := by
  have hgrow : ∀ (qs : List Placement) (n : Nat),
      n ≤ qs.foldl (fun extent q => max extent q.stop) n ∧
        ∀ q ∈ qs, q.stop ≤ qs.foldl (fun extent q => max extent q.stop) n := by
    intro qs
    induction qs with
    | nil => simp
    | cons q qs ih =>
      intro n
      obtain ⟨hn, hqs⟩ := ih (max n q.stop)
      refine ⟨Nat.le_trans (Nat.le_max_left ..) hn, ?_⟩
      intro r hr
      rcases List.mem_cons.1 hr with rfl | hr
      · exact Nat.le_trans (Nat.le_max_right ..) hn
      · exact hqs r hr
  exact (hgrow ps 0).2 p h

/-! ## The whole build -/

namespace Schema

/-- The layout of a schema that was built under some overrides. -/
structure LaidOut (rules : ViewRules) (s : Schema) : Prop where
  names : (s.members.map Member.name).Nodup
  checked : ∀ m ∈ s.members, m.placement.Checked
  apart : s.members.Pairwise fun m n => m.placement.Apart n.placement
  within : ∀ m ∈ s.members, m.placement.stop ≤ s.totalSize
  chosen : ∀ m ∈ s.members, Kind.ofPlacement rules s.settings m.placement = .ok m.kind
  bound : ∀ m ∈ s.members, m.binding = s.outline.bind m.name

/-- No member is longer than the record. -/
theorem LaidOut.footprint_le {rules : ViewRules} {s : Schema} (hs : s.LaidOut rules) {m : Member}
    (hm : m ∈ s.members) : m.placement.footprint ≤ s.totalSize :=
  Nat.le_trans (Nat.le_add_left ..) (hs.within m hm)

/-- A property of a schema and of all schemas nested in it. -/
inductive Hereditarily (P : Schema → Prop) : Schema → Prop
  | intro {s : Schema} (here : P s)
      (nested : ∀ m ∈ s.members, ∀ t, m.placement.nested = some t → Hereditarily P t) :
      Hereditarily P s

theorem Hereditarily.mono {P Q : Schema → Prop} (hpq : ∀ s, P s → Q s) {s : Schema}
    (h : Hereditarily P s) : Hereditarily Q s := by
  induction h with
  | intro here _ ih => exact .intro (hpq _ here) ih

end Schema

namespace Blueprint

theorem members_eq {b : Blueprint} : ∀ {ps : List Placement} {ms : List Member},
    b.members ps = .ok ms →
    ms.map Member.placement = ps ∧ ∀ m ∈ ms, b.member m.placement = .ok m
  | [], ms, h => by
    cases h
    simp
  | p :: rest, ms, h => by
    unfold members at h
    rcases hm : b.member p with _ | m <;> simp only [hm] at h
    · cases h
    rcases hms : b.members rest with _ | later <;> simp only [hms, Except.map] at h
    · cases h
    cases h
    obtain ⟨hplaces, hmembers⟩ := members_eq hms
    have hp : m.placement = p := by
      unfold member at hm
      rcases hk : Kind.ofPlacement b.rules b.settings p with _ | kind <;>
        simp only [hk, Except.map] at hm
      · cases hm
      cases hm
      rfl
    refine ⟨by rw [List.map_cons, hp, hplaces], ?_⟩
    intro n hn
    rcases List.mem_cons.1 hn with rfl | hn
    · rw [hp, hm]
    · exact hmembers n hn

/-- What the stages of a build have found when it succeeds. -/
structure Stages (b : Blueprint) (ps : List Placement) (s : Schema) : Prop where
  fields : firstRepeated [] (b.shape.fields.map Field.name) = none
  laidOut : b.layOut = .ok ps
  checked : checkPlacements b.typeName [] ps = .ok ()
  disjoint : checkDisjoint b.typeName ps = .ok ()
  size : b.sizeFor (extentOf ps) = .ok s.totalSize
  members : b.members ps = .ok s.members
  name : s.name = b.typeName
  outline : s.outline = b.shape.outline
  settings : s.settings = b.settings

/-- A build succeeds stage by stage. -/
theorem stages_of_build {b : Blueprint} {s : Schema} (h : b.build = .ok s) :
    ∃ ps, b.Stages ps s := by
  simp only [build, bind, Except.bind, pure, Except.pure] at h
  split at h
  · cases h
  rename_i hfields
  have hfields : firstRepeated [] (b.shape.fields.map Field.name) = none :=
    Option.eq_none_iff_forall_ne_some.2 hfields
  rcases hlay : b.layOut with _ | ps <;> simp only [hlay] at h
  · cases h
  rcases hchecks : checkPlacements b.typeName [] ps with _ | _ <;> simp only [hchecks] at h
  · cases h
  rcases happart : checkDisjoint b.typeName ps with _ | _ <;> simp only [happart] at h
  · cases h
  rcases hsize : b.sizeFor (extentOf ps) with _ | size <;> simp only [hsize] at h
  · cases h
  rcases hmembers : b.members ps with _ | ms <;> simp only [hmembers] at h
  · cases h
  cases h
  exact ⟨ps, hfields, hlay, hchecks, happart, hsize, hmembers, rfl, rfl, rfl⟩

namespace Stages

variable {b : Blueprint} {ps : List Placement} {s : Schema}

theorem placements (h : b.Stages ps s) : s.members.map Member.placement = ps :=
  (members_eq h.members).1

theorem mem_placements (h : b.Stages ps s) {m : Member} (hm : m ∈ s.members) :
    m.placement ∈ ps := h.placements ▸ List.mem_map_of_mem hm

theorem names (h : b.Stages ps s) : s.members.map Member.name = ps.map Placement.name := by
  rw [← h.placements, List.map_map]
  rfl

theorem check (h : b.Stages ps s) {m : Member} (hm : m ∈ s.members) :
    m.placement.check = .ok () :=
  (checked_of_checkPlacements h.checked).2.2 _ (h.mem_placements hm)

theorem extent_le (h : b.Stages ps s) : extentOf ps ≤ s.totalSize := by
  have hsize := h.size
  unfold sizeFor at hsize
  split at hsize
  · split at hsize
    · cases hsize
    · have := Except.ok.inj hsize
      omega
  · exact Nat.le_of_eq (Except.ok.inj hsize)

/-- Codec and binding of a member are the chosen ones. -/
theorem member (h : b.Stages ps s) {m : Member} (hm : m ∈ s.members) :
    Kind.ofPlacement b.rules b.settings m.placement = .ok m.kind ∧
      m.binding = b.shape.outline.bind m.name := by
  have hmember := (members_eq h.members).2 m hm
  unfold Blueprint.member at hmember
  rcases hk : Kind.ofPlacement b.rules b.settings m.placement with _ | kind <;>
    simp only [hk, Except.map] at hmember
  · cases hmember
  have hm' := Except.ok.inj hmember
  exact ⟨congrArg (Except.ok ∘ Member.kind) hm', (congrArg Member.binding hm').symm⟩

end Stages

/-- **A built schema is laid out.** -/
theorem laidOut_of_build {b : Blueprint} {s : Schema} (h : b.build = .ok s) :
    s.LaidOut b.rules ∧ s.outline = b.shape.outline ∧ s.settings = b.settings := by
  obtain ⟨ps, hs⟩ := stages_of_build h
  obtain ⟨-, hnodup, -⟩ := checked_of_checkPlacements hs.checked
  refine ⟨⟨?_, ?_, ?_, ?_, ?_, ?_⟩, hs.outline, hs.settings⟩
  · rw [hs.names]
    exact hnodup
  · exact fun m hm => Placement.checked_of_check (hs.check hm)
  · rw [← List.pairwise_map, hs.placements]
    exact apart_of_checkDisjoint hs.disjoint
  · exact fun m hm => Nat.le_trans (stop_le_extentOf (hs.mem_placements hm)) hs.extent_le
  · rw [hs.settings]
    exact fun m hm => (hs.member hm).1
  · rw [hs.outline]
    exact fun m hm => (hs.member hm).2

end Blueprint

/-! ## Codecs suit their windows -/

/-- Width of the windows of an integer. -/
def IsWordWidth (width : Nat) : Prop := width ∈ [1, 2, 4, 8]

theorem IsWordWidth.pos {width : Nat} (h : IsWordWidth width) : 0 < width := by
  simp only [IsWordWidth, List.mem_cons, List.not_mem_nil, or_false] at h
  omega

theorem IsWordWidth.le_eight {width : Nat} (h : IsWordWidth width) : width ≤ 8 := by
  simp only [IsWordWidth, List.mem_cons, List.not_mem_nil, or_false] at h
  omega

/-- What the choice of a codec ensures about the width of its windows. -/
def Scalar.Suits (width : Nat) : Scalar → Prop
  | bool => 0 < width
  | integer _ | enumeration _ | timestamp _ | duration _ => IsWordWidth width
  | float => width = 4 ∨ width = 8
  | varyingText _ | varyingBytes => width = Handle.width
  | fixedText _ | bitField | raw => True

/-- A codec of one element suits its windows; a nested record is the stated one. -/
def Element.Suits (nested : Option Schema) (width : Nat) : Element → Prop
  | scalar codec => codec.Suits width
  | record schema => nested = some schema

/-- A codec of a member suits its windows. -/
def Kind.Suits (p : Placement) : Kind → Prop
  | single element => element.Suits p.nested p.footprint
  | array element => p.isVarying = false ∧ element.Suits p.nested p.elementWidth

namespace Placement

/-- Bytes of the window of one element. -/
def elementWindow (p : Placement) : Nat := if p.isVarying then Handle.width else p.elementWidth

theorem isVarying_of_pos {p : Placement} (h : 0 < p.size) : p.isVarying = false := by
  simp only [isVarying, decide_eq_false_iff_not]
  omega

theorem elementWindow_of_pos {p : Placement} (h : 0 < p.size) :
    p.elementWindow = p.size.toNat := by
  rw [elementWindow, isVarying_of_pos h]
  rfl

theorem elementWindow_of_varying {p : Placement} (h : p.isVarying = true) :
    p.elementWindow = Handle.width := if_pos h

theorem footprint_of_not_isArray {p : Placement} (ha : p.isArray = false) :
    p.footprint = p.elementWindow := by
  cases hv : p.isVarying with
  | true => rw [footprint_of_varying hv, elementWindow_of_varying hv]
  | false => rw [footprint_of_single ha hv, elementWindow, hv, if_neg Bool.false_ne_true]

theorem isWordWidth_elementWindow {p : Placement} (h : Element.isIntegerWidth p.size = true) :
    IsWordWidth p.elementWindow := by
  have hsize : p.size = 1 ∨ p.size = 2 ∨ p.size = 4 ∨ p.size = 8 := by
    simpa [Element.isIntegerWidth] using h
  rw [elementWindow_of_pos (by omega)]
  rcases hsize with hs | hs | hs | hs <;> simp [hs, IsWordWidth]

end Placement

namespace Element

theorem suits_fallback (p : Placement) : (fallback p).Suits p.nested p.elementWindow := by
  unfold fallback
  split
  · rename_i hv
    exact Placement.elementWindow_of_varying hv
  · trivial

/-- A codec of words is chosen at a width of words only. -/
theorem suits_of_fits {p : Placement} {codec : Scalar}
    (h : ∀ width, IsWordWidth width → codec.Suits width) :
    (if isIntegerWidth p.size then scalar codec else fallback p).Suits
      p.nested p.elementWindow := by
  split
  · rename_i hfits
    exact h _ (Placement.isWordWidth_elementWindow hfits)
  · exact suits_fallback p

theorem suits_of_choose {p : Placement} {settings : Settings} {view : View} {element : Element}
    (h : choose p settings view = .ok element) (hv : element.isVarying = p.isVarying) :
    element.Suits p.nested p.elementWindow := by
  have hvarying : element.isVarying = true → p.elementWindow = Handle.width :=
    fun he => Placement.elementWindow_of_varying (hv ▸ he)
  unfold choose at h
  dsimp only at h
  split at h
  case h_1 =>
    cases h
    split
    · rename_i hpos
      change 0 < p.elementWindow
      rw [Placement.elementWindow_of_pos hpos]
      omega
    · exact suits_fallback p
  case h_2 =>
    cases h
    exact suits_of_fits fun _ hw => hw
  case h_3 =>
    cases h
    split
    · rename_i hsize
      have hsize : p.size = 4 ∨ p.size = 8 := by simpa using hsize
      change p.elementWindow = 4 ∨ p.elementWindow = 8
      rw [Placement.elementWindow_of_pos (by omega)]
      omega
    · exact suits_fallback p
  case h_4 =>
    cases h
    split
    · rename_i hp
      exact Placement.elementWindow_of_varying hp
    · trivial
  case h_5 =>
    split at h
    · split at h
      · rename_i hfits
        cases h
        exact Placement.isWordWidth_elementWindow hfits
      · cases h
    · cases h
      split
      · rename_i hfits
        exact Placement.isWordWidth_elementWindow hfits
      · trivial
  case h_6 =>
    cases h
    trivial
  case h_7 =>
    cases h
    exact suits_of_fits fun _ hw => hw
  case h_8 =>
    cases h
    exact suits_of_fits fun _ hw => hw
  case h_9 =>
    split at h
    · rename_i hnested
      cases h
      exact hnested
    · cases h
      trivial
  all_goals
    cases h
    exact suits_fallback p

/-- A codec of variable length meets a member of variable length only. -/
theorem choose_of_ofView {p : Placement} {settings : Settings} {view : View} {element : Element}
    (h : ofView p settings view = .ok element) :
    choose p settings view = .ok element ∧ element.isVarying = p.isVarying := by
  unfold ofView at h
  rcases hc : choose p settings view with _ | e <;> simp only [hc] at h
  · cases h
  split at h
  · rename_i hv
    cases h
    exact ⟨rfl, hv⟩
  · cases h

theorem suits_of_ofView {p : Placement} {settings : Settings} {view : View} {element : Element}
    (h : ofView p settings view = .ok element) : element.Suits p.nested p.elementWindow :=
  suits_of_choose (choose_of_ofView h).1 (choose_of_ofView h).2

theorem suits_of_isRaw {element : Element} (h : element.isRaw = true) (nested : Option Schema)
    (width : Nat) : element.Suits nested width := by
  unfold isRaw at h
  split at h
  · trivial
  · cases h

end Element

namespace Kind

/-- The kind of a member comes from a view of one element. -/
theorem exists_ofView {rules : ViewRules} {settings : Settings} {p : Placement} {kind : Kind}
    (h : ofPlacement rules settings p = .ok kind) :
    ∃ view element, Element.ofView p settings view = .ok element ∧
      (p.isArray = true ∧ kind = .array element ∨
        p.isArray = true ∧ element.isRaw = true ∧ kind = .single element ∨
        p.isArray = false ∧ kind = .single element) ∧
      (p.view rules = view ∨ ∃ rank, p.view rules = .array view rank) := by
  unfold ofPlacement at h
  split at h
  · rename_i ha
    split at h
    · rename_i view rank hview
      rcases he : Element.ofView p settings view with _ | element <;>
        simp only [he, Except.map] at h
      · cases h
      cases h
      exact ⟨view, element, he, .inl ⟨ha, rfl⟩, .inr ⟨rank, hview⟩⟩
    · rcases he : Element.ofView p settings (p.view rules) with _ | element <;>
        simp only [he, Except.map] at h
      · cases h
      cases h
      refine ⟨_, element, he, ?_, .inl rfl⟩
      split
      · rename_i hraw
        exact .inr (.inl ⟨ha, hraw, rfl⟩)
      · exact .inl ⟨ha, rfl⟩
  · rename_i ha
    rcases he : Element.ofView p settings (p.view rules) with _ | element <;>
      simp only [he, Except.map] at h
    · cases h
    cases h
    exact ⟨_, element, he, .inr (.inr ⟨by simpa using ha, rfl⟩), .inl rfl⟩

/-- **A chosen codec suits the width of its windows.** -/
theorem suits {rules : ViewRules} {settings : Settings} {p : Placement} {kind : Kind}
    (hc : p.Checked) (h : ofPlacement rules settings p = .ok kind) : kind.Suits p := by
  obtain ⟨view, element, he, hkind, -⟩ := exists_ofView h
  have hsuits := Element.suits_of_ofView he
  rcases hkind with ⟨ha, rfl⟩ | ⟨ha, hraw, rfl⟩ | ⟨ha, rfl⟩
  · have hv := hc.fixed ha
    refine ⟨hv, ?_⟩
    rwa [Placement.elementWindow, hv, if_neg Bool.false_ne_true] at hsuits
  · exact Element.suits_of_isRaw hraw _ _
  · rwa [← Placement.footprint_of_not_isArray ha] at hsuits

end Kind

/-! ## Nested records without overrides -/

namespace View

theorem class_of_compound {c : StorageClass} {size : Int} {meaning : Option Meaning}
    (h : ofElement c size meaning = compound) : c = .compound ∧ 0 < size := by
  unfold ofElement at h
  split at h
  · cases h
  split at h
  · split at h
    · cases h
    · cases h
    · split at h <;> cases h
  · split at h <;> cases h
  · cases h
  · cases h
  · cases h
  · split at h <;> cases h
  · cases h
  · split at h
    · rename_i hpos
      exact ⟨rfl, hpos⟩
    · cases h
  · cases h

theorem ofElement_ne_array (c : StorageClass) (size : Int) (meaning : Option Meaning)
    (view : View) (rank : Nat) : ofElement c size meaning ≠ array view rank := by
  intro h
  unfold ofElement at h
  split at h
  · cases h
  split at h
  · split at h
    · cases h
    · cases h
    · split at h <;> cases h
  · split at h <;> cases h
  · cases h
  · cases h
  · cases h
  · split at h <;> cases h
  · cases h
  · split at h <;> cases h
  · cases h

/-- The default view of a member, or of its elements, is the one of its element. -/
theorem element_of_ofMember {c : StorageClass} {size : Int} {rank : Nat}
    {meaning : Option Meaning} {view : View} (hv : view ≠ unknown) (ha : ∀ e r, view ≠ array e r)
    (h : ofMember c size rank meaning = view ∨ ∃ r, ofMember c size rank meaning = array view r) :
    ofElement c size meaning = view := by
  unfold ofMember at h
  dsimp only at h
  split at h
  · rcases h with h | ⟨r, h⟩
    · exact h
    · exact (ofElement_ne_array _ _ _ _ _ h).elim
  split at h
  · rcases h with h | ⟨r, h⟩
    · exact absurd h.symm hv
    · cases h
  · rcases h with h | ⟨r, h⟩
    · exact absurd h.symm (ha _ _)
    · injection h

end View

theorem Element.view_of_record {p : Placement} {settings : Settings} {view : View}
    {schema : Schema} (h : ofView p settings view = .ok (record schema)) : view = .compound := by
  have hc := (choose_of_ofView h).1
  have hfallback : ∀ codec : Scalar, ∀ cond : Prop, [Decidable cond] →
      (if cond then scalar codec else fallback p) ≠ record schema := by
    intro codec cond _ he
    split at he
    · cases he
    · cases he
  unfold choose at hc
  dsimp only at hc
  split at hc
  case h_9 => rfl
  case h_5 =>
    split at hc
    · split at hc <;> cases hc
    · cases hc
  case h_4 => cases hc
  case h_6 => cases hc
  all_goals
    first
    | exact absurd (Except.ok.inj hc) (hfallback _ _)
    | cases hc

/-- A nested record is as long as the windows it is written to. -/
def Kind.Fills (p : Placement) : Kind → Prop
  | single (.record schema) => schema.totalSize = p.footprint
  | array (.record schema) => schema.totalSize = p.elementWidth
  | _ => True

theorem Placement.Checked.nested_fills {p : Placement} (hc : p.Checked) {schema : Schema}
    (hn : p.nested = some schema) (hclass : p.storageClass = .compound) (hpos : 0 < p.size) :
    schema.totalSize = p.elementWindow := by
  have hsize := hc.nested_size schema hn hclass
  rw [elementWindow_of_pos hpos]
  unfold sizeOfCount at hsize
  split at hsize <;> omega

/-- **Without overrides a nested record fills its windows.** -/
theorem Kind.fills {settings : Settings} {p : Placement} {kind : Kind} (hc : p.Checked)
    (h : ofPlacement {} settings p = .ok kind) : kind.Fills p := by
  obtain ⟨view, element, he, hkind, hview⟩ := exists_ofView h
  cases element with
  | scalar codec =>
    rcases hkind with ⟨-, rfl⟩ | ⟨-, -, rfl⟩ | ⟨-, rfl⟩ <;> trivial
  | record schema =>
    have hcompound := Element.view_of_record he
    subst hcompound
    have hdefault : p.view {} =
        View.ofMember p.storageClass p.size p.rank p.meaning := rfl
    rw [hdefault] at hview
    obtain ⟨hclass, hpos⟩ := View.class_of_compound
      (View.element_of_ofMember (by simp) (by simp) hview)
    have hnested : p.nested = some schema := Element.suits_of_ofView he
    have hfill := hc.nested_fills hnested hclass hpos
    rcases hkind with ⟨ha, rfl⟩ | ⟨-, hraw, -⟩ | ⟨ha, rfl⟩
    · rw [Placement.elementWindow, hc.fixed ha, if_neg Bool.false_ne_true] at hfill
      exact hfill
    · cases hraw
    · rw [← Placement.footprint_of_not_isArray ha] at hfill
      exact hfill

end PackedRecord
