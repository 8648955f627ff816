import PackedRecord.Proofs.PositionalRecords
import PackedRecord.Proofs.RecordBytes

/-!
# The order of stated members

Members may be stated in any order.  Each check of a build is a fact about the members one by one
or two by two.  A run over the members, writing or reading, is a fold whose steps change places:
two members of fixed length write bytes of their own and leave the heap alone, and two members
set values under names of their own.

* `foldlM_perm` — steps that may be taken in any order.
* `Blueprint.exists_build_perm` — a build with the stated members in another order.
* `writeMembers_append_eq_ok_iff`, `foldlM_put_perm` — writing, as a fold of such steps.
* `fill_eq_ok_iff`, `foldlM_receive_perm` — reading a map, likewise.
* `order_of_members_immaterial` — builds, raw records and maps in any order of the members.
-/

namespace PackedRecord

/-! ## Steps in any order -/

/-- **Steps of which any two may change places may be taken in any order.** -/
theorem foldlM_perm {α β : Type} {step : β → α → Option β} {Good : β → Prop} {as bs : List α}
    (h : as.Perm bs) (hgood : ∀ a ∈ as, ∀ b b', Good b → step b a = some b' → Good b')
    (hswap : as.Pairwise fun a a' => ∀ b, Good b →
      (step b a).bind (step · a') = (step b a').bind (step · a)) :
    ∀ b, Good b → as.foldlM step b = bs.foldlM step b := by
  induction h with
  | nil => exact fun _ _ => rfl
  | cons a h ih =>
    intro b hb
    obtain ⟨hfirst, hgood⟩ := List.forall_mem_cons.1 hgood
    have ih := ih hgood (List.pairwise_cons.1 hswap).2
    rw [List.foldlM_cons, List.foldlM_cons]
    cases hstep : step b a with
    | none => rfl
    | some b' => exact ih b' (hfirst b b' hb hstep)
  | swap a a' rest =>
    intro b hb
    have hpair := (List.pairwise_cons.1 hswap).1 a List.mem_cons_self b hb
    simp only [List.foldlM_cons, Option.bind_eq_bind]
    rw [← Option.bind_assoc, ← Option.bind_assoc, hpair]
  | @trans as cs bs h h' ih ih' =>
    intro b hb
    rw [ih hgood hswap b hb]
    refine ih' (fun a ha => hgood a (h.mem_iff.2 ha)) ?_ b hb
    exact h.pairwise hswap fun hsame b hb => (hsame b hb).symm

/-! ## Builds -/

theorem checkPlacements_eq_ok_iff {typeName : String} {ps : List Placement} :
    checkPlacements typeName [] ps = .ok () ↔
      (ps.map Placement.name).Nodup ∧ ∀ p ∈ ps, p.check = .ok () := by
  constructor
  · exact fun h => (checked_of_checkPlacements h).2
  · rintro ⟨hnames, hvalid⟩
    exact checkPlacements_of_valid hnames (fun _ _ => List.not_mem_nil) hvalid

/-- Of members with names and bytes of their own the check finds the overlaps. -/
theorem checkDisjoint_eq_ok_iff {typeName : String} {ps : List Placement}
    (hnames : (ps.map Placement.name).Nodup) (hvalid : ∀ p ∈ ps, p.check = .ok ()) :
    checkDisjoint typeName ps = .ok () ↔ ps.Pairwise Placement.Apart := by
  refine ⟨apart_of_checkDisjoint, fun hapart => ?_⟩
  cases h : checkDisjoint typeName ps with
  | ok _ => rfl
  | error e =>
    obtain ⟨p, hp, q, hq, hne, hcovers, hcovers', -⟩ := exists_overlap_of_checkDisjoint hnames
      (fun p hp => (Placement.checked_of_check (hvalid p hp)).footprint_pos) h
    have hpq : p ≠ q := fun h => hne (congrArg Placement.name h)
    have : Std.Symm Placement.Apart := ⟨fun _ _ h => h.symm⟩
    exact absurd ⟨_, hcovers, hcovers'⟩ (hapart.forall hp hq hpq).not_meets

theorem extentOf_perm {ps qs : List Placement} (h : ps.Perm qs) : extentOf ps = extentOf qs :=
  h.foldl_eq' (fun p _ q _ extent => by omega) 0

/-- The schemas differ in the order of the first members alone, which are those of some
placements. -/
structure Schema.Reordered (ps : List Placement) (s t : Schema) : Prop where
  outline : t.outline = s.outline
  totalSize : t.totalSize = s.totalSize
  settings : t.settings = s.settings
  members : ∃ ms ns rest, s.members = ms ++ rest ∧ t.members = ns ++ rest ∧ ms.Perm ns ∧
    ∀ m ∈ ms, m.placement ∈ ps

namespace Blueprint

/-- The blueprint with some stated placements. -/
def stating (b : Blueprint) (ps : List Placement) : Blueprint := { b with placements := some ps }

/-- Members are made one by one. -/
theorem members_eq_ok_iff {b : Blueprint} {ps : List Placement} {ms : List Member} :
    b.members ps = .ok ms ↔ List.Forall₂ (fun p m => b.member p = .ok m) ps ms := by
  have hmapM : ∀ ps, b.members ps = ps.mapM b.member := by
    intro ps
    induction ps with
    | nil => rfl
    | cons p ps ih =>
      rw [members, mapM_cons_eq, ih]
      cases b.member p <;> rfl
  rw [hmapM, mapM_eq_ok_iff]

/-- The members of the first placements, in another order of these. -/
theorem members_append_perm {b : Blueprint} {ps qs others : List Placement} (h : ps.Perm qs)
    {made : List Member} (hmade : b.members (ps ++ others) = .ok made) :
    ∃ ms ns rest, made = ms ++ rest ∧ b.members (qs ++ others) = .ok (ns ++ rest) ∧ ms.Perm ns ∧
      ∀ m ∈ ms, m.placement ∈ ps := by
  have hflip := (members_eq_ok_iff.1 hmade).flip
  rw [← List.take_append_drop ps.length made]
  have hms := (List.forall₂_take_append _ _ _ hflip).flip
  have hrest := (List.forall₂_drop_append _ _ _ hflip).flip
  obtain ⟨ns, hns, hperm⟩ := List.perm_comp_forall₂ h.symm hms
  refine ⟨_, ns, _, rfl, members_eq_ok_iff.2 (List.rel_append hns hrest), hperm.symm, ?_⟩
  intro m hm
  have hplaces := (members_eq (members_eq_ok_iff.2 hms)).1
  rw [← hplaces]
  exact List.mem_map_of_mem hm

/-- Fields that are laid out behind the stated members, whatever the order of these. -/
theorem layOut_perm {b : Blueprint} {ps qs : List Placement} (h : ps.Perm qs)
    {placed : List Placement} (hlay : (b.stating ps).layOut = .ok placed) :
    ∃ inferred, placed = ps ++ inferred ∧ (b.stating qs).layOut = .ok (qs ++ inferred) := by
  unfold layOut stating at *
  dsimp only at *
  have hany : ∀ f : Field, (qs.any fun p => p.name == f.name) = ps.any fun p => p.name == f.name :=
    fun f => by rw [Bool.eq_iff_iff, List.any_eq_true, List.any_eq_true]; simp only [h.mem_iff]
  simp only [hany, ← extentOf_perm h]
  split at hlay
  · rename_i hinfer
    rw [if_pos hinfer]
    cases hpack : packFields b.settings (extentOf ps)
        (b.shape.fields.filter fun f => !ps.any fun p => p.name == f.name) with
    | error e =>
      rw [hpack] at hlay
      cases hlay
    | ok inferred =>
      rw [hpack] at hlay
      cases hlay
      exact ⟨inferred, rfl, rfl⟩
  · rename_i hinfer
    cases hlay
    exact ⟨[], (List.append_nil _).symm, by rw [if_neg hinfer, List.append_nil]⟩

/-- **A build succeeds with the stated members in another order.** -/
theorem exists_build_perm {b : Blueprint} {ps qs : List Placement} (h : ps.Perm qs) {s : Schema}
    (hs : (b.stating ps).build = .ok s) :
    ∃ t, (b.stating qs).build = .ok t ∧ s.Reordered ps t := by
  obtain ⟨placed, hs⟩ := stages_of_build hs
  obtain ⟨inferred, rfl, hlay⟩ := layOut_perm h hs.laidOut
  have hperm : (ps ++ inferred).Perm (qs ++ inferred) := h.append_right inferred
  obtain ⟨hnames, hvalid⟩ := checkPlacements_eq_ok_iff.1 hs.checked
  have hnames' : ((qs ++ inferred).map Placement.name).Nodup := (hperm.map _).nodup_iff.1 hnames
  have hvalid' : ∀ q ∈ qs ++ inferred, q.check = .ok () :=
    fun q hq => hvalid q (hperm.mem_iff.2 hq)
  have hapart : (qs ++ inferred).Pairwise Placement.Apart :=
    hperm.pairwise (apart_of_checkDisjoint hs.disjoint) fun h => h.symm
  obtain ⟨ms, ns, rest, hsplit, hmembers, hsame, hplaces⟩ := members_append_perm h hs.members
  refine ⟨{ s with members := ns ++ rest }, build_of_stages (qs ++ inferred) ?_,
    rfl, rfl, rfl, ms, ns, rest, hsplit, rfl, hsame, hplaces⟩
  exact {
    fields := hs.fields
    laidOut := hlay
    checked := checkPlacements_eq_ok_iff.2 ⟨hnames', hvalid'⟩
    disjoint := (checkDisjoint_eq_ok_iff hnames' hvalid').2 hapart
    size := by
      rw [← extentOf_perm hperm]
      exact hs.size
    members := by
      rw [members_congr (show (b.stating qs).member = (b.stating ps).member from rfl)]
      exact hmembers
    name := hs.name
    outline := hs.outline
    settings := hs.settings }

end Blueprint

/-! ## Writing -/

section Heap

variable {σ : Type} [Heap σ]

/-- What a member of a map leaves of a buffer, if its value can be written. -/
def Member.put (σ : Type) [Heap σ] (order : ByteOrder) (r : Fields) (m : Member) (buffer : Bytes) :
    Option Bytes :=
  if m.isMapped then
    match (m.kind.write m.placement order ((Assoc.get? m.name r).getD .null)
        (none : Option σ)).1 with
    | .error _ => none
    | .ok window => some (splice buffer m.placement.offset window)
  else some buffer

/-- A member that does not look at the heap is written first, then the others are. -/
theorem writeMembers_cons_eq_ok_iff {order : ByteOrder} {r : Fields} {m : Member}
    (hdetached : ∀ v : Value, Detached (σ := σ) (m.kind.write m.placement order v))
    {rest : List Member} {position : Nat} {buffer out : Bytes} {heap after : Option σ} :
    writeMembers order (m :: rest) (RecordAccess.field? r) position buffer heap =
        (.ok out, after) ↔
      ∃ next, m.put σ order r buffer = some next ∧
        writeMembers order rest (RecordAccess.field? r) (position + 1) next heap =
          (.ok out, after) := by
  obtain ⟨p, kind, binding⟩ := m
  unfold Member.put Member.isMapped
  cases hb : binding.isBound with
  | false => simp [writeMembers_unbound hb]
  | true =>
    obtain ⟨result, hresult⟩ := hdetached ((Assoc.get? p.name r).getD .null)
    dsimp only at hresult
    have hwrite : kind.write p order ((RecordAccess.field? r p.name position).getD .null) heap =
        (result, heap) := hresult heap
    rw [writeMembers_bound hb]
    simp only [if_true, Member.name, hwrite, hresult none]
    cases result with
    | error e => simp
    | ok window => simp

/-- **A run over members that do not look at the heap** is a fold, from which the others go on. -/
theorem writeMembers_append_eq_ok_iff {order : ByteOrder} {r : Fields} {rest : List Member}
    {out : Bytes} {heap after : Option σ} : ∀ {ms : List Member} {position : Nat} {buffer : Bytes},
    (∀ m ∈ ms, ∀ v : Value, Detached (σ := σ) (m.kind.write m.placement order v)) →
    (writeMembers order (ms ++ rest) (RecordAccess.field? r) position buffer heap =
        (.ok out, after) ↔
      ∃ filled, ms.foldlM (fun buffer m => m.put σ order r buffer) buffer = some filled ∧
        writeMembers order rest (RecordAccess.field? r) (position + ms.length) filled heap =
          (.ok out, after))
  | [], position, buffer, _ => by simp
  | m :: ms, position, buffer, h => by
    obtain ⟨hfirst, hothers⟩ := List.forall_mem_cons.1 h
    rw [List.cons_append, writeMembers_cons_eq_ok_iff hfirst, List.foldlM_cons, List.length_cons,
      Nat.add_comm ms.length 1, ← Nat.add_assoc]
    simp only [writeMembers_append_eq_ok_iff hothers, Option.bind_eq_bind, Option.bind_eq_some_iff]
    constructor
    · rintro ⟨next, hnext, filled, hfilled, hrest⟩
      exact ⟨filled, ⟨next, hnext, hfilled⟩, hrest⟩
    · rintro ⟨filled, ⟨next, hnext, hfilled⟩, hrest⟩
      exact ⟨next, hnext, filled, hfilled, hrest⟩

/-- Windows that lie apart are spliced in any order. -/
theorem splice_comm {p q : Placement} (hapart : p.Apart q) {buffer window other : Bytes}
    (hlen : window.length = p.footprint) (hlen' : other.length = q.footprint)
    (hp : p.stop ≤ buffer.length) (hq : q.stop ≤ buffer.length) :
    splice (splice buffer p.offset window) q.offset other =
      splice (splice buffer q.offset other) p.offset window := by
  unfold Placement.stop at hp hq
  have hsplice : (splice buffer p.offset window).length = buffer.length := length_splice (by omega)
  have hsplice' : (splice buffer q.offset other).length = buffer.length := length_splice (by omega)
  unfold Placement.Apart Placement.stop at hapart
  refine List.ext_getElem? fun i => ?_
  rw [getElem?_splice (by omega), getElem?_splice (by omega), getElem?_splice (by omega),
    getElem?_splice (by omega)]
  split_ifs <;> first | rfl | omega

section Records

variable {order : ByteOrder} {r : Fields} (hr : ProperValues (RecordAccess.field? r))
  {m n : Member}

include hr

namespace Member

/-- A member refuses every buffer, leaves every buffer alone, or splices its window. -/
theorem put_cases (hm : m.Spanning σ order) :
    (∀ buffer, m.put σ order r buffer = none) ∨ (∀ buffer, m.put σ order r buffer = some buffer) ∨
    ∃ window : Bytes, window.length = m.placement.footprint ∧
      ∀ buffer, m.put σ order r buffer = some (splice buffer m.placement.offset window) := by
  unfold put
  cases m.isMapped with
  | false => exact .inr (.inl fun _ => rfl)
  | true =>
    have hspan := hm _ (hr.getD m.name 0) none
    change Codec.Spans _ (m.kind.write m.placement order ((Assoc.get? m.name r).getD .null) none).1
      at hspan
    cases hwrite : (m.kind.write m.placement order ((Assoc.get? m.name r).getD .null)
        (none : Option σ)).1 with
    | error e => exact .inl fun _ => rfl
    | ok window => exact .inr (.inr ⟨window, hspan window hwrite, fun _ => rfl⟩)

theorem length_of_put (hm : m.Spanning σ order) {buffer next : Bytes}
    (hstop : m.placement.stop ≤ buffer.length) (h : m.put σ order r buffer = some next) :
    next.length = buffer.length := by
  rcases put_cases hr hm with hput | hput | ⟨window, hlen, hput⟩ <;> rw [hput] at h <;> cases h
  · rfl
  · exact length_splice (hlen ▸ hstop)

/-- **Members that lie apart are written in any order.** -/
theorem put_swap (hm : m.Spanning σ order) (hn : n.Spanning σ order)
    (hapart : m.placement.Apart n.placement) {buffer : Bytes}
    (hstop : m.placement.stop ≤ buffer.length) (hstop' : n.placement.stop ≤ buffer.length) :
    (m.put σ order r buffer).bind (n.put σ order r) =
      (n.put σ order r buffer).bind (m.put σ order r) := by
  rcases put_cases hr hm with hput | hput | ⟨window, hlen, hput⟩ <;>
    rcases put_cases hr hn with hput' | hput' | ⟨other, hlen', hput'⟩ <;>
    simp only [hput, hput', Option.bind_none, Option.bind_some]
  rw [splice_comm hapart hlen hlen' hstop hstop']

end Member

/-- **Members within a buffer that lie apart leave the same bytes in any order.** -/
theorem foldlM_put_perm {ms ns : List Member} (h : ms.Perm ns) {buffer : Bytes}
    (hwithin : ∀ m ∈ ms, m.Spanning σ order ∧ m.placement.stop ≤ buffer.length)
    (hapart : ms.Pairwise fun m n => m.placement.Apart n.placement) :
    ms.foldlM (fun buffer m => m.put σ order r buffer) buffer =
      ns.foldlM (fun buffer m => m.put σ order r buffer) buffer := by
  -- No step changes the length of the buffer.
  have hgood : ∀ m ∈ ms, ∀ last next : Bytes, last.length = buffer.length →
      m.put σ order r last = some next → next.length = buffer.length := by
    intro m hm last next hlen hput
    obtain ⟨hspan, hstop⟩ := hwithin m hm
    exact (Member.length_of_put hr hspan (hstop.trans hlen.ge) hput).trans hlen
  have hswap : ms.Pairwise fun m n => ∀ last : Bytes, last.length = buffer.length →
      (m.put σ order r last).bind (n.put σ order r) =
        (n.put σ order r last).bind (m.put σ order r) := by
    refine hapart.imp_of_mem fun {m n} hm hn hapart last hlen => ?_
    obtain ⟨hspan, hstop⟩ := hwithin m hm
    obtain ⟨hspan', hstop'⟩ := hwithin n hn
    exact Member.put_swap hr hspan hspan' hapart (hstop.trans hlen.ge) (hstop'.trans hlen.ge)
  exact foldlM_perm h hgood hswap buffer rfl

end Records

/-! ## Reading -/

/-- The map with the value of a member, if its window can be read. -/
def Member.receive (order : ByteOrder) (buffer : Bytes) (heap : Option σ) (m : Member)
    (acc : Fields) : Option Fields :=
  if m.isMapped then
    match m.kind.read m.placement order (m.placement.window buffer) heap with
    | .error _ => none
    | .ok v => some (Assoc.insert m.name v acc)
  else some acc

section Maps

variable {order : ByteOrder} {buffer : Bytes} {heap : Option σ}

/-- **A map is read** by a fold over the members. -/
theorem fill_eq_ok_iff {r : Fields} : ∀ {ms : List Member} {position : Nat} {acc : Fields},
    fill (readMembers false order buffer heap ms position) acc = .ok r ↔
      ms.foldlM (fun acc m => m.receive order buffer heap acc) acc = some r
  | [], position, acc => by simp [readMembers, fill]
  | ⟨p, kind, binding⟩ :: rest, position, acc => by
    rw [List.foldlM_cons, readMembers, Member.receive, Member.isMapped]
    cases binding.isBound with
    | false => exact fill_eq_ok_iff
    | true =>
      simp only [if_true, fill]
      cases kind.read p order (p.window buffer) heap with
      | error e => simp
      | ok v => exact fill_eq_ok_iff

namespace Member

variable {m n : Member} {acc : Fields}

theorem ascending_of_receive {next : Fields} (hacc : Assoc.Ascending acc)
    (h : m.receive order buffer heap acc = some next) : Assoc.Ascending next := by
  unfold receive at h
  split at h
  · split at h
    · cases h
    · cases h
      exact Assoc.ascending_insert hacc ..
  · cases h
    exact hacc

/-- **Members with names of their own are read in any order.** -/
theorem receive_swap (hname : m.name ≠ n.name) (hacc : Assoc.Ascending acc) :
    (m.receive order buffer heap acc).bind (n.receive order buffer heap) =
      (n.receive order buffer heap acc).bind (m.receive order buffer heap) := by
  unfold receive
  cases m.isMapped <;> cases n.isMapped <;>
    cases m.kind.read m.placement order (m.placement.window buffer) heap <;>
    cases n.kind.read n.placement order (n.placement.window buffer) heap <;>
    simp only [if_true, Bool.false_eq_true, if_false, Option.bind_none, Option.bind_some]
  rw [Assoc.insert_comm hacc hname]

end Member

/-- **Members with names of their own are read to the same map in any order.** -/
theorem foldlM_receive_perm {ms ns : List Member} (h : ms.Perm ns)
    (hnames : (ms.map Member.name).Nodup) {acc : Fields} (hacc : Assoc.Ascending acc) :
    ms.foldlM (fun acc m => m.receive order buffer heap acc) acc =
      ns.foldlM (fun acc m => m.receive order buffer heap acc) acc := by
  have hgood : ∀ m ∈ ms, ∀ last next : Fields, Assoc.Ascending last →
      m.receive order buffer heap last = some next → Assoc.Ascending next :=
    fun m _ last next => Member.ascending_of_receive
  have hswap : ms.Pairwise fun m n => ∀ last : Fields, Assoc.Ascending last →
      (m.receive order buffer heap last).bind (n.receive order buffer heap) =
        (n.receive order buffer heap last).bind (m.receive order buffer heap) :=
    (List.pairwise_map.1 hnames).imp fun hname _ hlast => Member.receive_swap hname hlast
  exact foldlM_perm h hgood hswap acc hacc

end Maps

/-! ## Whole records -/

/-- The placement holds no data of variable length, at any depth. -/
def Placement.FixedLength (p : Placement) : Prop :=
  p.isVarying = false ∧ ∀ t, p.nested = some t → t.FixedLength

namespace Schema.Reordered

variable {rules : ViewRules} {ps : List Placement} {s t : Schema}

/-- **Records are written alike** if the members that change places are of fixed length. -/
theorem pack_eq_ok_iff (h : s.Reordered ps t) (hl : s.LaidOut rules) (hsize : s.totalSize < 2 ^ 63)
    (hn : ∀ p ∈ ps, ∀ u, p.nested = some u → u.Built) (hfixed : ∀ p ∈ ps, p.FixedLength)
    {r : Fields} (hr : ProperValues (RecordAccess.field? r)) {bytes : Bytes}
    {heap after : Option σ} :
    s.pack r heap = (.ok bytes, after) ↔ t.pack r heap = (.ok bytes, after) := by
  obtain ⟨-, hsize', hsettings, ms, ns, rest, hms, hns, hperm, hplaces⟩ := h
  have hmem : ∀ m ∈ ms, m ∈ s.members := fun m hm => hms ▸ List.mem_append_left rest hm
  have hwithin : ∀ m ∈ ms, m.Spanning σ s.settings.byteOrder ∧
      m.placement.stop ≤ (Codec.zeros s.totalSize).length := fun m hm =>
    ⟨hl.spanning hsize (hmem m hm) (hn _ (hplaces m hm)) _,
      (hl.within m (hmem m hm)).trans List.length_replicate.ge⟩
  have hdetached : ∀ m ∈ ms, ∀ v : Value,
      Detached (σ := σ) (m.kind.write m.placement s.settings.byteOrder v) := by
    intro m hm
    obtain ⟨hvarying, hnested⟩ := hfixed _ (hplaces m hm)
    exact hl.detached (hmem m hm) (hn _ (hplaces m hm)) ⟨hvarying, fun u hu =>
      hnested u (Kind.nested_of_element (hl.chosen m (hmem m hm)) hu)⟩ _
  have hapart : ms.Pairwise fun m n => m.placement.Apart n.placement :=
    (List.pairwise_append.1 (hms ▸ hl.apart)).1
  rw [pack_eq, pack_eq, hms, hns, hsettings, hsize', writeMembers_append_eq_ok_iff hdetached,
    writeMembers_append_eq_ok_iff fun n hn => hdetached n (hperm.mem_iff.2 hn),
    foldlM_put_perm hr hperm hwithin hapart, hperm.length_eq]

/-- **Maps are read alike.** -/
theorem unpack_eq_ok_iff (h : s.Reordered ps t) (hl : s.LaidOut rules)
    (hmap : s.isPositional = false) {bytes : Bytes} {heap : Option σ} {r : Fields} :
    s.unpack Fields bytes heap = .ok r ↔ t.unpack Fields bytes heap = .ok r := by
  obtain ⟨houtline, hsize, hsettings, ms, ns, rest, hms, hns, hperm, -⟩ := h
  have hmap' : t.isPositional = false := by rw [isPositional, houtline]; exact hmap
  by_cases hlen : bytes.length = s.totalSize
  swap
  · rw [unpack_of_ne hlen, unpack_of_ne (hsize ▸ hlen)]
    constructor <;> intro h <;> cases h
  have hmembers : s.members.Perm t.members := by
    rw [hms, hns]
    exact hperm.append_right rest
  rw [unpack_eq _ hlen, unpack_eq _ (hsize ▸ hlen), hmap, hmap', hsettings, fill_eq_ok_iff,
    fill_eq_ok_iff, foldlM_receive_perm hmembers hl.names Assoc.ascending_nil]

end Schema.Reordered

end Heap

/-- **The order of the stated members does not matter** if they are of fixed length.  Schemas for
maps are built for both orders or for neither, of the same size.  If records of that size can be
allocated, a map is written to the same raw record, leaving the same heap, or by neither schema; and
a raw record is read as the same map, or by neither.  Fields that are laid out behind the stated
members may be of any type.  Below the bound for that the exact sums and products of sizes are those
of machine words. -/
theorem order_of_members_immaterial (b : Blueprint) (fs : List Field) {ps qs : List Placement}
    (hperm : ps.Perm qs) (hn : ∀ p ∈ ps, ∀ u, p.nested = some u → u.Built)
    (hfixed : ∀ p ∈ ps, p.FixedLength) :
    ((∃ s, ((b.forMap fs).stating ps).build = .ok s) ↔
      ∃ t, ((b.forMap fs).stating qs).build = .ok t) ∧
    ∀ s t, ((b.forMap fs).stating ps).build = .ok s → ((b.forMap fs).stating qs).build = .ok t →
      t.totalSize = s.totalSize ∧
      ∀ (σ : Type) [Heap σ] (heap : Option σ),
        (s.totalSize < 2 ^ 63 → ∀ r : Fields, ProperValues (RecordAccess.field? r) →
          ∀ bytes after, s.pack r heap = (.ok bytes, after) ↔ t.pack r heap = (.ok bytes, after)) ∧
        ∀ (bytes : Bytes) (r : Fields),
          s.unpack Fields bytes heap = .ok r ↔ t.unpack Fields bytes heap = .ok r := by
  refine ⟨⟨?_, ?_⟩, fun s t hs ht => ?_⟩
  · rintro ⟨s, hs⟩
    obtain ⟨t, ht, -⟩ := Blueprint.exists_build_perm hperm hs
    exact ⟨t, ht⟩
  · rintro ⟨t, ht⟩
    obtain ⟨s, hs, -⟩ := Blueprint.exists_build_perm hperm.symm ht
    exact ⟨s, hs⟩
  · obtain ⟨t', ht', hreordered⟩ := Blueprint.exists_build_perm hperm hs
    obtain rfl : t' = t := Except.ok.inj (ht'.symm.trans ht)
    obtain ⟨hl, houtline, -⟩ := Blueprint.laidOut_of_build hs
    have hmap : s.isPositional = false := by
      rw [Schema.isPositional, houtline]
      rfl
    refine ⟨hreordered.totalSize, fun σ _ heap => ⟨fun hsize r hr bytes after => ?_, ?_⟩⟩
    · exact hreordered.pack_eq_ok_iff hl hsize hn hfixed hr
    · exact fun bytes r => hreordered.unpack_eq_ok_iff hl hmap

/-- The members of a tray from the last to the first. -/
theorem order_of_members_immaterial_tray :
    trayPlacements.Perm trayPlacements.reverse ∧
    ∃ t, ((trayBlueprint.forMap trayBlueprint.shape.fields).stating trayPlacements.reverse).build =
        .ok t ∧
      t.members.map Member.name = ["spare", "count", "slots"] ∧ t.totalSize = 16 ∧
      ∃ (bytes : Bytes) (after : Option TransientStore),
        traySchema.pack (trayRecord (.fields [("x", .number (.int 1))]) .null) none =
          (.ok bytes, after) ∧
        t.pack (trayRecord (.fields [("x", .number (.int 1))]) .null) none = (.ok bytes, after) ∧
        ∀ r, traySchema.unpack Fields bytes after = .ok r ↔
          t.unpack Fields bytes after = .ok r := by
  have hperm : trayPlacements.Perm trayPlacements.reverse := (List.reverse_perm _).symm
  have hnested : ∀ p ∈ trayPlacements, p.isVarying = false ∧
      ∀ u, p.nested = some u → u = slotSchema := by
    intro p hp
    simp only [trayPlacements, List.mem_cons, List.not_mem_nil, or_false] at hp
    rcases hp with rfl | rfl | rfl <;> refine ⟨rfl, fun u hu => ?_⟩ <;> cases hu
    rfl
  obtain ⟨-, hrecords⟩ := order_of_members_immaterial trayBlueprint trayBlueprint.shape.fields hperm
    (fun p hp u hu => (hnested p hp).2 u hu ▸ built_slotSchema)
    fun p hp => ⟨(hnested p hp).1, fun u hu => (hnested p hp).2 u hu ▸ fixedLength_slotSchema⟩
  obtain ⟨t, ht, hnames⟩ : ∃ t, ((trayBlueprint.forMap trayBlueprint.shape.fields).stating
      trayPlacements.reverse).build = .ok t ∧
      t.members.map Member.name = ["spare", "count", "slots"] := ⟨_, by cbv, by cbv⟩
  obtain ⟨hsize, hheaps⟩ := hrecords traySchema t build_traySchema ht
  obtain ⟨bytes, after, hpack⟩ : ∃ bytes after, traySchema.pack
      (trayRecord (.fields [("x", .number (.int 1))]) .null) (none : Option TransientStore) =
        (.ok bytes, after) := ⟨_, _, by cbv⟩
  have hproper := @properValues_trayRecord (.fields [("x", .number (.int 1))]) .null
    ⟨List.pairwise_singleton .., trivial, trivial⟩ trivial
  obtain ⟨hwrite, -⟩ := hheaps TransientStore none
  obtain ⟨-, hread⟩ := hheaps TransientStore after
  exact ⟨hperm, t, ht, hnames, hsize, bytes, after, hpack,
    (hwrite (by decide) _ hproper bytes after).1 hpack, hread bytes⟩

end PackedRecord
