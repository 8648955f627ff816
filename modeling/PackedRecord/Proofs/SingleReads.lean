import PackedRecord.Schema.Coverage
import PackedRecord.Proofs.PositionalRecords

/-!
# Reading a record member by member

A record can be read as a whole, into a map, or one member at a time.  The whole read stops at the
first mapped member that cannot be read, in storage order.

* `mapM_eq_error_iff` — steps fail with the error of the first one that does.
* `Schema.LaidOut.unpackMember_eq` — a member is found by its name and read from its window.
* `Schema.Gathers`, `Schema.FailsAt` — what the single reads say about a map and about an error.
* `whole_reads_gather` — the whole read gives exactly that map and exactly that error.
-/

namespace PackedRecord

/-- Steps fail with the error of the first one that fails. -/
theorem mapM_eq_error_iff {α β ε : Type} {f : α → Except ε β} {e : ε} : ∀ {as : List α},
    as.mapM f = .error e ↔ ∃ before a after, as = before ++ a :: after ∧
      (∀ x ∈ before, ∃ y, f x = .ok y) ∧ f a = .error e
  | [] => iff_of_false (by rw [List.mapM_nil]; exact nofun) (by simp)
  | a :: as => by
    rw [mapM_cons_eq]
    cases hfirst : f a with
    | error e' =>
      constructor
      · rintro ⟨⟩
        exact ⟨[], a, as, rfl, nofun, hfirst⟩
      · rintro ⟨_ | ⟨x, before⟩, c, after, hsplit, hbefore, hc⟩
        · obtain ⟨rfl, -⟩ := List.cons.inj hsplit
          cases hfirst.symm.trans hc
          rfl
        · obtain ⟨rfl, -⟩ := List.cons.inj hsplit
          obtain ⟨y, hy⟩ := hbefore a List.mem_cons_self
          cases hfirst.symm.trans hy
    | ok b =>
      have hmap : (as.mapM f).map (b :: ·) = .error e ↔ as.mapM f = .error e := by
        cases as.mapM f <;> simp [Except.map]
      dsimp only
      rw [hmap, mapM_eq_error_iff]
      constructor
      · rintro ⟨before, c, after, rfl, hbefore, hc⟩
        exact ⟨a :: before, c, after, rfl, List.forall_mem_cons.2 ⟨⟨b, hfirst⟩, hbefore⟩, hc⟩
      · rintro ⟨_ | ⟨x, before⟩, c, after, hsplit, hbefore, hc⟩
        · obtain ⟨rfl, -⟩ := List.cons.inj hsplit
          cases hfirst.symm.trans hc
        · obtain ⟨rfl, rfl⟩ := List.cons.inj hsplit
          exact ⟨before, c, after, rfl, (List.forall_mem_cons.1 hbefore).2, hc⟩

namespace Schema

variable {σ : Type} [Heap σ] {s : Schema} {rules : ViewRules} {bytes : Bytes} {heap : Option σ}

/-! ## Single members -/

theorem member?_of_mem (hnames : (s.members.map Member.name).Nodup) {m : Member}
    (hm : m ∈ s.members) : s.member? m.name = some m := by
  unfold member?
  cases hfound : s.members.find? fun n => n.name == m.name with
  | none =>
    have hother := List.find?_eq_none.1 hfound m hm
    simp at hother
  | some n =>
    have hname : n.name = m.name := by simpa using List.find?_some hfound
    rw [List.inj_on_of_nodup_map hnames (List.mem_of_find?_eq_some hfound) hm hname]

namespace LaidOut

/-- A member is read on its own from its window. -/
theorem unpackMember_eq (hs : s.LaidOut rules) (hlen : bytes.length = s.totalSize) {m : Member}
    (hm : m ∈ s.members) : s.unpackMember bytes m.name heap =
      m.kind.read m.placement s.settings.byteOrder (m.placement.window bytes) heap := by
  rw [unpackMember, if_pos hlen, member?_of_mem hs.names hm]

theorem readOrNull_eq (hs : s.LaidOut rules) (hlen : bytes.length = s.totalSize) {m : Member}
    (hm : m ∈ s.members) : m.readOrNull s.settings.byteOrder bytes heap =
      if m.isMapped then s.unpackMember bytes m.name heap else .ok .null := by
  rw [Member.readOrNull, hs.unpackMember_eq hlen hm]

end LaidOut

/-! ## Whole records -/

/-- A map from the names of the mapped members, and no others, to what each of them reads as on its
own. -/
structure Gathers (s : Schema) (bytes : Bytes) (heap : Option σ) (r : Fields) : Prop where
  ascending : Assoc.Ascending r
  keys : ∀ name, name ∈ Assoc.keys r ↔ name ∈ s.mappedNames
  values : ∀ name v, Assoc.get? name r = some v → s.unpackMember bytes name heap = .ok v

/-- The error is that of the first mapped member, in storage order, that cannot be read on its
own. -/
def FailsAt (s : Schema) (bytes : Bytes) (heap : Option σ) (e : Error) : Prop :=
  ∃ before m after, s.members = before ++ m :: after ∧ m.isMapped = true ∧
    (∀ n ∈ before, n.isMapped = true → ∃ v, s.unpackMember bytes n.name heap = .ok v) ∧
    s.unpackMember bytes m.name heap = .error e

omit [Heap σ] in
theorem mem_mappedNames_iff {name : String} :
    name ∈ s.mappedNames ↔ ∃ m ∈ s.members, m.isMapped = true ∧ m.name = name := by
  simp only [mappedNames, List.mem_map, List.mem_filter, and_assoc]

/-- There is only one map that gathers the single reads. -/
theorem Gathers.eq {r r' : Fields} (h : s.Gathers bytes heap r) (h' : s.Gathers bytes heap r') :
    r = r' := by
  refine Assoc.ext h.ascending h'.ascending fun name => ?_
  have hkeys : (Assoc.get? name r).isSome = true ↔ (Assoc.get? name r').isSome = true := by
    rw [Assoc.isSome_get?_iff, Assoc.isSome_get?_iff, h.keys, h'.keys]
  cases hv : Assoc.get? name r with
  | none =>
    rw [hv] at hkeys
    cases hv' : Assoc.get? name r' with
    | none => rfl
    | some v' => simp [hv'] at hkeys
  | some v =>
    rw [hv] at hkeys
    obtain ⟨v', hv'⟩ := Option.isSome_iff_exists.1 (hkeys.1 rfl)
    cases (h.values name v hv).symm.trans (h'.values name v' hv')
    rw [hv']

namespace LaidOut

/-- The whole read fills a map with the values that were read in order. -/
theorem unpack_eq (hmap : s.isPositional = false) (hlen : bytes.length = s.totalSize) :
    s.unpack Fields bytes heap = (readEach s.settings.byteOrder bytes heap s.members).map
      fun vs => Assoc.insertAll (mappedEntries s.members vs) [] := by
  rw [unpack, readings_eq, if_pos hlen, hmap]
  exact fill_map s.settings.byteOrder bytes heap s.members 0 []

/-- **Values that were read in order are gathered.** -/
theorem gathers_of_readEach (hs : s.LaidOut rules) (hlen : bytes.length = s.totalSize)
    {vs : List Value} (h : readEach s.settings.byteOrder bytes heap s.members = .ok vs) :
    s.Gathers bytes heap (Assoc.insertAll (mappedEntries s.members vs) []) := by
  have hmirrors := mirrors_of_readEach hs.names h
  have hkeys : ∀ name, name ∈ Assoc.keys (Assoc.insertAll (mappedEntries s.members vs) []) ↔
      name ∈ s.mappedNames := by
    intro name
    rw [hmirrors.keys, mem_mappedNames_iff]
  refine ⟨Assoc.ascending_insertAll Assoc.ascending_nil, hkeys, fun name v hv => ?_⟩
  have hname := (hkeys name).1 (Assoc.isSome_get?_iff.1 (Option.isSome_iff_exists.2 ⟨v, hv⟩))
  obtain ⟨m, hm, hmapped, rfl⟩ := mem_mappedNames_iff.1 hname
  obtain ⟨i, hi⟩ := List.getElem?_of_mem hm
  obtain ⟨w, hw, hread⟩ := exists_of_readEach h hi
  have hvalue : w = v := Option.some.inj (hw.symm.trans ((hmirrors.mapped i m hi hmapped).trans hv))
  rw [hs.readOrNull_eq hlen hm, if_pos hmapped, hvalue] at hread
  exact hread

/-- **Reading in order fails where the first single read does.** -/
theorem readEach_eq_error_iff (hs : s.LaidOut rules) (hlen : bytes.length = s.totalSize)
    {e : Error} : readEach s.settings.byteOrder bytes heap s.members = .error e ↔
      s.FailsAt bytes heap e := by
  unfold readEach FailsAt
  rw [mapM_eq_error_iff]
  refine exists_congr fun before => exists_congr fun m => exists_congr fun after => ?_
  refine and_congr_right fun hsplit => ?_
  have hbefore : ∀ n ∈ before, n ∈ s.members := fun n hn => hsplit ▸ List.mem_append_left _ hn
  have hm : m ∈ s.members := hsplit ▸ List.mem_append_right _ List.mem_cons_self
  have hread : ∀ n ∈ before, (∃ v, n.readOrNull s.settings.byteOrder bytes heap = .ok v) ↔
      (n.isMapped = true → ∃ v, s.unpackMember bytes n.name heap = .ok v) := by
    intro n hn
    rw [hs.readOrNull_eq hlen (hbefore n hn)]
    cases n.isMapped <;> simp
  have hfails : m.readOrNull s.settings.byteOrder bytes heap = .error e ↔
      m.isMapped = true ∧ s.unpackMember bytes m.name heap = .error e := by
    rw [hs.readOrNull_eq hlen hm]
    cases m.isMapped <;> simp
  rw [hfails, forall₂_congr hread]
  tauto

end LaidOut

end Schema

/-- **Whole reads gather single reads.**  A raw record of any content, with or without a heap, is
read into a map exactly if every mapped member can be read on its own; the map then has one entry
for each of them, with the value that it reads as.  Otherwise the error is that of the first mapped
member, in storage order, whose own read fails. -/
theorem whole_reads_gather (b : Blueprint) (s : Schema) (h : b.build = .ok s)
    (hkind : b.shape.kind ≠ .positional) {σ : Type} [Heap σ] (heap : Option σ) (bytes : Bytes)
    (hlen : bytes.length = s.totalSize) :
    (∀ r, s.unpack Fields bytes heap = .ok r ↔ s.Gathers bytes heap r) ∧
    ∀ e, s.unpack Fields bytes heap = .error e ↔ s.FailsAt bytes heap e := by
  obtain ⟨hs, houtline, -⟩ := Blueprint.laidOut_of_build h
  have hmap : s.isPositional = false := by
    rw [Schema.isPositional, houtline]
    exact beq_eq_false_iff_ne.2 hkind
  have hfails : ∀ e, readEach s.settings.byteOrder bytes heap s.members = .error e ↔
      s.FailsAt bytes heap e := fun _ => hs.readEach_eq_error_iff hlen
  rw [Schema.LaidOut.unpack_eq hmap hlen]
  cases heach : readEach s.settings.byteOrder bytes heap s.members with
  | ok vs =>
    have hgathers := hs.gathers_of_readEach hlen heach
    refine ⟨fun r => ⟨?_, fun hr => congrArg Except.ok (hgathers.eq hr)⟩, fun e => ?_⟩
    · rintro ⟨⟩
      exact hgathers
    · rw [← hfails e, heach]
      simp [Except.map]
  | error e =>
    have hfailed := (hfails e).1 heach
    refine ⟨fun r => iff_of_false (by simp [Except.map]) fun hr => ?_, fun e' => ?_⟩
    · -- The member that fails has a name of the map, under which it would have been read.
      obtain ⟨before, m, after, hsplit, hmapped, -, herror⟩ := hfailed
      have hm : m ∈ s.members := hsplit ▸ List.mem_append_right _ List.mem_cons_self
      have hname := (hr.keys m.name).2 (Schema.mem_mappedNames_iff.2 ⟨m, hm, hmapped, rfl⟩)
      obtain ⟨v, hv⟩ := Option.isSome_iff_exists.1 (Assoc.isSome_get?_iff.2 hname)
      cases herror.symm.trans (hr.values m.name v hv)
    · rw [← hfails e', heach]
      simp [Except.map]

/-- A number that no field receives, two cells that keep their own byte order, and a text. -/
def memoBlueprint : Blueprint where
  shape := .map [⟨"tag", .varyingString none⟩, ⟨"cells", .array (.compound cellSchema) [2]⟩]
  name := some "Memo"
  placements := some [.integer "spare" 0 2,
    { Placement.plain "cells" 2 .compound 4 with dims := [2], nested := some cellSchema },
    .plain "tag" 10 .string (-1)]
  settings := { byteOrder := .big }

/-- Without a heap the slot of the text can be read if it is null, and fails otherwise. -/
theorem whole_reads_gather_memo : ∃ s, memoBlueprint.build = .ok s ∧
    s.Gathers ([9, 9, 1, 0, 0, 0, 2, 0, 0, 0] ++ Codec.zeros 16) (none : Option TransientStore)
      [("cells", .array [2] [.fields [("x", .number (.int 1))], .fields [("x", .number (.int 2))]]),
        ("tag", .null)] ∧
    s.FailsAt (Codec.zeros 10 ++ List.replicate 16 1) (none : Option TransientStore)
      (.heapMissing "tag") := by
  refine ⟨_, by cbv, ?_, ?_⟩
  · have hread := (whole_reads_gather memoBlueprint _ (by cbv) (by decide)
      (none : Option TransientStore) ([9, 9, 1, 0, 0, 0, 2, 0, 0, 0] ++ Codec.zeros 16) rfl).1
    exact (hread _).1 (by cbv)
  · have hread := (whole_reads_gather memoBlueprint _ (by cbv) (by decide)
      (none : Option TransientStore) (Codec.zeros 10 ++ List.replicate 16 1) rfl).2
    exact (hread _).1 (by cbv)

end PackedRecord
