import PackedRecord.Proofs.ByteRanges
import PackedRecord.Proofs.DescribedDocuments
import PackedRecord.Proofs.OpenedSchemas
import PackedRecord.Proofs.SharedSchemas
import PackedRecord.Proofs.StableRecords

/-!
# Schemas rebuilt from their descriptions

A build for stated placements looks at nothing but the layout: whatever a first build has accepted
passes every check again.  So the description of a schema gives back its layout, bound to the
shape that is asked for.

* `Blueprint.build_of_stages` — a build succeeds if all of its stages do.
* `checkPlacements_opened`, `checkDisjoint_opened`, `Blueprint.members_opened` — the stages on the
  placements of a layout.
* `Schema.BuiltPlainly.toSchema_describe` — the induction over nested schemas.
* `description_rebuilds` — what the rebuilt schema has in common with the first one.
-/

namespace PackedRecord

/-! ## Builds by stages -/

theorem Blueprint.build_of_stages {b : Blueprint} (ps : List Placement) {s : Schema}
    (h : b.Stages ps s) : b.build = .ok s := by
  obtain ⟨hfields, hlay, hchecks, happart, hsize, hmembers, hname, houtline, hsettings⟩ := h
  simp only [build, bind, Except.bind, pure, Except.pure, hfields, hlay, hchecks, happart, hsize,
    hmembers]
  cases s
  dsimp only at hname houtline hsettings
  rw [hname, houtline, hsettings]

/-! ## Checks of a layout -/

namespace Placement

theorem check_opened (p : Placement) : p.opened.check = p.check := by
  rw [opened_eq]
  cases hn : p.nested with
  | none =>
    unfold check
    simp only [hn]
    rfl
  | some schema =>
    unfold check
    simp only [hn, Option.map_some, schema.opened_totalSize]
    rfl

theorem startsBefore_opened (p q : Placement) :
    p.opened.startsBefore q.opened = p.startsBefore q := by
  rw [p.opened_eq, q.opened_eq]
  rfl

end Placement

theorem checkPlacements_opened (typeName : String) : ∀ (ps : List Placement)
    (earlier : List String), checkPlacements typeName earlier (ps.map Placement.opened) =
      checkPlacements typeName earlier ps
  | [], _ => rfl
  | p :: rest, earlier => by
    have hname : p.opened.name = p.name := p.sameLayout_opened.name.symm
    rw [List.map_cons, checkPlacements, checkPlacements, hname, p.check_opened,
      checkPlacements_opened typeName rest]

theorem firstOverlap_opened : ∀ ps : List Placement,
    firstOverlap (ps.map Placement.opened) = firstOverlap ps
  | [] => rfl
  | [_] => rfl
  | p :: q :: rest => by
    have hrest := firstOverlap_opened (q :: rest)
    rw [List.map_cons] at hrest
    rw [List.map_cons, List.map_cons, firstOverlap, firstOverlap, hrest, p.opened_eq, q.opened_eq]
    rfl

theorem checkDisjoint_opened (typeName : String) (ps : List Placement) :
    checkDisjoint typeName (ps.map Placement.opened) = checkDisjoint typeName ps := by
  have hsorted : (ps.map Placement.opened).mergeSort Placement.startsBefore =
      (ps.mergeSort Placement.startsBefore).map Placement.opened :=
    (List.map_mergeSort fun p _ q _ => (p.startsBefore_opened q).symm).symm
  rw [checkDisjoint, checkDisjoint, hsorted, firstOverlap_opened]

theorem extentOf_opened (ps : List Placement) :
    extentOf (ps.map Placement.opened) = extentOf ps := by
  have hstop : Placement.stop ∘ Placement.opened = Placement.stop := by
    funext p
    rw [Function.comp_apply, p.opened_eq]
    rfl
  rw [extentOf_eq, extentOf_eq, List.map_map, hstop]

/-! ## Layouts for a shape -/

/-- The schema with its members bound to the records of a shape. -/
def Schema.boundTo (s : Schema) (shape : Shape) : Schema :=
  ⟨s.name, s.members.map fun m => { m with binding := shape.outline.bind m.name }, shape.outline,
    s.totalSize, s.settings⟩

/-- A layout is bound to open maps as it is. -/
theorem Schema.boundTo_openMap (s : Schema) : s.opened.boundTo .openMap = s.opened := by
  obtain ⟨name, members, outline, size, settings⟩ := s
  have hmembers : (openedMembers members).map (fun m : Member =>
      { m with binding := Shape.openMap.outline.bind m.name }) = openedMembers members := by
    rw [openedMembers_eq, List.map_map]
    rfl
  rw [opened, boundTo, hmembers]

/-- The codecs chosen for the members of a layout are those of the schema. -/
theorem Blueprint.members_opened {b : Blueprint} (hrules : b.rules = {}) (settings : Settings) :
    ∀ {ms : List Member}, (∀ m ∈ ms, Kind.ofPlacement {} settings m.placement = .ok m.kind) →
    b.members (ms.map fun m => m.placement.opened) =
      .ok ((ms.map Member.opened).map fun m =>
        { m with binding := b.shape.outline.bind m.name })
  | [], _ => rfl
  | m :: rest, h => by
    obtain ⟨hfirst, hrest⟩ := List.forall_mem_cons.1 h
    have hmember : b.member m.placement.opened =
        .ok ⟨m.placement.opened, m.kind.opened, b.shape.outline.bind m.opened.name⟩ := by
      rw [member, hrules, Kind.ofPlacement_opened hfirst]
      rfl
    rw [List.map_cons, members, hmember, members_opened hrules settings hrest]
    rfl

/-! ## Descriptions -/

namespace Description

/-- Described members are placed as they are, if nested schemas are given back. -/
theorem placements_describe : ∀ {ms : List Member},
    (∀ m ∈ ms, m.placement.dims.length ≤ maxRank) →
    (∀ m ∈ ms, ∀ t, m.placement.nested = some t → t.describe.toSchema .openMap = .ok t.opened) →
    placements (Schema.describeMembers ms) = .ok (ms.map fun m => m.placement.opened)
  | [], _, _ => rfl
  | ⟨p, kind, binding⟩ :: rest, hrank, hnested => by
    obtain ⟨hrank, hrest⟩ := List.forall_mem_cons.1 hrank
    obtain ⟨hnested, hrest'⟩ := List.forall_mem_cons.1 hnested
    have hplace : placement (Schema.describePlacement p) = .ok p.opened := by
      obtain ⟨name, offset, size, storageClass, signed, dims, charset, meaning, tag, table, nested⟩
        := p
      have hdims : dims.take maxRank = dims := List.take_of_length_le hrank
      rw [Schema.describePlacement, placement, hdims, Placement.opened]
      cases nested with
      | none => rfl
      | some t =>
        rw [Schema.describeNested, nestedSchema, hnested t rfl]
        rfl
    rw [Schema.describeMembers, placements, hplace]
    simp only [placements_describe hrest hrest']
    rfl

end Description

namespace Schema

/-- **The description of a schema gives back its layout, bound to any shape.** -/
theorem BuiltPlainly.toSchema_describe {s : Schema} (hs : s.BuiltPlainly) (shape : Shape)
    (hshape : firstRepeated [] (shape.fields.map Field.name) = none) :
    s.describe.toSchema shape = .ok (s.opened.boundTo shape) := by
  induction hs generalizing shape with
  | @intro s here _ ih =>
    obtain ⟨b, hrules, hb⟩ := here
    obtain ⟨ps, hstages⟩ := Blueprint.stages_of_build hb
    have hchecks := fun m (hm : m ∈ s.members) => hstages.check hm
    have hps : ps.map Placement.opened = s.members.map fun m => m.placement.opened := by
      rw [← hstages.placements, List.map_map]
      rfl
    have hplaces : Description.placements (describeMembers s.members) =
        .ok (ps.map Placement.opened) := by
      rw [hps]
      refine Description.placements_describe (fun m hm => Placement.rank_le_of_check (hchecks m hm))
        fun m hm t ht => ?_
      rw [ih m hm t ht .openMap rfl, boundTo_openMap]
    have hdescribe : s.describe = ⟨s.name, s.totalSize, s.settings.byteOrder,
        describeMembers s.members⟩ := by
      cases s
      rfl
    rw [hdescribe, Description.toSchema]
    simp only [hplaces]
    refine Blueprint.build_of_stages (ps.map Placement.opened) ?_
    constructor
    · exact hshape
    · rfl
    · rw [checkPlacements_opened]
      exact hstages.name ▸ hstages.checked
    · rw [checkDisjoint_opened]
      exact hstages.name ▸ hstages.disjoint
    · rw [extentOf_opened]
      have hextent := hstages.extent_le
      have hsize : (s.opened.boundTo shape).totalSize = s.totalSize := s.opened_totalSize
      rw [hsize]
      exact if_neg (by omega)
    · rw [hps, Blueprint.members_opened rfl s.settings fun m hm => ?_]
      · simp only [boundTo, opened_members]
      · rw [hstages.settings]
        exact hrules ▸ (hstages.member hm).1
    · exact s.opened_name
    · rfl
    · cases s
      rfl

/-- For open maps a layout that is bound to one of them is the layout itself. -/
theorem sameRecords_boundTo {s : Schema} {shape : Shape} (hkind : shape.kind = .map)
    (hfields : shape.fields = []) : (s.opened.boundTo shape).SameRecords s.opened := by
  have hbind : ∀ name, shape.outline.bind name = .dynamic := by
    intro name
    have hopen : shape.outline.isOpen = true := by
      simp [Outline.isOpen, Shape.outline, hkind, hfields]
    rw [Outline.bind, if_pos hopen]
  refine ⟨rfl, rfl, rfl, ?_, ?_⟩
  · simp only [boundTo, opened_members, List.map_map, hbind]
    rfl
  · have hopened : s.opened.outline.kind = .map := by
      cases s
      rfl
    rw [hopened]
    simp only [boundTo, Shape.outline, hkind]

end Schema

/-! ## What a description keeps -/

/-- Members of one name and size at one place, with the same codec up to bindings. -/
structure Member.SameUpToBindings (m n : Member) : Prop where
  name : m.name = n.name
  offset : m.placement.offset = n.placement.offset
  size : m.placement.size = n.placement.size
  kind : m.kind.opened = n.kind.opened

/-- Schemas of one raw layout, whose members are the same up to bindings. -/
structure Schema.SameUpToBindings (s t : Schema) : Prop where
  name : s.name = t.name
  totalSize : s.totalSize = t.totalSize
  byteOrder : s.settings.byteOrder = t.settings.byteOrder
  fingerprint : s.fingerprint = t.fingerprint
  members : List.Forall₂ Member.SameUpToBindings s.members t.members

namespace Schema

variable (s : Schema) (shape : Shape)

/-- Descriptions see nothing but the placements. -/
theorem describeMembers_congr : ∀ {ms ns : List Member},
    ms.map Member.placement = ns.map Member.placement → describeMembers ms = describeMembers ns
  | [], [], _ => rfl
  | ⟨p, _, _⟩ :: ms, ⟨q, _, _⟩ :: ns, h => by
    obtain ⟨hp, hrest⟩ := List.cons.inj h
    obtain rfl : p = q := hp
    rw [describeMembers, describeMembers, describeMembers_congr hrest]

/-- So do fingerprints. -/
theorem canonicalTextOf_congr : ∀ {ms ns : List Member},
    ms.map Member.placement = ns.map Member.placement → canonicalTextOf ms = canonicalTextOf ns
  | [], [], _ => rfl
  | ⟨p, _, _⟩ :: ms, ⟨q, _, _⟩ :: ns, h => by
    obtain ⟨hp, hrest⟩ := List.cons.inj h
    obtain rfl : p = q := hp
    rw [canonicalTextOf, canonicalTextOf, canonicalTextOf_congr hrest]

theorem placements_boundTo :
    (s.boundTo shape).members.map Member.placement = s.members.map Member.placement := by
  rw [boundTo, List.map_map]
  rfl

theorem describe_boundTo : (s.boundTo shape).describe = s.describe := by
  have hmembers := describeMembers_congr (s.placements_boundTo shape)
  cases s
  rw [describe, ← hmembers]
  rfl

theorem canonicalText_boundTo : (s.boundTo shape).canonicalText = s.canonicalText := by
  have hmembers := canonicalTextOf_congr (s.placements_boundTo shape)
  cases s
  rw [canonicalText, ← hmembers]
  rfl

theorem fingerprint_boundTo : (s.boundTo shape).fingerprint = s.fingerprint := by
  rw [fingerprint, canonicalText_boundTo, fingerprint]

variable {s}

/-- The layout of a built schema is its own layout, by induction over nested schemas. -/
theorem Built.opened_opened (hs : s.Built) : s.opened.opened = s.opened := by
  induction hs with
  | @intro s here _ ih =>
    obtain ⟨b, hb⟩ := here
    have hl := (Blueprint.laidOut_of_build hb).1
    have hmembers : s.members.map (Member.opened ∘ Member.opened) =
        s.members.map Member.opened := by
      refine List.map_congr_left fun m hm => ?_
      have hplacement : m.placement.opened.opened = m.placement.opened := by
        rcases hnested : m.placement.nested with _ | t <;>
          simp only [Placement.opened_eq, hnested, Option.map_none, Option.map_some]
        rw [ih m hm t hnested]
      have hkind : m.kind.opened.opened = m.kind.opened := by
        have hrecord : ∀ t, m.kind.element = .record t → t.opened.opened = t.opened := fun t ht =>
          ih m hm t (Kind.nested_of_element (hl.chosen m hm) ht)
        rcases hk : m.kind with (codec | t) | (codec | t) <;> rw [hk] at hrecord <;>
          simp only [Kind.opened, Element.opened]
        · rw [hrecord t rfl]
        · rw [hrecord t rfl]
      exact congrArg₂ (Member.mk · · .dynamic) hplacement hkind
    cases s
    rw [opened, opened, openedMembers_eq, openedMembers_eq, List.map_map]
    exact congrArg (Schema.mk _ · _ _ _) hmembers

theorem Built.kind_opened_opened (hs : s.Built) {m : Member} (hm : m ∈ s.members) :
    m.kind.opened.opened = m.kind.opened := by
  have hmembers := congrArg members hs.opened_opened
  rw [opened_members, opened_members, List.map_map, List.map_inj_left] at hmembers
  exact congrArg Member.kind (hmembers m hm)

theorem Built.sameUpToBindings (hs : s.Built) : (s.opened.boundTo shape).SameUpToBindings s := by
  refine ⟨s.opened_name, s.opened_totalSize, s.opened_byteOrder, ?_, ?_⟩
  · rw [fingerprint_boundTo, fingerprint_opened]
  · rw [boundTo, opened_members, List.map_map, List.forall₂_map_left_iff, List.forall₂_same]
    intro m hm
    have hl := m.placement.sameLayout_opened
    exact ⟨hl.name.symm, hl.offset.symm, hl.size.symm, hs.kind_opened_opened hm⟩

end Schema

/-- **A description loses nothing.**  The schema that is rebuilt from it has the layout, the
fingerprint and the codecs of the first one, and its members are bound to the shape asked for.
For open maps it writes and reads every record as the first one does.  The document of the
description is read back as the description, so that the same schema is rebuilt from it. -/
theorem description_rebuilds {s : Schema} (hs : s.BuiltPlainly) (shape : Shape)
    (hshape : (shape.fields.map Field.name).Nodup) :
    ∃ t, s.describe.toSchema shape = .ok t ∧ t.describe = s.describe ∧ t.SameUpToBindings s ∧
      (∀ m ∈ t.members, m.binding = shape.outline.bind m.name) ∧
      (s.BuiltOpenly → shape.kind = .map → shape.fields = [] → t.Interchangeable s) ∧
      (s.describe.InWords → ∃ d, Description.ofJson? s.describe.toJson = some d ∧
        d = s.describe ∧ d.toSchema shape = .ok t) := by
  have hrebuilt := hs.toSchema_describe shape
    (firstRepeated_eq_none_iff.2 ⟨hshape, fun _ _ => List.not_mem_nil⟩)
  refine ⟨_, hrebuilt, ?_, hs.built.sameUpToBindings shape, ?_, ?_, ?_⟩
  · rw [Schema.describe_boundTo, Schema.describe_opened]
  · intro m hm
    obtain ⟨n, -, rfl⟩ := List.mem_map.1 hm
    rfl
  · intro hopen hkind hfields
    exact (Schema.sameRecords_boundTo hkind hfields).interchangeable.trans
      (Schema.interchangeable_opened hopen.openLayout).symm
  · intro hwords
    exact ⟨s.describe, Description.ofJson?_toJson hwords, rfl, hrebuilt⟩

/-! ## A type with an enum, a point in time and nested records -/

theorem builtOpenly_reportSchema : reportSchema.BuiltOpenly :=
  hereditarily_reportSchema ⟨_, rfl, rfl, rfl, build_reportSchema⟩
    ⟨_, rfl, rfl, rfl, build_cellSchema⟩

/-- Typed records that receive the level only. -/
def levelShape : Shape := .reflected "Level" [⟨"level", .float 4⟩]

theorem description_rebuilds_report :
    reportSchema.BuiltPlainly ∧ reportSchema.BuiltOpenly ∧ reportSchema.describe.InWords ∧
    (levelShape.fields.map Field.name).Nodup ∧
    (∃ t, reportSchema.describe.toSchema levelShape = .ok t ∧ t.SameUpToBindings reportSchema) ∧
    ∃ t d, Description.ofJson? reportSchema.describe.toJson = some d ∧
      d.toSchema .openMap = .ok t ∧ t.Interchangeable reportSchema := by
  have hwords : reportSchema.describe.InWords := by
    simp [reportSchema, reportPlacements, cellSchema, Schema.describe, Schema.describeMembers,
      Schema.describePlacement, Schema.describeNested, Description.InWords,
      Description.MembersInWords, Description.MemberInWords, Description.NestedInWords,
      Placement.plain, Placement.float, Placement.timestamp, Placement.integer,
      Placement.sizeOfCount]
  have hnodup : (levelShape.fields.map Field.name).Nodup := by decide
  obtain ⟨t, ht, -, hsame, -⟩ := description_rebuilds builtPlainly_reportSchema levelShape hnodup
  obtain ⟨t', ht', -, -, -, hopen, hjson⟩ := description_rebuilds builtPlainly_reportSchema
    .openMap List.nodup_nil
  obtain ⟨d, hd, -, hd'⟩ := hjson hwords
  exact ⟨builtPlainly_reportSchema, builtOpenly_reportSchema, hwords, hnodup, ⟨t, ht, hsame⟩,
    t', d, hd, hd', hopen builtOpenly_reportSchema rfl rfl⟩

end PackedRecord
