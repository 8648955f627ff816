import PackedRecord.Description.Basic
import PackedRecord.Proofs.Compatibility

/-!
# Layouts without bindings

`Schema.opened` is the layout of a schema, as a catalog gives it back for open maps: members and
codecs stay, bindings and settings other than the byte order do not, neither in the schema nor in
the schemas nested in it.  Schemas with the same layout are opened to one schema.

* `Schema.describe_opened`, `Schema.canonicalText_opened` — descriptions and fingerprints see
  nothing but the layout.
* `Kind.ofPlacement_opened` — the codec chosen for a member of the layout is the opened one.
* `Schema.interchangeable_opened` — for open maps the layout writes and reads every record as
  the schema does.
-/

namespace PackedRecord

mutual

/-- The layout of a schema, for open maps. -/
def Schema.opened : Schema → Schema
  | ⟨name, members, _, totalSize, settings⟩ =>
    ⟨name, openedMembers members, Shape.openMap.outline, totalSize,
      { byteOrder := settings.byteOrder }⟩

/-- The layout of some members. -/
def openedMembers : List Member → List Member
  | [] => []
  | ⟨p, kind, _⟩ :: rest => ⟨p.opened, kind.opened, .dynamic⟩ :: openedMembers rest

/-- The placement with the layout of its nested schema. -/
def Placement.opened : Placement → Placement
  | ⟨name, offset, size, storageClass, signed, dims, charset, meaning, tag, table, nested⟩ =>
    ⟨name, offset, size, storageClass, signed, dims, charset, meaning, tag, table,
      openedNested nested⟩

/-- The layout of a nested schema. -/
def openedNested : Option Schema → Option Schema
  | none => none
  | some schema => some schema.opened

/-- The codec with the layouts of nested schemas. -/
def Kind.opened : Kind → Kind
  | .single element => .single element.opened
  | .array element => .array element.opened

/-- The codec of one element with the layout of its nested schema. -/
def Element.opened : Element → Element
  | .scalar codec => .scalar codec
  | .record schema => .record schema.opened

end

/-- The member of the layout. -/
def Member.opened (m : Member) : Member := ⟨m.placement.opened, m.kind.opened, .dynamic⟩

theorem openedMembers_eq : ∀ ms : List Member, openedMembers ms = ms.map Member.opened
  | [] => rfl
  | ⟨p, kind, binding⟩ :: rest => by
    rw [openedMembers, openedMembers_eq rest]
    rfl

theorem openedNested_eq (nested : Option Schema) :
    openedNested nested = nested.map Schema.opened := by
  cases nested <;> rfl

/-- Nothing but the nested schema of a placement is opened. -/
theorem Placement.opened_eq (p : Placement) :
    p.opened = { p with nested := p.nested.map Schema.opened } := by
  cases p
  rw [opened, openedNested_eq]

theorem Placement.sameLayout_opened (p : Placement) : p.SameLayout p.opened := by
  rw [opened_eq]
  exact ⟨rfl, rfl, rfl, rfl, rfl, rfl, rfl, rfl⟩

namespace Schema

variable (s : Schema)

theorem opened_name : s.opened.name = s.name := by
  cases s
  rfl

theorem opened_totalSize : s.opened.totalSize = s.totalSize := by
  cases s
  rfl

theorem opened_byteOrder : s.opened.settings.byteOrder = s.settings.byteOrder := by
  cases s
  rfl

theorem opened_members : s.opened.members = s.members.map Member.opened := by
  cases s
  exact openedMembers_eq _

end Schema

/-! ## What sees nothing but the layout -/

namespace Schema

mutual

/-- The layout has the description of the schema. -/
theorem describe_opened : ∀ s : Schema, s.opened.describe = s.describe
  | ⟨name, members, _, totalSize, settings⟩ => by
    rw [opened, describe, describe, describeMembers_opened members]

theorem describeMembers_opened : ∀ ms : List Member,
    describeMembers (openedMembers ms) = describeMembers ms
  | [] => rfl
  | ⟨p, kind, binding⟩ :: rest => by
    rw [openedMembers, describeMembers, describeMembers, describePlacement_opened p,
      describeMembers_opened rest]

theorem describePlacement_opened : ∀ p : Placement,
    describePlacement p.opened = describePlacement p
  | ⟨_, _, _, _, _, _, _, _, _, _, nested⟩ => by
    rw [Placement.opened, describePlacement, describePlacement, describeNested_opened nested]

theorem describeNested_opened : ∀ nested : Option Schema,
    describeNested (openedNested nested) = describeNested nested
  | none => rfl
  | some s => by
    rw [openedNested, describeNested, describeNested, describe_opened s]

end

mutual

theorem canonicalText_opened : ∀ s : Schema, s.opened.canonicalText = s.canonicalText
  | ⟨name, members, _, totalSize, settings⟩ => by
    rw [opened, canonicalText, canonicalText, canonicalTextOf_opened members]

theorem canonicalTextOf_opened : ∀ ms : List Member,
    canonicalTextOf (openedMembers ms) = canonicalTextOf ms
  | [] => rfl
  | ⟨p, kind, binding⟩ :: rest => by
    have hplace : p.opened.canonicalText = p.canonicalText := by
      rw [Placement.opened_eq]
      rfl
    have htable : p.opened.table = p.table := by rw [Placement.opened_eq]
    rw [openedMembers, canonicalTextOf, canonicalTextOf, hplace, htable, nestedText_opened p,
      canonicalTextOf_opened rest]

theorem nestedText_opened : ∀ p : Placement, nestedText p.opened = nestedText p
  | ⟨_, _, _, _, _, _, _, _, _, _, none⟩ => rfl
  | ⟨_, _, _, _, _, _, _, _, _, _, some s⟩ => by
    rw [Placement.opened, openedNested, nestedText, nestedText, canonicalText_opened s]

end

/-- The layout has the fingerprint of the schema. -/
theorem fingerprint_opened (s : Schema) : s.opened.fingerprint = s.fingerprint := by
  rw [fingerprint, fingerprint, canonicalText_opened]

end Schema

/-! ## Codecs -/

namespace Element

theorem isVarying_opened (element : Element) : element.opened.isVarying = element.isVarying := by
  cases element <;> rfl

theorem isRaw_opened (element : Element) : element.opened.isRaw = element.isRaw := by
  cases element <;> rfl

variable {p : Placement} {settings settings' : Settings}

/-- The views of counts are the default only where the member states what is counted. -/
theorem choose_opened {view : View} {element : Element}
    (hview : view = .timePoint ∨ view = .duration → p.meaning.isSome)
    (h : ofView p settings view = .ok element) :
    choose p.opened settings' view = .ok element.opened := by
  have hc := (choose_of_ofView h).1
  by_cases hnested : view = .compound
  · subst hnested
    rw [Placement.opened_eq]
    unfold choose at hc ⊢
    dsimp only at hc ⊢
    cases hs : p.nested with
    | none =>
      rw [hs] at hc
      cases hc
      rfl
    | some schema =>
      rw [hs] at hc
      cases hc
      rfl
  · have hscalar : element.opened = element := by
      cases element with
      | scalar codec => rfl
      | record schema => exact absurd (view_of_record h) hnested
    rw [hscalar]
    by_cases htable : view = .enumeration
    · subst htable
      rw [Placement.opened_eq]
      exact hc
    · rw [← choose_congr p.sameLayout_opened hview htable hnested, hc]

theorem ofView_opened {view : View} {element : Element}
    (hview : view = .timePoint ∨ view = .duration → p.meaning.isSome)
    (h : ofView p settings view = .ok element) :
    ofView p.opened settings' view = .ok element.opened := by
  have hvarying : element.opened.isVarying = p.opened.isVarying := by
    rw [isVarying_opened, (choose_of_ofView h).2, Placement.opened_eq]
    rfl
  rw [ofView, choose_opened hview h]
  exact if_pos hvarying

end Element

/-- **The codec chosen for a member of the layout is that of the schema**, whatever unit and
character set the settings state for fields without their own. -/
theorem Kind.ofPlacement_opened {p : Placement} {settings settings' : Settings} {kind : Kind}
    (h : ofPlacement {} settings p = .ok kind) :
    ofPlacement {} settings' p.opened = .ok kind.opened := by
  have harray : p.opened.isArray = p.isArray := by
    rw [Placement.opened_eq]
    rfl
  have hview : p.opened.view {} = p.view {} := by
    rw [Placement.opened_eq]
    rfl
  have hcount := p.meaning_of_count
  unfold ofPlacement at h ⊢
  rw [harray, hview]
  split
  · rename_i ha
    rw [if_pos ha] at h
    split
    · rename_i view rank hv
      rw [hv] at h
      dsimp only at h
      rcases he : Element.ofView p settings view with _ | element <;>
        simp only [he, Except.map] at h
      · cases h
      cases h
      rw [Element.ofView_opened (hcount view (.inr ⟨rank, hv⟩)) he]
      rfl
    · rename_i hnot
      split at h
      · rename_i view rank hv
        exact absurd hv (hnot view rank)
      rcases he : Element.ofView p settings (p.view {}) with _ | element <;>
        simp only [he, Except.map] at h
      · cases h
      cases h
      rw [Element.ofView_opened (hcount _ (.inl rfl)) he]
      simp only [Except.map, Element.isRaw_opened]
      split <;> rfl
  · rename_i ha
    rw [if_neg ha] at h
    rcases he : Element.ofView p settings (p.view {}) with _ | element <;>
      simp only [he, Except.map] at h
    · cases h
    cases h
    rw [Element.ofView_opened (hcount _ (.inl rfl)) he]
    rfl

/-! ## Records -/

theorem Kind.element_opened (kind : Kind) : kind.opened.element = kind.element.opened := by
  cases kind <;> rfl

theorem Kind.sameForm_opened (kind : Kind) : kind.SameForm kind.opened := by
  cases kind with
  | single element => exact .inl ⟨rfl, rfl⟩
  | array element => exact .inr ⟨rfl, rfl⟩

/-- **The layout of a schema for open maps writes and reads every record as the schema does.** -/
theorem Schema.interchangeable_opened {s : Schema} (h : s.Hereditarily OpenLayout) :
    s.Interchangeable s.opened := by
  induction h with
  | @intro s hs _ ih =>
    have hkind : s.outline.kind = s.opened.outline.kind := by
      rw [hs.kind]
      cases s
      rfl
    refine interchangeable_of_members s.opened_totalSize.symm s.opened_byteOrder.symm hkind ?_
    rw [opened_members, List.forall₂_map_right_iff, List.forall₂_same]
    intro m hm
    refine Member.interchangeable_of_elements m.placement.sameLayout_opened (hs.mapped m hm)
      m.kind.sameForm_opened ?_
    have helement : m.opened.kind.element = m.kind.element.opened := m.kind.element_opened
    rw [helement]
    cases he : m.kind.element with
    | scalar codec => exact ⟨fun _ _ _ _ => rfl, fun _ _ _ _ _ => rfl⟩
    | record t =>
      have ht := ih m hm t (Kind.nested_of_element (hs.chosen m hm) he)
      exact (Element.Akin.nested t t.opened).interchangeable (fun _ _ h => nomatch h)
        fun a b ha hb => by
          cases ha
          cases hb
          exact ht

end PackedRecord
