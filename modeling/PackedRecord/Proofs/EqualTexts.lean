import Mathlib.Data.List.Forall2
import Mathlib.Order.Basic
import PackedRecord.Proofs.SingleValues
import PackedRecord.Store.Transient

/-!
# Schemas of equal canonical texts

The fingerprint of a schema hashes its canonical text, and schemas of equal texts should write
and read the same raw records.  They do if and only if their enum tables store the same codes,
which the text does not state.

* `Schema.sameCodes_of_pack` — schemas that pack all records alike store the same codes; the
  induction over nested schemas probes each enum table with records of one value.
* `equal_text_interchanges` — the condition is exact.
* `equal_text_other_codes` — tables of other codes have the same text.
-/

namespace PackedRecord

/-! ## Members of the same form -/

theorem Kind.totalSize_of_fills {p : Placement} {kind : Kind} {s : Schema} (h : kind.Fills p)
    (hs : kind.element = .record s) : s.totalSize = kind.slot p := by
  cases kind with
  | single element =>
    dsimp only [Kind.element] at hs
    subst hs
    exact h
  | array element =>
    dsimp only [Kind.element] at hs
    subst hs
    exact h

namespace Member

variable {m n : Member}

theorem slot_eq (hl : m.placement.SameLayout n.placement) (h : m.kind.SameForm n.kind) :
    m.kind.slot m.placement = n.kind.slot n.placement := by
  rcases h with ⟨hm, hn⟩ | ⟨hm, hn⟩
  · rw [hm, hn]
    exact hl.footprint
  · rw [hm, hn]
    exact hl.elementWidth

theorem placeFirst_eq (hl : m.placement.SameLayout n.placement) (h : m.kind.SameForm n.kind) :
    m.placeFirst = n.placeFirst := by
  funext totalSize bytes
  unfold Member.placeFirst
  rw [hl.offset, hl.footprint, slot_eq hl h]

theorem sole_eq (hl : m.placement.SameLayout n.placement) (h : m.kind.SameForm n.kind)
    (v : Value) : m.kind.sole m.placement v = n.kind.sole n.placement v := by
  rcases h with ⟨hm, hn⟩ | ⟨hm, hn⟩
  · rw [hm, hn]
    rfl
  · rw [hm, hn]
    simp only [Kind.sole, hl.dims, hl.elements]

variable {σ : Type} [Heap σ]

theorem writeFirst_choice {t : EnumTable} (h : m.kind.element = .scalar (.enumeration t))
    (order : ByteOrder) (v : Value) (heap : Option σ) :
    m.writeFirst order v heap =
      (Codec.writeChoice m.name order (m.kind.slot m.placement) t v, heap) := by
  unfold writeFirst
  rw [h]
  rfl

theorem writeFirst_fields {s : Schema} (h : m.kind.element = .record s)
    (hsize : s.totalSize = m.kind.slot m.placement) (order : ByteOrder) (r : Fields)
    (heap : Option σ) : m.writeFirst order (.fields r) heap = s.pack r heap := by
  unfold writeFirst
  rw [h, ← hsize]
  rfl

end Member

/-! ## Codes seen in raw records -/

namespace Schema

/-- Every table of codes is indexed by numbers of 64 bits. -/
def CodesIndexed (s : Schema) : Prop :=
  ∀ m ∈ s.members, ∀ t, m.kind.element = .scalar (.enumeration t) → t.codes.length < 2 ^ 64

/-- A record and the tables to code it fit an address space of 64 bits. -/
structure Addressable (s : Schema) : Prop where
  totalSize : s.totalSize < 2 ^ 63
  codes : s.Hereditarily CodesIndexed

variable {σ : Type} [Heap σ] (heap : Option σ)

/-- Records that both schemas pack in full, if at all, are packed alike. -/
def PackAlike (a b : Schema) : Prop :=
  ∀ r : Fields, OfLength a.totalSize (a.pack r heap) → OfLength b.totalSize (b.pack r heap) →
    a.pack r heap = b.pack r heap

/-- First elements that fill the windows of both members, if written at all, are written
alike. -/
def WriteAlike (order : ByteOrder) (m n : Member) : Prop :=
  ∀ v : Value, v.isNull = false →
    OfLength (m.kind.slot m.placement) (m.writeFirst order v heap) →
    OfLength (n.kind.slot n.placement) (n.writeFirst order v heap) →
    m.writeFirst order v heap = n.writeFirst order v heap

variable {heap} {a b : Schema} {m n : Member}

/-- Records of one value show what the codecs of two counterparts write. -/
theorem Counterparts.writeAlike (h : Counterparts m n) (ha : a.OpenLayout) (hb : b.OpenLayout)
    (hbound : a.totalSize < 2 ^ 63) (hsize : a.totalSize = b.totalSize)
    (horder : a.settings.byteOrder = b.settings.byteOrder) (hm : m ∈ a.members)
    (hn : n ∈ b.members) (hpack : PackAlike heap a b) :
    WriteAlike heap a.settings.byteOrder m n := by
  intro v hv hlen hlen'
  have hsole : m.single (m.kind.sole m.placement v) = n.single (n.kind.sole n.placement v) := by
    rw [Member.single, Member.single, Member.sole_eq h.layout h.form v]
    exact congrArg (fun name => [(name, n.kind.sole n.placement v)]) h.layout.name
  have hfoot : m.placement.footprint < 2 ^ 63 := (ha.toLaidOut.footprint_le hm).trans_lt hbound
  have hslot := (Kind.slot_le (ha.checked m hm) (ha.chosen m hm) hfoot).1
  obtain ⟨hpacked, hfull⟩ := pack_sole ha.toLaidOut hbound hm (ha.mapped m hm) hv hlen
  rw [horder] at hlen'
  obtain ⟨hpacked', hfull'⟩ :=
    pack_sole hb.toLaidOut (hsize ▸ hbound) hn (hb.mapped n hn) hv hlen'
  rw [← hsole] at hpacked' hfull'
  have hsame := hpack _ hfull hfull'
  rw [hpacked, hpacked', ← Member.placeFirst_eq h.layout h.form, ← hsize, ← horder] at hsame
  rw [← horder, ← Member.slot_eq h.layout h.form] at hlen'
  exact mapBytes_inj (fun _ _ => Member.placeFirst_inj (ha.within m hm) hslot) hlen hlen' hsame

/-- Counterparts that write alike by means of enum tables store the same codes. -/
theorem Counterparts.storesAs (h : Counterparts m n) {rules : ViewRules} {settings : Settings}
    (hchosen : Kind.ofPlacement rules settings m.placement = .ok m.kind) {order : ByteOrder}
    (hwrite : WriteAlike heap order m n) {s t : EnumTable}
    (hs : m.kind.element = .scalar (.enumeration s))
    (ht : n.kind.element = .scalar (.enumeration t)) (hcount : s.codes.length < 2 ^ 64) :
    s.StoresAs m.placement.elementWidth t := by
  obtain ⟨hslot, hword⟩ := Kind.slot_of_enumeration hchosen hs
  have hslot' := (Member.slot_eq h.layout h.form).symm.trans hslot
  have hname : n.name = m.name := h.layout.name.symm
  have hchoice : ∀ v : Value, v.isNull = false →
      Codec.writeChoice m.name order m.placement.elementWidth s v =
        Codec.writeChoice m.name order m.placement.elementWidth t v := by
    intro v hv
    have hfirst := hwrite v hv
    rw [Member.writeFirst_choice hs, Member.writeFirst_choice ht, hslot, hslot', hname] at hfirst
    have hsame := hfirst (fun _ => Codec.length_of_writeChoice)
      fun _ => Codec.length_of_writeChoice
    exact (Prod.mk.inj hsame).1
  exact EnumTable.storesAs_of_writeChoice hword.pos hcount hchoice

/-- Schemas that nested records of counterparts are written by pack alike. -/
theorem packAlike_of_nested {order : ByteOrder} (hwrite : WriteAlike heap order m n) {s t : Schema}
    (hs : m.kind.element = .record s) (ht : n.kind.element = .record t)
    (hfill : m.kind.Fills m.placement) (hfill' : n.kind.Fills n.placement) :
    PackAlike heap s t := by
  have hsize := Kind.totalSize_of_fills hfill hs
  have hsize' := Kind.totalSize_of_fills hfill' ht
  intro r hlen hlen'
  have hfirst := hwrite (.fields r) rfl
  rw [Member.writeFirst_fields hs hsize, Member.writeFirst_fields ht hsize', ← hsize,
    ← hsize'] at hfirst
  exact hfirst hlen hlen'

/-- **Schemas of equal texts that pack all records alike store the same codes.** -/
theorem sameCodes_of_pack (h : Throughout EqualText a b) :
    a.Hereditarily OpenLayout → b.Hereditarily OpenLayout → a.Addressable → PackAlike heap a b →
      Throughout SameCodes a b := by
  induction h with
  | @intro a b here _ ih =>
    rintro ⟨ha, hna⟩ ⟨hb, hnb⟩ ⟨hbound, hindexed, hindexed'⟩ hpack
    obtain ⟨hsize, horder, hmembers⟩ := counterparts_of_text ha hb here
    have hpairs := positionwise_of_forall₂ hmembers
    have hwrite : Positionwise (WriteAlike heap a.settings.byteOrder) a.members b.members :=
      fun i m n hm hn => (hpairs i m n hm hn).writeAlike ha hb hbound hsize horder
        (List.mem_of_getElem? hm) (List.mem_of_getElem? hn) hpack
    refine .intro ?_ ?_
    · intro i m n hm hn s t hs ht
      have hma := List.mem_of_getElem? hm
      exact (hpairs i m n hm hn).storesAs (ha.chosen m hma) (hwrite i m n hm hn) hs ht
        (hindexed m hma s hs)
    · intro i m n hm hn s t hs ht
      have hma := List.mem_of_getElem? hm
      have hnb' := List.mem_of_getElem? hn
      have hnested := Kind.nested_of_element (ha.chosen m hma) hs
      have hfill := Kind.fills (ha.checked m hma) (ha.chosen m hma)
      have hfill' := Kind.fills (hb.checked n hnb') (hb.chosen n hnb')
      -- A nested record is no longer than the record around it.
      have hinner : s.totalSize < 2 ^ 63 := by
        have hfoot := ha.toLaidOut.footprint_le hma
        have hslot := (Kind.slot_le (ha.checked m hma) (ha.chosen m hma) (by omega)).1
        have hsame := Kind.totalSize_of_fills hfill hs
        omega
      exact ih i m n hm hn s t hs ht (hna m hma s hnested)
        (hnb n hnb' t (Kind.nested_of_element (hb.chosen n hnb') ht))
        ⟨hinner, hindexed' m hma s hnested⟩
        (packAlike_of_nested (hwrite i m n hm hn) hs ht hfill hfill')

/-! ## Byte compatibility -/

/-- Whatever is packed or unpacked by means of the one schema is by means of the other. -/
def ByteCompatible (a b : Schema) : Prop :=
  a.totalSize = b.totalSize ∧
    ∀ (σ : Type) [Heap σ] (ρ : Type) [RecordAccess ρ] (heap : Option σ),
      (∀ record : ρ, a.pack record heap = b.pack record heap) ∧
      ∀ bytes, a.unpack ρ bytes heap = b.unpack ρ bytes heap

theorem Interchangeable.byteCompatible (h : a.Interchangeable b) : a.ByteCompatible b :=
  ⟨h.totalSize, fun _ _ _ _ heap =>
    ⟨fun record => h.pack record heap, fun bytes => h.unpack bytes heap⟩⟩

end Schema

/-- **Schemas of equal texts are byte-compatible exactly if they store the same codes.**  The bound
on sizes is that of an address space, so that their exact sums and products are those of machine
words. -/
theorem equal_text_interchanges {a b : Schema} (ha : a.BuiltOpenly) (hb : b.BuiltOpenly)
    (h : Schema.Throughout Schema.EqualText a b) :
    (Schema.Throughout Schema.SameCodes a b → a.ByteCompatible b) ∧
    (a.Addressable → a.ByteCompatible b → Schema.Throughout Schema.SameCodes a b) := by
  constructor
  · intro hcodes
    exact (Schema.interchangeable_of_text h hcodes ha.openLayout hb.openLayout).byteCompatible
  · intro haddr hsame
    have hpack := (hsame.2 TransientStore Fields none).1
    exact Schema.sameCodes_of_pack h ha.openLayout hb.openLayout haddr fun r _ _ => hpack r

/-! ## A record of one enum member -/

/-- A member of two labels with some codes. -/
def choicePlacement (codes : List Int64) (width : Nat) : Placement :=
  { Placement.plain "c" 0 .enumeration 1 with table := some ⟨"colour", ["X", "Y"], codes, width⟩ }

def choiceSchema (name : String) (codes : List Int64) (width : Nat) : Schema :=
  ⟨name, [⟨choicePlacement codes width,
      .single (.scalar (.enumeration ⟨"colour", ["X", "Y"], codes, width⟩)), .dynamic⟩],
    Shape.openMap.outline, 1, {}⟩

/-- Two members of one byte each. -/
def pairSchema : Schema :=
  ⟨"T", [⟨.plain "x" 0 .integer 1, .single (.scalar (.integer true)), .dynamic⟩,
      ⟨.plain "y" 1 .integer 1, .single (.scalar (.integer true)), .dynamic⟩],
    Shape.openMap.outline, 2, {}⟩

/-- A pair and a choice. -/
def offerSchema (codes : List Int64) (width : Nat) : Schema :=
  ⟨"Offer", [⟨{ Placement.plain "pair" 0 .compound 2 with nested := some pairSchema },
      .single (.record pairSchema), .dynamic⟩,
      ⟨{ Placement.plain "choice" 2 .compound 1 with
          nested := some (choiceSchema "T" codes width) },
        .single (.record (choiceSchema "T" codes width)), .dynamic⟩],
    Shape.openMap.outline, 3, {}⟩

section Offers

variable {codes codes' : List Int64} {width width' : Nat}

theorem hereditarily_choiceSchema {P : Schema → Prop} {name : String}
    (h : P (choiceSchema name codes width)) : (choiceSchema name codes width).Hereditarily P := by
  refine .intro h fun m hm t ht => ?_
  rw [List.mem_singleton.1 hm] at ht
  cases ht

theorem hereditarily_pairSchema {P : Schema → Prop} (h : P pairSchema) :
    pairSchema.Hereditarily P := by
  refine .intro h fun m hm t ht => ?_
  simp only [pairSchema, List.mem_cons, List.not_mem_nil, or_false] at hm
  rcases hm with rfl | rfl <;> cases ht

theorem hereditarily_offerSchema {P : Schema → Prop} (houter : P (offerSchema codes width))
    (hpair : P pairSchema) (hchoice : P (choiceSchema "T" codes width)) :
    (offerSchema codes width).Hereditarily P := by
  refine .intro houter fun m hm t ht => ?_
  simp only [offerSchema, List.mem_cons, List.not_mem_nil, or_false] at hm
  rcases hm with rfl | rfl <;> cases ht
  · exact hereditarily_pairSchema hpair
  · exact hereditarily_choiceSchema hchoice

theorem build_choiceSchema (name : String) :
    ({ shape := .openMap, name := some name
       placements := some [choicePlacement codes width] } : Blueprint).build =
      .ok (choiceSchema name codes width) := by cbv

theorem builtOpenly_choiceSchema (name : String) (codes : List Int64) (width : Nat) :
    (choiceSchema name codes width).BuiltOpenly :=
  hereditarily_choiceSchema ⟨_, rfl, rfl, rfl, build_choiceSchema name⟩

theorem build_pairSchema :
    ({ shape := .openMap, name := some "T"
       placements := some [.plain "x" 0 .integer 1, .plain "y" 1 .integer 1] } : Blueprint).build =
      .ok pairSchema := by cbv

theorem builtOpenly_offerSchema (codes : List Int64) (width : Nat) :
    (offerSchema codes width).BuiltOpenly := by
  have hbuild : ({ shape := .openMap, name := some "Offer"
                   placements := some ((offerSchema codes width).members.map Member.placement) } :
                   Blueprint).build = .ok (offerSchema codes width) := by cbv
  exact hereditarily_offerSchema ⟨_, rfl, rfl, rfl, hbuild⟩ ⟨_, rfl, rfl, rfl, build_pairSchema⟩
    ⟨_, rfl, rfl, rfl, build_choiceSchema "T"⟩

/-- A relation that holds of offers and of what is nested in them holds throughout. -/
theorem throughout_offerSchema {R : Schema → Schema → Prop}
    (houter : R (offerSchema codes width) (offerSchema codes' width'))
    (hpair : R pairSchema pairSchema)
    (hchoice : R (choiceSchema "T" codes width) (choiceSchema "T" codes' width')) :
    Schema.Throughout R (offerSchema codes width) (offerSchema codes' width') := by
  refine .intro houter (Schema.positionwise_of_forall₂ (.cons ?_ (.cons ?_ .nil)))
  · rintro s t ⟨⟩ ⟨⟩
    exact .intro hpair (Schema.positionwise_of_forall₂ (.cons nofun (.cons nofun .nil)))
  · rintro s t ⟨⟩ ⟨⟩
    exact .intro hchoice (Schema.positionwise_of_forall₂ (.cons nofun .nil))

end Offers

/-- The codes do not show in the text. -/
theorem canonicalText_choiceSchema (name other : String) (codes codes' : List Int64)
    (width width' : Nat) :
    (choiceSchema name codes width).canonicalText =
      (choiceSchema other codes' width').canonicalText := rfl

/-- Offers have one text, whatever the codes of the choice are. -/
theorem equalText_offerSchema (codes codes' : List Int64) (width width' : Nat) :
    Schema.Throughout Schema.EqualText (offerSchema codes width) (offerSchema codes' width') := by
  have htold : ∀ m n : Member, m.name = n.name → m.placement.table = none → Schema.NamesTold m n :=
    fun m n hname htable => ⟨.inl hname, fun s t hs => by cases htable.symm.trans hs⟩
  refine throughout_offerSchema ⟨rfl, ?_⟩ ⟨rfl, ?_⟩ ⟨canonicalText_choiceSchema .., ?_⟩ <;>
    apply Schema.positionwise_of_forall₂
  · exact .cons (htold _ _ rfl rfl) (.cons (htold _ _ rfl rfl) .nil)
  · exact .cons (htold _ _ rfl rfl) (.cons (htold _ _ rfl rfl) .nil)
  · refine .cons ⟨.inl rfl, fun s t hs ht => ?_⟩ .nil
    cases hs
    cases ht
    exact .inl rfl

/-- Offers whose choices have the same codes write and read the same raw records, and those whose
choices have other codes do not. -/
theorem equal_text_interchanges_choices :
    Schema.Throughout Schema.EqualText (offerSchema [3, 7] 1) (offerSchema [3, 7] 2) ∧
    (offerSchema [3, 7] 1).ByteCompatible (offerSchema [3, 7] 2) ∧
    Schema.Throughout Schema.EqualText (offerSchema [0, 1] 1) (offerSchema [1, 0] 1) ∧
    (offerSchema [0, 1] 1).Addressable ∧
    ¬(offerSchema [0, 1] 1).ByteCompatible (offerSchema [1, 0] 1) := by
  have hcodes : Schema.Throughout Schema.SameCodes (offerSchema [3, 7] 1)
      (offerSchema [3, 7] 2) := by
    refine throughout_offerSchema ?_ ?_ ?_ <;> apply Schema.positionwise_of_forall₂
    · exact .cons nofun (.cons nofun .nil)
    · exact .cons nofun (.cons nofun .nil)
    · refine .cons (fun s t hs ht => ?_) .nil
      cases hs
      cases ht
      exact ⟨rfl, .cons (.inl rfl) (.cons (.inl rfl) .nil)⟩
  have haddr : (offerSchema [0, 1] 1).Addressable := by
    refine ⟨by decide, hereditarily_offerSchema ?_ ?_ ?_⟩
    · simp [Schema.CodesIndexed, offerSchema, Kind.element]
    · simp [Schema.CodesIndexed, pairSchema, Kind.element]
    · simp [Schema.CodesIndexed, choiceSchema, Kind.element]
  refine ⟨equalText_offerSchema .., ?_, equalText_offerSchema .., haddr, fun hsame => ?_⟩
  · exact (equal_text_interchanges (builtOpenly_offerSchema ..) (builtOpenly_offerSchema ..)
      (equalText_offerSchema ..)).1 hcodes
  · obtain ⟨-, hnested⟩ := (equal_text_interchanges (builtOpenly_offerSchema ..)
      (builtOpenly_offerSchema ..) (equalText_offerSchema ..)).2 haddr hsame
    obtain ⟨hchoice, -⟩ := hnested 1 _ _ rfl rfl _ _ rfl rfl
    have hstored := (hchoice 0 _ _ rfl rfl _ _ rfl rfl).codes
    cases hstored with
    | cons hfirst _ =>
      rcases hfirst with heq | ⟨hfits, -⟩
      · exact absurd heq (by decide)
      · exact absurd hfits (by decide)

/-- **The text of a schema lacks the codes of its enum tables**, so that one choice is written
in two ways. -/
theorem equal_text_other_codes :
    (choiceSchema "T" [0, 1] 1).BuiltOpenly ∧ (choiceSchema "T" [1, 0] 1).BuiltOpenly ∧
    (choiceSchema "T" [0, 1] 1).canonicalText = (choiceSchema "T" [1, 0] 1).canonicalText ∧
    (choiceSchema "T" [0, 1] 1).pack ([("c", .text "Y")] : Fields) (none : Option TransientStore) ≠
      (choiceSchema "T" [1, 0] 1).pack ([("c", .text "Y")] : Fields) none := by
  refine ⟨builtOpenly_choiceSchema .., builtOpenly_choiceSchema ..,
    canonicalText_choiceSchema .., ?_⟩
  have hone : (choiceSchema "T" [0, 1] 1).pack ([("c", .text "Y")] : Fields)
      (none : Option TransientStore) = (.ok [1], none) := by cbv
  have htwo : (choiceSchema "T" [1, 0] 1).pack ([("c", .text "Y")] : Fields)
      (none : Option TransientStore) = (.ok [0], none) := by cbv
  rw [hone, htwo]
  intro h
  simp at h

end PackedRecord
