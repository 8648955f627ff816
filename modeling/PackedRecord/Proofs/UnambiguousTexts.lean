import PackedRecord.Proofs.EqualTexts

/-!
# Schemas that a canonical text tells apart

Everything that the text states of a member behind its name lacks the two characters that set
members and names off.  A name may have both, and then it may read like a member and the start of
another one: this is the only way in which two layouts come to the same text.

* `Placement.Swallows` — the name of a member starts with the text of another one.
* `Placement.canonicalText_cases` — the text of a member, with members behind it.
* `Schema.sameMembers_iff` — by induction over the members.
* `layout_text_tells_apart` — when equal texts mean equal layouts.
* `layout_text_ambiguous` — one member has the text of two.
-/

namespace PackedRecord

open Text

namespace Placement

variable {p q : Placement}

/-- The part of a text behind the name has neither of the characters that set it off. -/
theorem notMem_layoutText {c : Char} (hc : c = '@' ∨ c = '|') (p : Placement) :
    c ∉ p.layoutText := by
  have hdigit : c.isDigit = false := by rcases hc with rfl | rfl <;> decide
  have hminus : c ≠ '-' := by rcases hc with rfl | rfl <;> decide
  have hslash : c ≠ '/' := by rcases hc with rfl | rfl <;> decide
  have hcolon : c ≠ ':' := by rcases hc with rfl | rfl <;> decide
  have hlist : c ∉ ['[', ']', ',', ' '] := by rcases hc with rfl | rfl <;> decide
  have hclass : c ∉ p.storageClass.name.toList := by
    rcases hc with rfl | rfl <;> cases p.storageClass <;> decide
  have hsigned : c ∉ (toString p.signed).toList := by
    rcases hc with rfl | rfl <;> cases p.signed <;> decide
  have hcharset : c ∉ p.charset.name.toList := by
    rcases hc with rfl | rfl <;> cases p.charset <;> decide
  have hmeaning : c ∉ (meaningText p.meaning).toList := by
    rcases hc with rfl | rfl <;> rcases p.meaning with _ | ⟨u | u⟩ <;>
      first | decide | (cases u <;> decide)
  have hoffset := notMem_toString_nat hdigit p.offset
  have hsize := notMem_toString_int hdigit hminus p.size
  have hdims : c ∉ (bracketed (p.dims.map toString)).toList :=
    notMem_bracketed hlist (notMem_toString_nat hdigit)
  simp only [layoutText, List.mem_append, List.mem_cons, not_or]
  exact ⟨hoffset, hcolon, hclass, hslash, hsize, hslash, hsigned, hslash, hdims, hslash, hcharset,
    hslash, hmeaning⟩

/-- The name of the first placement starts with the whole text of the second one and goes on as
another member would. -/
def Swallows (p q : Placement) : Prop :=
  ∃ rest, p.name.toList = q.name.toList ++ '@' :: (q.layoutText ++ '|' :: rest)

theorem Swallows.mem (h : p.Swallows q) : '@' ∈ p.name.toList ∧ '|' ∈ p.name.toList := by
  obtain ⟨rest, h⟩ := h
  rw [h]
  constructor <;> simp

theorem Swallows.name_ne (h : p.Swallows q) : p.name ≠ q.name := by
  obtain ⟨rest, h⟩ := h
  intro hname
  have hlength := congrArg List.length h
  rw [hname, List.length_append, List.length_cons] at hlength
  omega

/-- **Two placements at the head of one text are laid out alike, or the name of one holds the
other.** -/
theorem canonicalText_cases {x y : List Char} (hx : Stops (· = '|') x) (hy : Stops (· = '|') y)
    (h : p.canonicalText.toList ++ x = q.canonicalText.toList ++ y) :
    (p.SameLayout q ∧ x = y) ∨ p.Swallows q ∨ q.Swallows p := by
  have hmarks : ∀ r : Placement, '@' ∉ r.layoutText := notMem_layoutText (.inl rfl)
  have hends : ∀ {z : List Char}, Stops (· = '|') z → Stops partEnds z :=
    fun hz c cs hcs => .inr (hz c cs hcs)
  have hcut := h
  rw [toList_canonicalText, toList_canonicalText] at hcut
  simp only [List.cons_append, List.append_assoc, List.cons.injEq, true_and] at hcut
  rcases mark_cases (by decide) (hmarks p) (hmarks q) hx hy hcut with hname | hholds | hheld
  · exact .inl (canonicalText_inj (.inl (String.toList_inj.1 hname)) (hends hx) (hends hy) h)
  · exact .inr (.inl hholds)
  · exact .inr (.inr hheld)

end Placement

/-! ## Members without tables and nested records -/

/-- The member has neither an enum table nor a nested schema. -/
def Member.Bare (m : Member) : Prop := m.placement.table = none ∧ m.placement.nested = none

namespace Schema

/-- No member has an enum table or a nested schema. -/
def Bare (s : Schema) : Prop := ∀ m ∈ s.members, m.Bare

/-- Neither member can be taken for the other one and more. -/
def Told (m n : Member) : Prop :=
  ¬m.placement.Swallows n.placement ∧ ¬n.placement.Swallows m.placement

/-- The members are laid out alike, one by one. -/
def SameMembers (ms ns : List Member) : Prop :=
  List.Forall₂ (fun m n => m.placement.SameLayout n.placement) ms ns

/-- Size, byte order and members of two schemas are the same. -/
structure SameRaw (a b : Schema) : Prop where
  totalSize : a.totalSize = b.totalSize
  byteOrder : a.settings.byteOrder = b.settings.byteOrder
  members : SameMembers a.members b.members

theorem canonicalTextOf_cons_of_bare {m : Member} (hm : m.Bare) (rest : List Member) :
    (canonicalTextOf (m :: rest)).toList =
      m.placement.canonicalText.toList ++ (canonicalTextOf rest).toList := by
  rw [canonicalTextOf_cons, nestedText_none hm.2, hm.1]
  rfl

theorem SameMembers.told {ms ns : List Member} (h : SameMembers ms ns) : Positionwise Told ms ns :=
  positionwise_of_forall₂ (h.imp fun _ _ hsame =>
    ⟨fun hholds => hholds.name_ne hsame.name, fun hheld => hheld.name_ne hsame.name.symm⟩)

theorem SameMembers.text_eq {ms ns : List Member} (h : SameMembers ms ns)
    (hms : ∀ m ∈ ms, m.Bare) (hns : ∀ n ∈ ns, n.Bare) :
    (canonicalTextOf ms).toList = (canonicalTextOf ns).toList := by
  induction h with
  | nil => rfl
  | @cons m n ms ns hsame _ ih =>
    rw [List.forall_mem_cons] at hms hns
    have hlayout : m.placement.layoutText = n.placement.layoutText := by
      simp only [Placement.layoutText, hsame.offset, hsame.storageClass, hsame.size, hsame.signed,
        hsame.dims, hsame.charset, hsame.meaning]
    rw [canonicalTextOf_cons_of_bare hms.1, canonicalTextOf_cons_of_bare hns.1, ih hms.2 hns.2,
      Placement.toList_canonicalText, Placement.toList_canonicalText, hsame.name, hlayout]

theorem sameMembers_of_told : ∀ {ms ns : List Member}, (∀ m ∈ ms, m.Bare) → (∀ n ∈ ns, n.Bare) →
    (canonicalTextOf ms).toList = (canonicalTextOf ns).toList → Positionwise Told ms ns →
    SameMembers ms ns
  | [], [], _, _, _, _ => .nil
  | [], n :: ns, _, hns, h, _ => by
    rw [canonicalTextOf_cons, Placement.toList_canonicalText] at h
    cases h
  | m :: ms, [], hms, _, h, _ => by
    rw [canonicalTextOf_cons, Placement.toList_canonicalText] at h
    cases h
  | m :: ms, n :: ns, hms, hns, h, ht => by
    rw [List.forall_mem_cons] at hms hns
    rw [canonicalTextOf_cons_of_bare hms.1, canonicalTextOf_cons_of_bare hns.1] at h
    obtain ⟨hnot, hnot'⟩ := ht.head
    rcases Placement.canonicalText_cases (stops_canonicalTextOf ms) (stops_canonicalTextOf ns) h
      with ⟨hsame, hrest⟩ | hholds | hheld
    · exact .cons hsame (sameMembers_of_told hms.2 hns.2 hrest ht.tail)
    · exact absurd hholds hnot
    · exact absurd hheld hnot'

/-- **Members of one text are laid out alike exactly if no name swallows a member.** -/
theorem sameMembers_iff {ms ns : List Member} (hms : ∀ m ∈ ms, m.Bare) (hns : ∀ n ∈ ns, n.Bare)
    (h : (canonicalTextOf ms).toList = (canonicalTextOf ns).toList) :
    SameMembers ms ns ↔ Positionwise Told ms ns :=
  ⟨SameMembers.told, sameMembers_of_told hms hns h⟩

/-- Names that lack one of the two characters swallow nothing. -/
theorem told_of_names {ms ns : List Member}
    (h : ∀ m ∈ ms ++ ns, '@' ∉ m.name.toList ∨ '|' ∉ m.name.toList) : Positionwise Told ms ns := by
  have hnot : ∀ m ∈ ms ++ ns, ∀ q, ¬m.placement.Swallows q := by
    intro m hm q hholds
    rcases h m hm with hmark | hbar
    · exact hmark hholds.mem.1
    · exact hbar hholds.mem.2
  intro i m n hm hn
  exact ⟨hnot m (List.mem_append_left _ (List.mem_of_getElem? hm)) _,
    hnot n (List.mem_append_right _ (List.mem_of_getElem? hn)) _⟩

end Schema

/-- **When a canonical text determines a layout.**  Schemas without enum tables and nested records
that have one text agree in size and byte order, and in their members exactly if nowhere the name of
one member holds the text of the other.  Where every name lacks one of the two characters `@` and
`|`, the text is the layout: equal texts are equal layouts. -/
theorem layout_text_tells_apart {a b : Schema} (ha : a.Bare) (hb : b.Bare) :
    (a.canonicalText = b.canonicalText →
      a.totalSize = b.totalSize ∧ a.settings.byteOrder = b.settings.byteOrder ∧
        (Schema.SameMembers a.members b.members ↔
          Schema.Positionwise Schema.Told a.members b.members)) ∧
    ((∀ m ∈ a.members ++ b.members, '@' ∉ m.name.toList ∨ '|' ∉ m.name.toList) →
      (a.canonicalText = b.canonicalText ↔ a.SameRaw b)) := by
  have hparts : a.canonicalText = b.canonicalText →
      a.totalSize = b.totalSize ∧ a.settings.byteOrder = b.settings.byteOrder ∧
        (Schema.SameMembers a.members b.members ↔
          Schema.Positionwise Schema.Told a.members b.members) := by
    intro h
    obtain ⟨hsize, horder, hmembers⟩ := Schema.canonicalText_parts h
    exact ⟨hsize, horder, Schema.sameMembers_iff ha hb hmembers⟩
  refine ⟨hparts, fun hnames => ?_⟩
  constructor
  · intro h
    obtain ⟨hsize, horder, hiff⟩ := hparts h
    exact ⟨hsize, horder, hiff.2 (Schema.told_of_names hnames)⟩
  · rintro ⟨hsize, horder, hmembers⟩
    rw [← String.toList_inj, Schema.toList_canonicalText, Schema.toList_canonicalText, hsize,
      horder, hmembers.text_eq ha hb]

/-! ## Names that read like members -/

/-- The name of the one member reads like another member and the beginning of itself. -/
def joinedSchema : Schema :=
  ⟨"T", [⟨.plain "x@0:Integer/1/true/[]/Ascii/None|y" 1 .integer 1,
      .single (.scalar (.integer true)), .dynamic⟩], Shape.openMap.outline, 2, {}⟩

theorem builtOpenly_pairSchema : pairSchema.BuiltOpenly :=
  hereditarily_pairSchema ⟨_, rfl, rfl, rfl, build_pairSchema⟩

theorem builtOpenly_joinedSchema : joinedSchema.BuiltOpenly := by
  have hbuild : ({ shape := .openMap, name := some "T"
                   placements := some [.plain "x@0:Integer/1/true/[]/Ascii/None|y" 1 .integer 1] } :
                   Blueprint).build = .ok joinedSchema := by cbv
  refine .intro ⟨_, rfl, rfl, rfl, hbuild⟩ fun m hm t ht => ?_
  rw [List.mem_singleton.1 hm] at ht
  cases ht

theorem canonicalText_joinedSchema : pairSchema.canonicalText = joinedSchema.canonicalText := by
  decide +kernel

theorem bare_pairSchema : pairSchema.Bare := by
  simp [Schema.Bare, Member.Bare, pairSchema, Placement.plain]

theorem bare_joinedSchema : joinedSchema.Bare := by
  simp [Schema.Bare, Member.Bare, joinedSchema, Placement.plain]

/-- Two members whose names have one of the two characters each. -/
def markedSchema (name : String) : Schema :=
  ⟨name, [⟨.plain "a|b" 0 .float 8, .single (.scalar .float), .dynamic⟩,
      ⟨(Placement.plain "c@d" 8 .integer 2).withDims [3], .array (.scalar (.integer true)),
        .dynamic⟩],
    Shape.openMap.outline, 14, {}⟩

theorem bare_markedSchema (name : String) : (markedSchema name).Bare := by
  simp [Schema.Bare, Member.Bare, markedSchema, Placement.plain, Placement.withDims]

/-- Names with one of the characters are told apart, and of one member with the text of two the name
swallows the first of them. -/
theorem layout_text_tells_apart_marked :
    (markedSchema "T").Bare ∧ (markedSchema "U").Bare ∧
    (markedSchema "T").canonicalText = (markedSchema "U").canonicalText ∧
    (markedSchema "T").SameRaw (markedSchema "U") ∧
    pairSchema.Bare ∧ joinedSchema.Bare ∧
    ¬Schema.Positionwise Schema.Told pairSchema.members joinedSchema.members := by
  have htext : (markedSchema "T").canonicalText = (markedSchema "U").canonicalText := rfl
  have hlacks : ∀ m ∈ (markedSchema "T").members ++ (markedSchema "U").members,
      '@' ∉ m.name.toList ∨ '|' ∉ m.name.toList := by decide
  obtain ⟨-, hnames⟩ :=
    layout_text_tells_apart (bare_markedSchema "T") (bare_markedSchema "U")
  obtain ⟨hparts, -⟩ := layout_text_tells_apart bare_pairSchema bare_joinedSchema
  obtain ⟨-, -, hiff⟩ := hparts canonicalText_joinedSchema
  refine ⟨bare_markedSchema "T", bare_markedSchema "U", htext, (hnames hlacks).1 htext,
    bare_pairSchema, bare_joinedSchema, fun htold => ?_⟩
  have hlength := (hiff.2 htold).length_eq
  simp [pairSchema, joinedSchema] at hlength

/-- **A canonical text may be that of two layouts**: one member has the text of two. -/
theorem layout_text_ambiguous :
    pairSchema.BuiltOpenly ∧ joinedSchema.BuiltOpenly ∧ pairSchema.Bare ∧ joinedSchema.Bare ∧
    pairSchema.canonicalText = joinedSchema.canonicalText ∧
    pairSchema.members.length = 2 ∧ joinedSchema.members.length = 1 :=
  ⟨builtOpenly_pairSchema, builtOpenly_joinedSchema, bare_pairSchema, bare_joinedSchema,
    canonicalText_joinedSchema, rfl, rfl⟩

end PackedRecord
