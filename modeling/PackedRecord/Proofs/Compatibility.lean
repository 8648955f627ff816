import PackedRecord.Codec.Record
import PackedRecord.Proofs.CanonicalText
import PackedRecord.Proofs.Layouts
import PackedRecord.Proofs.StoredCodes

/-!
# Interchangeable schemas

* `Schema.Interchangeable` — two schemas write and read every record alike.
* `Schema.interchangeable_of_members` — they do if their members do, one by one.
* `Schema.counterparts_of_text` — the codecs of schemas with equal texts differ in nothing but
  the codes of enum tables and inside of nested schemas.
* `Schema.interchangeable_of_text` — schemas of open maps built without overrides are
  interchangeable if their texts are equal, names can be told apart in the text, and their enum
  tables store the same codes.
-/

namespace PackedRecord

/-! ## Records that are written and read alike -/

/-- Whatever is written or read by means of the one schema is by means of the other. -/
structure Schema.Interchangeable (a b : Schema) : Prop where
  totalSize : a.totalSize = b.totalSize
  length : a.length = b.length
  write : ∀ {σ : Type} [Heap σ] (width : Nat) (value? : String → Nat → Option Value)
    (heap : Option σ), a.write width value? heap = b.write width value? heap
  readings : ∀ {σ : Type} [Heap σ] (bytes : Bytes) (heap : Option σ),
    a.readings bytes heap = b.readings bytes heap
  member : ∀ {σ : Type} [Heap σ] (bytes : Bytes) (name : String) (heap : Option σ),
    a.unpackMember bytes name heap = b.unpackMember bytes name heap

/-- Two codecs of one element write and read windows of a width alike. -/
structure Element.Interchangeable (width : Nat) (e f : Element) : Prop where
  write : ∀ {σ : Type} [Heap σ] (name : String) (order : ByteOrder) (v : Value)
    (heap : Option σ), e.write name order width v heap = f.write name order width v heap
  read : ∀ {σ : Type} [Heap σ] (name : String) (order : ByteOrder) (window : Bytes)
    (heap : Option σ), window.length ≤ width →
      e.read name order window heap = f.read name order window heap

/-- Two members write and read alike at the same place of a record. -/
structure Member.Interchangeable (m n : Member) : Prop where
  name : m.name = n.name
  mapped : m.isMapped = n.isMapped
  offset : m.placement.offset = n.placement.offset
  window : ∀ buffer, m.placement.window buffer = n.placement.window buffer
  write : ∀ {σ : Type} [Heap σ] (order : ByteOrder) (v : Value) (heap : Option σ),
    m.kind.write m.placement order v heap = n.kind.write n.placement order v heap
  read : ∀ {σ : Type} [Heap σ] (order : ByteOrder) (window : Bytes) (heap : Option σ),
    window.length ≤ m.placement.footprint →
      m.kind.read m.placement order window heap = n.kind.read n.placement order window heap

theorem Placement.length_window_le (p : Placement) (buffer : Bytes) :
    (p.window buffer).length ≤ p.footprint := List.length_take_le ..

section Members

variable {σ : Type} [Heap σ]

theorem writeMembers_congr (order : ByteOrder) (value? : String → Nat → Option Value) :
    ∀ {ms ns : List Member}, List.Forall₂ Member.Interchangeable ms ns →
    ∀ (position : Nat) (buffer : Bytes) (heap : Option σ),
      writeMembers order ms value? position buffer heap =
        writeMembers order ns value? position buffer heap
  | [], [], .nil, _, _, _ => rfl
  | ⟨p, kind, binding⟩ :: ms, ⟨q, kind', binding'⟩ :: ns, .cons h hrest, position, buffer,
      heap => by
    have ih := writeMembers_congr order value? hrest (position + 1)
    have hname : p.name = q.name := h.name
    have hoffset : p.offset = q.offset := h.offset
    have hbound : binding.isBound = binding'.isBound := h.mapped
    have hwrite : ∀ v heap, kind.write p order v heap = kind'.write (σ := σ) q order v heap :=
      h.write order
    unfold writeMembers
    rw [hbound, hname, hwrite, hoffset]
    split
    · split
      · rfl
      · exact ih _ _
    · exact ih _ _

theorem readMembers_congr (positional : Bool) (order : ByteOrder) (buffer : Bytes)
    (heap : Option σ) : ∀ {ms ns : List Member}, List.Forall₂ Member.Interchangeable ms ns →
    ∀ position : Nat, readMembers positional order buffer heap ms position =
      readMembers positional order buffer heap ns position
  | [], [], .nil, _ => rfl
  | ⟨p, kind, binding⟩ :: ms, ⟨q, kind', binding'⟩ :: ns, .cons h hrest, position => by
    have ih := readMembers_congr positional order buffer heap hrest (position + 1)
    have hname : p.name = q.name := h.name
    have hbound : binding.isBound = binding'.isBound := h.mapped
    have hwindow : p.window buffer = q.window buffer := h.window buffer
    have hread : kind.read p order (p.window buffer) heap =
        kind'.read (σ := σ) q order (p.window buffer) heap :=
      h.read order _ heap (p.length_window_le buffer)
    unfold readMembers
    dsimp only
    rw [hbound, hname, hread, hwindow, ih]

end Members

namespace Schema

/-- **Schemas are interchangeable if their members are, one by one.** -/
theorem interchangeable_of_members {a b : Schema} (hsize : a.totalSize = b.totalSize)
    (horder : a.settings.byteOrder = b.settings.byteOrder)
    (hkind : a.outline.kind = b.outline.kind)
    (hm : List.Forall₂ Member.Interchangeable a.members b.members) : a.Interchangeable b := by
  refine ⟨hsize, hm.length_eq, ?_, ?_, ?_⟩
  · intro σ _ width value? heap
    obtain ⟨_, ms, _, size, settings⟩ := a
    obtain ⟨_, ns, _, size', settings'⟩ := b
    dsimp only at hsize horder hm
    subst hsize
    unfold write
    rw [horder]
    split
    · exact writeMembers_congr _ _ hm _ _ _
    · rfl
  · intro σ _ bytes heap
    obtain ⟨_, ms, outline, size, settings⟩ := a
    obtain ⟨_, ns, outline', size', settings'⟩ := b
    dsimp only at hsize horder hkind hm
    subst hsize
    unfold readings
    rw [horder, hkind, readMembers_congr _ _ _ _ hm]
  · intro σ _ bytes name heap
    have hfind := find?_rel (p := fun m => m.name == name) (q := fun m => m.name == name) hm
      fun m _ n _ h => by rw [h.name]
    unfold unpackMember member?
    rw [hsize, horder]
    split
    · revert hfind
      cases a.members.find? fun m => m.name == name with
      | none =>
        cases b.members.find? fun m => m.name == name with
        | none => exact fun _ => rfl
        | some n => exact fun h => nomatch h
      | some m =>
        cases b.members.find? fun m => m.name == name with
        | none => exact fun h => nomatch h
        | some n =>
          rintro ⟨h⟩
          dsimp only
          rw [h.read _ _ _ (Placement.length_window_le _ _), h.window]
    · rfl

theorem Interchangeable.symm {a b : Schema} (h : a.Interchangeable b) : b.Interchangeable a :=
  ⟨h.totalSize.symm, h.length.symm, fun width value? heap => (h.write width value? heap).symm,
    fun bytes heap => (h.readings bytes heap).symm,
    fun bytes name heap => (h.member bytes name heap).symm⟩

theorem Interchangeable.trans {a b c : Schema} (h : a.Interchangeable b)
    (h' : b.Interchangeable c) : a.Interchangeable c :=
  ⟨h.totalSize.trans h'.totalSize, h.length.trans h'.length,
    fun width value? heap => (h.write width value? heap).trans (h'.write width value? heap),
    fun bytes heap => (h.readings bytes heap).trans (h'.readings bytes heap),
    fun bytes name heap => (h.member bytes name heap).trans (h'.member bytes name heap)⟩

variable {a b : Schema} {σ : Type} [Heap σ] {ρ : Type} [RecordAccess ρ]

theorem Interchangeable.pack (h : a.Interchangeable b) (record : ρ) (heap : Option σ) :
    a.pack record heap = b.pack record heap := by
  unfold Schema.pack
  rw [h.totalSize, h.write]

theorem Interchangeable.unpack (h : a.Interchangeable b) (bytes : Bytes) (heap : Option σ) :
    a.unpack ρ bytes heap = b.unpack ρ bytes heap := by
  unfold Schema.unpack
  rw [h.readings, h.length]

end Schema

/-! ## Codecs of the same layout -/

/-- Codecs that differ in nothing but the codes of an enum table and inside of nested schemas. -/
inductive Element.Akin : Element → Element → Prop
  | same (e : Element) : Akin e e
  | table {s t : EnumTable} (name : s.name = t.name) (labels : s.labels = t.labels) :
      Akin (.scalar (.enumeration s)) (.scalar (.enumeration t))
  | nested (s t : Schema) : Akin (.record s) (.record t)

namespace Element

theorem Akin.isRaw {e f : Element} (h : e.Akin f) : e.isRaw = f.isRaw := by
  cases h <;> rfl

theorem Akin.interchangeable {e f : Element} (h : e.Akin f) {width : Nat}
    (hcodes : ∀ s t, e = .scalar (.enumeration s) → f = .scalar (.enumeration t) →
      width ≤ 8 ∧ s.StoresAs width t)
    (hnested : ∀ s t, e = .record s → f = .record t → s.Interchangeable t) :
    e.Interchangeable width f := by
  cases h with
  | same => exact ⟨fun _ _ _ _ => rfl, fun _ _ _ _ _ => rfl⟩
  | @table s t hname hlabels =>
    obtain ⟨hw, hst⟩ := hcodes s t rfl rfl
    constructor
    · intro σ _ name order v heap
      simp only [write, Scalar.write, hst.writeChoice_congr hname hlabels]
    · intro σ _ name order window heap hlen
      simp only [read, Scalar.read, hst.readChoice_congr hlabels hw order hlen]
  | nested s t =>
    have h := hnested s t rfl rfl
    constructor
    · intro σ _ name order v heap
      simp only [write, h.write]
    · intro σ _ name order window heap _
      simp only [read, h.readings]

variable {p q : Placement} {settings settings' : Settings}

theorem fallback_congr (hl : p.SameLayout q) : fallback p = fallback q := by
  unfold fallback Placement.isVarying
  rw [hl.size]

/-- The views of counts are the default only where the member states what is counted. -/
theorem choose_congr (hl : p.SameLayout q) {view : View}
    (hview : view = .timePoint ∨ view = .duration → p.meaning.isSome)
    (htable : view ≠ .enumeration) (hnested : view ≠ .compound) :
    choose p settings view = choose q settings' view := by
  have hf := fallback_congr hl
  have hv : p.isVarying = q.isVarying := by
    unfold Placement.isVarying
    rw [hl.size]
  have hunit : view = .timePoint ∨ view = .duration →
      (p.meaning.map Meaning.unit).getD settings.timeUnit =
        (q.meaning.map Meaning.unit).getD settings'.timeUnit := by
    intro h
    obtain ⟨m, hm⟩ := Option.isSome_iff_exists.1 (hview h)
    rw [← hl.meaning, hm]
    rfl
  cases view with
  | enumeration => exact absurd rfl htable
  | compound => exact absurd rfl hnested
  | timePoint => simp only [choose, hunit (.inl rfl), hf, hl.size]
  | duration => simp only [choose, hunit (.inr rfl), hf, hl.size]
  | _ => simp only [choose, hf, hv, hl.size, hl.signed, hl.charset]

end Element

namespace Element

variable {p q : Placement} {settings settings' : Settings}

theorem akin_of_choose (hl : p.SameLayout q) (htables : SameTable p.table q.table)
    (hsome : p.nested.isSome = q.nested.isSome) {view : View}
    (hview : view = .timePoint ∨ view = .duration → p.meaning.isSome) {e f : Element}
    (he : choose p settings view = .ok e) (hf : choose q settings' view = .ok f) : e.Akin f := by
  by_cases htable : view = .enumeration
  · subst htable
    unfold choose at he hf
    dsimp only at he hf
    rw [← hl.size, ← hl.signed] at hf
    generalize hs : p.table = s at he
    generalize ht : q.table = t at hf
    rw [hs, ht] at htables
    cases htables with
    | none =>
      rw [he] at hf
      cases hf
      exact .same e
    | @some s t hname hlabels =>
      dsimp only at he hf
      split at he
      · rename_i hfits
        rw [if_pos hfits] at hf
        cases he
        cases hf
        exact .table hname hlabels
      · cases he
  by_cases hnested : view = .compound
  · subst hnested
    unfold choose at he hf
    dsimp only at he hf
    cases hs : p.nested with
    | none =>
      cases ht : q.nested with
      | none =>
        rw [hs] at he
        rw [ht] at hf
        cases he
        cases hf
        exact .same _
      | some t =>
        rw [hs, ht] at hsome
        cases hsome
    | some s =>
      cases ht : q.nested with
      | none =>
        rw [hs, ht] at hsome
        cases hsome
      | some t =>
        rw [hs] at he
        rw [ht] at hf
        cases he
        cases hf
        exact .nested s t
  · rw [choose_congr hl hview htable hnested, hf] at he
    cases he
    exact .same e

end Element

/-! ## Members of the same layout -/

theorem View.meaning_of_count {c : StorageClass} {size : Int} {meaning : Option Meaning}
    (h : ofElement c size meaning = timePoint ∨ ofElement c size meaning = duration) :
    meaning.isSome := by
  cases meaning with
  | some m => rfl
  | none =>
    unfold ofElement at h
    rw [if_neg (by simp)] at h
    split at h
    · dsimp only at h
      split at h <;> simp at h
    · split at h <;> simp at h
    · simp at h
    · simp at h
    · simp at h
    · split at h <;> simp at h
    · simp at h
    · split at h <;> simp at h
    · simp at h

/-- Views of counts are the default of members that state what is counted. -/
theorem Placement.meaning_of_count (p : Placement) (view : View)
    (hv : p.view {} = view ∨ ∃ rank, p.view {} = .array view rank)
    (h : view = .timePoint ∨ view = .duration) : p.meaning.isSome := by
  have hdefault : p.view {} = View.ofMember p.storageClass p.size p.rank p.meaning := rfl
  rw [hdefault] at hv
  rcases h with rfl | rfl
  · exact View.meaning_of_count (.inl (View.element_of_ofMember (by simp) (by simp) hv))
  · exact View.meaning_of_count (.inr (View.element_of_ofMember (by simp) (by simp) hv))

namespace Kind

variable {p q : Placement} {settings settings' : Settings}

/-- Without overrides, members of the same layout have akin codecs. -/
theorem exists_akin (hl : p.SameLayout q) (htables : SameTable p.table q.table)
    (hsome : p.nested.isSome = q.nested.isSome) {k l : Kind}
    (hk : ofPlacement {} settings p = .ok k) (hm : ofPlacement {} settings' q = .ok l) :
    ∃ e f : Element, e.Akin f ∧
      (k = .single e ∧ l = .single f ∨ k = .array e ∧ l = .array f) := by
  have harray : q.isArray = p.isArray := by
    unfold Placement.isArray
    rw [hl.dims]
  have hview : q.view {} = p.view {} := by
    unfold Placement.view Placement.viewKey Placement.rank
    rw [hl.storageClass, hl.size, hl.dims, hl.meaning]
  have hcount := p.meaning_of_count
  have hakin : ∀ view : View, (p.view {} = view ∨ ∃ rank, p.view {} = .array view rank) →
      ∀ e f, Element.ofView p settings view = .ok e → Element.ofView q settings' view = .ok f →
        e.Akin f := fun view hv e f he hf =>
    Element.akin_of_choose hl htables hsome (hcount view hv) (Element.choose_of_ofView he).1
      (Element.choose_of_ofView hf).1
  unfold ofPlacement at hk hm
  rw [harray, hview] at hm
  split at hk
  · rename_i ha
    rw [if_pos ha] at hm
    split at hk
    · rename_i view rank hv
      rw [hv] at hm
      dsimp only at hm
      rcases he : Element.ofView p settings view with _ | e <;> simp only [he, Except.map] at hk
      · cases hk
      rcases hf : Element.ofView q settings' view with _ | f <;> simp only [hf, Except.map] at hm
      · cases hm
      cases hk
      cases hm
      exact ⟨e, f, hakin view (.inr ⟨rank, hv⟩) e f he hf, .inr ⟨rfl, rfl⟩⟩
    · rcases he : Element.ofView p settings (p.view {}) with _ | e <;>
        simp only [he, Except.map] at hk
      · cases hk
      split at hm
      · rename_i hnot _ view rank hv
        exact absurd hv (hnot view rank)
      rcases hf : Element.ofView q settings' (p.view {}) with _ | f <;>
        simp only [hf, Except.map] at hm
      · cases hm
      have ht := hakin _ (.inl rfl) e f he hf
      cases hk
      cases hm
      refine ⟨e, f, ht, ?_⟩
      rw [ht.isRaw]
      split
      · exact .inl ⟨rfl, rfl⟩
      · exact .inr ⟨rfl, rfl⟩
  · rename_i ha
    rw [if_neg ha] at hm
    rcases he : Element.ofView p settings (p.view {}) with _ | e <;>
      simp only [he, Except.map] at hk
    · cases hk
    rcases hf : Element.ofView q settings' (p.view {}) with _ | f <;>
      simp only [hf, Except.map] at hm
    · cases hm
    cases hk
    cases hm
    exact ⟨e, f, hakin _ (.inl rfl) e f he hf, .inl ⟨rfl, rfl⟩⟩

end Kind

/-- Codec of the elements of a member. -/
def Kind.element : Kind → Element
  | single element => element
  | array element => element

/-- Both are codecs of one element, or both of arrays. -/
def Kind.SameForm (k l : Kind) : Prop :=
  k = .single k.element ∧ l = .single l.element ∨ k = .array k.element ∧ l = .array l.element

/-- A nested record is coded by the schema that the member states. -/
theorem Kind.nested_of_element {rules : ViewRules} {settings : Settings} {p : Placement}
    {kind : Kind} {s : Schema} (h : ofPlacement rules settings p = .ok kind)
    (hs : kind.element = .record s) : p.nested = some s := by
  obtain ⟨view, element, he, hkind, -⟩ := exists_ofView h
  have hsuits := Element.suits_of_ofView he
  rcases hkind with ⟨-, rfl⟩ | ⟨-, -, rfl⟩ | ⟨-, rfl⟩ <;>
  · dsimp only [Kind.element] at hs
    subst hs
    exact hsuits

/-- Bytes of the windows that the codec of the elements is given. -/
def Kind.slot (p : Placement) : Kind → Nat
  | single _ => p.footprint
  | array _ => p.elementWidth

/-- Codes of enum tables are words of one element's width. -/
theorem Kind.slot_of_enumeration {rules : ViewRules} {settings : Settings} {p : Placement}
    {kind : Kind} {t : EnumTable} (h : ofPlacement rules settings p = .ok kind)
    (ht : kind.element = .scalar (.enumeration t)) :
    kind.slot p = p.elementWidth ∧ IsWordWidth p.elementWidth := by
  obtain ⟨view, element, he, hkind, -⟩ := exists_ofView h
  have hwidth := Element.suits_of_ofView he
  have hvarying := (Element.choose_of_ofView he).2
  rcases hkind with ⟨-, rfl⟩ | ⟨-, hraw, rfl⟩ | ⟨ha, rfl⟩
  all_goals
    dsimp only [Kind.element] at ht
    subst ht
    have hv : p.isVarying = false := hvarying.symm
    rw [Placement.elementWindow, hv, if_neg Bool.false_ne_true] at hwidth
  · exact ⟨rfl, hwidth⟩
  · cases hraw
  · exact ⟨Placement.footprint_of_single ha hv, hwidth⟩

theorem length_le_of_mem_runs {width : Nat} : ∀ {count : Nat} {bytes run : Bytes},
    run ∈ Codec.runs width count bytes → run.length ≤ width
  | 0, _, _, h => nomatch h
  | count + 1, bytes, run, h => by
    rcases List.mem_cons.1 h with rfl | h
    · exact List.length_take_le ..
    · exact length_le_of_mem_runs h

theorem readRun_congr {read read' : Bytes → Except Error Value} : ∀ {windows : List Bytes},
    (∀ window ∈ windows, read window = read' window) → readRun read windows = readRun read' windows
  | [], _ => rfl
  | window :: rest, h => by
    unfold readRun
    rw [h window List.mem_cons_self,
      readRun_congr fun w hw => h w (List.mem_cons_of_mem _ hw)]

namespace Placement.SameLayout

variable {p q : Placement}

theorem elements (h : p.SameLayout q) : p.elements = q.elements := by
  unfold Placement.elements
  rw [h.dims]

theorem elementWidth (h : p.SameLayout q) : p.elementWidth = q.elementWidth := by
  unfold Placement.elementWidth
  rw [h.size]

theorem footprint (h : p.SameLayout q) : p.footprint = q.footprint := by
  unfold Placement.footprint Placement.extent Placement.isVarying
  rw [h.size, h.elements]

end Placement.SameLayout

/-- Members of the same layout whose codecs write and read alike do so themselves. -/
theorem Member.interchangeable_of_elements {m n : Member}
    (hl : m.placement.SameLayout n.placement) (hmapped : m.isMapped = n.isMapped)
    (hform : m.kind.SameForm n.kind)
    (hef : m.kind.element.Interchangeable (m.kind.slot m.placement) n.kind.element) :
    m.Interchangeable n := by
  obtain ⟨p, kind, binding⟩ := m
  obtain ⟨q, kind', binding'⟩ := n
  obtain ⟨e, f, hkinds, hcodec⟩ : ∃ e f : Element,
      (kind = .single e ∧ kind' = .single f ∨ kind = .array e ∧ kind' = .array f) ∧
        e.Interchangeable (kind.slot p) f := ⟨_, _, hform, hef⟩
  dsimp only at hl
  have helements := hl.elements
  have hwidth := hl.elementWidth
  have hfoot := hl.footprint
  have hwindow : ∀ buffer, p.window buffer = q.window buffer := by
    intro buffer
    unfold Placement.window
    rw [hl.offset, hfoot]
  refine ⟨hl.name, hmapped, hl.offset, hwindow, ?_, ?_⟩
  · intro σ _ order v heap
    rcases hkinds with ⟨rfl, rfl⟩ | ⟨rfl, rfl⟩
    · have hwrite := hcodec.write (σ := σ) p.name order v heap
      simp only [Kind.slot, hl.name, hfoot] at hwrite
      simp only [Kind.write, hl.name, hfoot, hwrite]
    · have hwrite : e.write (σ := σ) p.name order p.elementWidth =
          f.write p.name order p.elementWidth := by
        funext v heap
        exact hcodec.write p.name order v heap
      rw [hl.name, hwidth] at hwrite
      simp only [Kind.write, hl.name, hfoot, hl.dims, hwidth, hwrite]
  · intro σ _ order window heap hlen
    rcases hkinds with ⟨rfl, rfl⟩ | ⟨rfl, rfl⟩
    · simp only [Kind.read, hl.name, hcodec.read q.name order window heap hlen]
    · have hread : readRun (fun run => e.read p.name order run heap)
            (Codec.runs p.elementWidth p.elements window) =
          readRun (fun run => f.read p.name order run heap)
            (Codec.runs p.elementWidth p.elements window) :=
        readRun_congr fun run hrun => hcodec.read p.name order run heap (length_le_of_mem_runs hrun)
      rw [hl.name, hwidth, helements] at hread
      simp only [Kind.read, hl.name, hwidth, helements, hl.dims, hread]

/-! ## Schemas of the same text -/

namespace Schema

theorem forall₂_of_positionwise {R S : Member → Member → Prop} : ∀ {ms ns : List Member},
    List.Forall₂ R ms ns → Positionwise (fun m n => R m n → S m n) ms ns → List.Forall₂ S ms ns
  | [], [], .nil, _ => .nil
  | _ :: _, _ :: _, .cons h hrest, hp => .cons (hp.head h) (forall₂_of_positionwise hrest hp.tail)

theorem positionwise_of_forall₂ {R : Member → Member → Prop} : ∀ {ms ns : List Member},
    List.Forall₂ R ms ns → Positionwise R ms ns
  | [], [], .nil => fun _ _ _ hm => nomatch hm
  | _ :: _, _ :: _, .cons h hrest => fun i m n hm hn => by
    cases i with
    | zero =>
      cases hm
      cases hn
      exact h
    | succ i => exact positionwise_of_forall₂ hrest i m n hm hn

/-- A relation between two schemas, and between the nested schemas that members at the same
positions are coded by. -/
inductive Throughout (R : Schema → Schema → Prop) : Schema → Schema → Prop
  | intro {a b : Schema} (here : R a b)
      (nested : Positionwise (fun m n => ∀ s t, m.kind.element = .record s →
        n.kind.element = .record t → Throughout R s t) a.members b.members) : Throughout R a b

/-- The canonical texts are equal, and the names in them can be told from the text around. -/
structure EqualText (a b : Schema) : Prop where
  text : a.canonicalText = b.canonicalText
  names : Positionwise NamesTold a.members b.members

/-- Members at the same position that are coded by enum tables store the same codes. -/
def SameCodes (a b : Schema) : Prop :=
  Positionwise (fun m n => ∀ s t, m.kind.element = .scalar (.enumeration s) →
    n.kind.element = .scalar (.enumeration t) → s.StoresAs m.placement.elementWidth t)
    a.members b.members

/-- The schema and all schemas nested in it were built for open maps, without overrides. -/
def BuiltOpenly (s : Schema) : Prop :=
  s.Hereditarily fun t => ∃ b : Blueprint,
    b.shape.kind = .map ∧ b.shape.fields = [] ∧ b.rules = {} ∧ b.build = .ok t

/-- A layout without overrides whose members are all mapped by an open map. -/
structure OpenLayout (s : Schema) : Prop extends LaidOut {} s where
  kind : s.outline.kind = .map
  mapped : ∀ m ∈ s.members, m.isMapped = true

theorem BuiltOpenly.openLayout {s : Schema} (h : s.BuiltOpenly) : s.Hereditarily OpenLayout := by
  refine h.mono fun t ⟨b, hkind, hfields, hrules, hb⟩ => ?_
  obtain ⟨ht, houtline, -⟩ := Blueprint.laidOut_of_build hb
  rw [hrules] at ht
  have hopen : t.outline.isOpen = true := by
    rw [houtline]
    unfold Outline.isOpen Shape.outline
    rw [hkind, hfields]
    rfl
  refine ⟨ht, by rw [houtline]; exact hkind, fun m hm => ?_⟩
  rw [Member.isMapped, ht.bound m hm, Outline.bind, if_pos hopen]
  rfl

/-- Members of one text, whose codecs differ in codes of enum tables and in nested schemas. -/
structure Counterparts (m n : Member) : Prop extends SameText m n where
  form : m.kind.SameForm n.kind
  akin : m.kind.element.Akin n.kind.element

variable {a b : Schema}

/-- Members at the same position of schemas with equal texts are counterparts. -/
theorem counterparts_of_text (ha : a.OpenLayout) (hb : b.OpenLayout) (h : EqualText a b) :
    a.totalSize = b.totalSize ∧ a.settings.byteOrder = b.settings.byteOrder ∧
      List.Forall₂ Counterparts a.members b.members := by
  obtain ⟨hsize, horder, hmembers⟩ := canonicalText_inj h.names h.text
  refine ⟨hsize, horder, forall₂_of_positionwise hmembers fun i m n hm hn htext => ?_⟩
  obtain ⟨e, f, hakin, hkinds⟩ := Kind.exists_akin htext.layout htext.table htext.nested
    (ha.chosen m (List.mem_of_getElem? hm)) (hb.chosen n (List.mem_of_getElem? hn))
  rcases hkinds with ⟨hk, hl⟩ | ⟨hk, hl⟩
  · refine ⟨htext, ?_, ?_⟩ <;> rw [hk, hl]
    · exact .inl ⟨rfl, rfl⟩
    · exact hakin
  · refine ⟨htext, ?_, ?_⟩ <;> rw [hk, hl]
    · exact .inr ⟨rfl, rfl⟩
    · exact hakin

/-- **Schemas of equal texts and codes are interchangeable.** -/
theorem interchangeable_of_text (h : Throughout EqualText a b) :
    Throughout SameCodes a b → a.Hereditarily OpenLayout → b.Hereditarily OpenLayout →
      a.Interchangeable b := by
  induction h with
  | @intro a b here _ ih =>
    rintro ⟨hcodes, hnested⟩ ⟨ha, hna⟩ ⟨hb, hnb⟩
    obtain ⟨hsize, horder, hmembers⟩ := counterparts_of_text ha hb here
    refine interchangeable_of_members hsize horder (ha.kind.trans hb.kind.symm) ?_
    refine forall₂_of_positionwise hmembers fun i m n hm hn hmn => ?_
    have hma := List.mem_of_getElem? hm
    have hnb' := List.mem_of_getElem? hn
    have hstored : ∀ s t, m.kind.element = .scalar (.enumeration s) →
        n.kind.element = .scalar (.enumeration t) →
        m.kind.slot m.placement ≤ 8 ∧ s.StoresAs (m.kind.slot m.placement) t := by
      intro s t hs ht
      obtain ⟨hslot, hword⟩ := Kind.slot_of_enumeration (ha.chosen m hma) hs
      rw [hslot]
      exact ⟨hword.le_eight, hcodes i m n hm hn s t hs ht⟩
    have hmapped := (ha.mapped m hma).trans (hb.mapped n hnb').symm
    refine Member.interchangeable_of_elements hmn.layout hmapped hmn.form ?_
    refine hmn.akin.interchangeable hstored fun s t hs ht => ?_
    exact ih i m n hm hn s t hs ht (hnested i m n hm hn s t hs ht)
      (hna m hma s (Kind.nested_of_element (ha.chosen m hma) hs))
      (hnb n hnb' t (Kind.nested_of_element (hb.chosen n hnb') ht))

end Schema

end PackedRecord
