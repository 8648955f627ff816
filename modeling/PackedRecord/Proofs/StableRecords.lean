import PackedRecord.Proofs.ByteRanges
import PackedRecord.Proofs.CanonicalForms
import PackedRecord.Proofs.ReadableSchemas
import PackedRecord.Proofs.SingleValues

/-!
# Writing what was read

A record that was written reads back as its canonical form.  The form is written like the record
itself, so that it is accepted, reads back as it is, and leaves the same bytes where no handle
of a heap lies among them.

* `Schema.Admits` — records of which nothing is lost that cannot be read back at all.
* `Kind.hasForm`, `Schema.BuiltPlainly.formed` — what was written has a canonical form, from
  elements to records and by induction over nested schemas.
* `Schema.Built.detached`, `Schema.Built.readings_eq_of_fixed` — without members of variable
  length neither the bytes nor what is read from them depends on the heap.
* `rewritten_record_stable` — what was read is written, and read again as the same record.
-/

namespace PackedRecord

/-! ## Admitted records -/

mutual

/-- Values of a member whose elements are admitted. -/
def Kind.Admits : Kind → Value → Prop
  | .single element, v => element.Admits v
  | .array element, .array _ elements => ∀ w ∈ elements, element.Admits w
  | .array _, _ => True

/-- Values of one element: no float receives a value that is no number, and no string of fixed
width a text with a NUL, nor does one in a nested record. -/
def Element.Admits : Element → Value → Prop
  | .scalar codec, v => codec.Admits v
  | .record schema, .fields entries => schema.Admits entries
  | .record _, _ => True

/-- Records whose mapped members have admitted values. -/
def Schema.Admits : Schema → Fields → Prop
  | ⟨_, members, _, _, _⟩, r => AdmitsMembers members r

/-- Each mapped member has an admitted value. -/
def AdmitsMembers : List Member → Fields → Prop
  | [], _ => True
  | ⟨p, kind, binding⟩ :: rest, r =>
    (binding.isBound = true → kind.Admits ((Assoc.get? p.name r).getD .null)) ∧
    AdmitsMembers rest r

end

theorem admitsMembers_iff {r : Fields} {ms : List Member} :
    AdmitsMembers ms r ↔ ∀ m ∈ ms, m.isMapped = true → m.kind.Admits (m.valueIn r) := by
  induction ms with
  | nil => simp [AdmitsMembers]
  | cons m rest ih =>
    obtain ⟨p, kind, binding⟩ := m
    rw [AdmitsMembers, ih, List.forall_mem_cons]
    rfl

theorem Schema.admits_iff {s : Schema} {r : Fields} :
    s.Admits r ↔ ∀ m ∈ s.members, m.isMapped = true → m.kind.Admits (m.valueIn r) := by
  cases s
  rw [Admits, admitsMembers_iff]

/-- Null is admitted everywhere. -/
theorem Kind.admits_null (kind : Kind) : kind.Admits .null := by
  obtain ⟨codec | schema⟩ | element := kind
  · cases codec with
    | float => exact fun x hx => nomatch hx
    | fixedText charset => exact fun s hs => nomatch hs
    | _ => trivial
  · trivial
  · trivial

theorem Schema.admits_nil (s : Schema) : s.Admits [] :=
  admits_iff.2 fun m _ _ => m.kind.admits_null

/-- Codes and labels of the tables in use are paired and do not repeat, at every depth. -/
def Schema.TablesDistinct (s : Schema) : Prop :=
  s.Hereditarily fun t => ∀ m ∈ t.members, ∀ table,
    m.kind.element = .scalar (.enumeration table) → table.Distinct

/-- The value of a member in a well-formed record is well formed. -/
theorem Member.wellFormed_valueIn {r : Fields} (h : Value.WellFormedFields r) (m : Member) :
    (m.valueIn r).WellFormed := by
  unfold valueIn
  cases hv : Assoc.get? m.name r with
  | none => trivial
  | some v => exact wellFormed_of_get? h hv

/-! ## Forms -/

section Forms

variable {σ : Type}

theorem HasForm.of_eq {α β : Type} {canonical : α → Prop} {write : α → β} {a b : α}
    (h : HasForm canonical write a) (hwrite : write a = write b) : HasForm canonical write b := by
  obtain ⟨a₀, hcanonical, ha⟩ := h
  exact ⟨a₀, hcanonical, ha.trans hwrite⟩

/-- The write succeeds on some heap. -/
def Accepted (write : Option σ → Except Error Bytes × Option σ) : Prop :=
  ∃ heap window after, write heap = (.ok window, after)

theorem inSequence_form {α : Type} {canonical : α → Prop}
    {write : α → Option σ → Except Error Bytes × Option σ} : ∀ {items : List α},
    (∀ item ∈ items, Accepted (write item) → HasForm canonical write item) →
    Accepted (inSequence write items) →
    HasForm (fun items₀ => items₀.length = items.length ∧ ∀ item ∈ items₀, canonical item)
      (inSequence write) items
  | [], _, _ => ⟨[], ⟨rfl, fun _ h => absurd h List.not_mem_nil⟩, rfl⟩
  | item :: rest, hforms, ⟨heap, windows, after, h⟩ => by
    unfold inSequence at h
    split at h
    · cases h
    rename_i window heap₁ hfirst
    split at h
    · cases h
    rename_i later heap₂ hrest
    obtain ⟨item₀, hitem, hwrite⟩ :=
      hforms item List.mem_cons_self ⟨heap, window, heap₁, hfirst⟩
    obtain ⟨rest₀, ⟨hlen, hcanonical⟩, hwrites⟩ := inSequence_form
      (fun item hitem => hforms item (List.mem_cons_of_mem _ hitem)) ⟨heap₁, later, heap₂, hrest⟩
    refine ⟨item₀ :: rest₀, ⟨congrArg (· + 1) hlen, ?_⟩, ?_⟩
    · exact List.forall_mem_cons.2 ⟨hitem, hcanonical⟩
    · funext heap
      simp only [inSequence, hwrite, hwrites]

variable [Heap σ]

/-! ### Elements -/

theorem Element.writeRun_eq (name : String) (order : ByteOrder) (width : Nat) (element : Element)
    (vs : List Value) :
    writeRun (σ := σ) (element.write name order width) width vs =
      inSequence (element.writeOrNull name order width) vs :=
  funext fun heap => writeRun_eq_inSequence _ width vs heap

/-- Written records have canonical forms, and the empty one is written as zeros. -/
structure Schema.Formed (σ : Type) [Heap σ] (s : Schema) : Prop where
  form : ∀ {r : Fields}, Value.WellFormedFields r → s.Admits r →
    Accepted (σ := σ) (s.pack r) → HasForm s.Canonical (s.pack (ρ := Fields) (σ := σ)) r
  blank : ∀ heap : Option σ, s.pack ([] : Fields) heap = (.ok (Codec.zeros s.totalSize), heap)

variable [BoundedHeap σ]

/-- Null is written by a scalar codec as some canonical value is: a handle that is null, or
whatever zeros stand for. -/
theorem Element.scalar_form (name : String) (order : ByteOrder) {width : Nat} {codec : Scalar}
    {v : Value} (hs : codec.Suits width) (hpos : 0 < width)
    (ht : ∀ table, codec = .enumeration table → table.Distinct) (ha : codec.Admits v)
    (h : Accepted (σ := σ) ((Element.scalar codec).writeOrNull name order width v)) :
    HasForm ((Element.scalar codec).Canonical width)
      ((Element.scalar codec).writeOrNull (σ := σ) name order width) v := by
  have hpresent : ∀ {w : Value}, HasForm (codec.Present width)
      (codec.write (σ := σ) name order width) w → ∃ w₀, codec.Canonical width w₀ ∧
        (Element.scalar codec).writeOrNull (σ := σ) name order width w₀ =
          codec.write name order width w := by
    rintro w ⟨w₀, ⟨hcanonical, hnull⟩, hwrite⟩
    exact ⟨w₀, hcanonical, (writeOrNull_eq _ _ _ _ hnull).trans hwrite⟩
  obtain ⟨heap, window, after, h⟩ := h
  cases hnull : v.isNull with
  | false =>
    rw [writeOrNull_eq _ _ _ _ hnull] at h
    obtain ⟨v₀, hcanonical, hwrite⟩ := hpresent (codec.hasForm name order hs ht ha h)
    refine ⟨v₀, hcanonical, hwrite.trans ?_⟩
    exact (writeOrNull_eq name order width (.scalar codec) hnull).symm
  | true =>
    obtain rfl := Value.eq_null_of_isNull hnull
    cases hfixed : codec.isVarying with
    | false =>
      have hblank := codec.write_blank (σ := σ) name order hs hpos hfixed
      obtain ⟨v₀, hcanonical, hwrite⟩ := hpresent (codec.hasForm name order hs ht
        (codec.admits_blank width) (hblank none))
      exact ⟨v₀, hcanonical, hwrite.trans (funext hblank)⟩
    | true =>
      refine ⟨.null, ?_, rfl⟩
      cases codec with
      | varyingText charset => exact .inl rfl
      | varyingBytes => exact .inl rfl
      | _ => cases hfixed

omit [BoundedHeap σ] in
/-- Null is written for a nested record like the record without values. -/
theorem Element.record_form (name : String) (order : ByteOrder) {t : Schema} {v : Value}
    (hformed : t.Formed σ) (hwf : v.WellFormed) (ha : (Element.record t).Admits v)
    (h : Accepted (σ := σ) ((Element.record t).writeOrNull name order t.totalSize v)) :
    HasForm ((Element.record t).Canonical t.totalSize)
      ((Element.record t).writeOrNull (σ := σ) name order t.totalSize) v := by
  have hfields : ∀ {r : Fields}, HasForm t.Canonical (t.pack (ρ := Fields) (σ := σ)) r →
      HasForm ((Element.record t).Canonical t.totalSize)
        ((Element.record t).writeOrNull (σ := σ) name order t.totalSize) (.fields r) := by
    rintro r ⟨r₀, hcanonical, hwrite⟩
    exact ⟨.fields r₀, ⟨r₀, rfl, hcanonical⟩, hwrite⟩
  cases v with
  | fields r => exact hfields (hformed.form hwf.2 ha h)
  | null =>
    have hblank := hformed.blank
    have hempty : Value.WellFormedFields [] := trivial
    exact (hfields (hformed.form hempty t.admits_nil ⟨none, _, _, hblank none⟩)).of_eq
      (funext hblank)
  | _ =>
    obtain ⟨heap, window, after, h⟩ := h
    cases h

theorem Element.hasForm (name : String) (order : ByteOrder) {nested : Option Schema} {width : Nat}
    {element : Element} {v : Value} (hs : element.Suits nested width) (hpos : 0 < width)
    (ht : ∀ table, element = .scalar (.enumeration table) → table.Distinct)
    (hn : ∀ t, element = .record t → t.totalSize = width ∧ t.Formed σ)
    (hwf : v.WellFormed) (ha : element.Admits v)
    (h : Accepted (σ := σ) (element.writeOrNull name order width v)) :
    HasForm (element.Canonical width) (element.writeOrNull (σ := σ) name order width) v := by
  cases element with
  | scalar codec =>
    exact scalar_form name order hs hpos (fun table hc => ht table (congrArg Element.scalar hc)) ha
      h
  | record t =>
    obtain ⟨rfl, hformed⟩ := hn t rfl
    exact record_form name order hformed hwf ha h

/-- Elements in a row that were written have canonical forms. -/
theorem Element.run_form (name : String) (order : ByteOrder) {nested : Option Schema}
    {width : Nat} {element : Element} {vs : List Value} (hs : element.Suits nested width)
    (hpos : 0 < width) (ht : ∀ table, element = .scalar (.enumeration table) → table.Distinct)
    (hn : ∀ t, element = .record t → t.totalSize = width ∧ t.Formed σ)
    (hwf : ∀ v ∈ vs, v.WellFormed) (ha : ∀ v ∈ vs, element.Admits v)
    (h : Accepted (σ := σ) (writeRun (element.write name order width) width vs)) :
    HasForm (fun vs₀ => vs₀.length = vs.length ∧ ∀ v ∈ vs₀, element.Canonical width v)
      (writeRun (σ := σ) (element.write name order width) width) vs := by
  rw [funext (element.writeRun_eq (σ := σ) name order width)] at h ⊢
  exact inSequence_form (fun v hv => element.hasForm name order hs hpos ht hn (hwf v hv) (ha v hv))
    h

/-! ### Members -/

/-- **A value that a member has written has a canonical form.** -/
theorem Kind.hasForm (order : ByteOrder) {p : Placement} {kind : Kind} {v : Value}
    (hc : p.Checked) (hw : p.footprint < 2 ^ 63) (hs : kind.Suits p)
    (ht : ∀ table, kind.element = .scalar (.enumeration table) → table.Distinct)
    (hn : ∀ t, kind.element = .record t → t.totalSize = kind.slot p ∧ t.Formed σ)
    (hwf : v.WellFormed) (ha : kind.Admits v) (h : Accepted (σ := σ) (kind.write p order v)) :
    HasForm (kind.Canonical p) (kind.write (σ := σ) p order) v := by
  cases kind with
  | single element => exact element.hasForm p.name order hs hc.footprint_pos ht hn hwf ha h
  | array element =>
    obtain ⟨hv, hsuits⟩ := hs
    have hwrite : ∀ (elements : List Value),
        (Kind.array element).write (σ := σ) p order (.array p.dims elements) =
          writeRun (element.write p.name order p.elementWidth) p.elementWidth elements := by
      intro elements
      funext heap
      simp only [Kind.write, if_true]
    have helements : ∀ {elements : List Value}, elements.length = p.elements →
        (∀ w ∈ elements, w.WellFormed) → (∀ w ∈ elements, element.Admits w) →
        Accepted (σ := σ) ((Kind.array element).write p order (.array p.dims elements)) →
        HasForm ((Kind.array element).Canonical p) ((Kind.array element).write (σ := σ) p order)
          (.array p.dims elements) := by
      intro elements hlen hwf ha h
      rw [hwrite] at h
      obtain ⟨elements₀, ⟨hlen₀, hcanonical⟩, hform⟩ := element.run_form p.name order hsuits
        (hc.elementWidth_pos hv) ht hn hwf ha h
      refine ⟨.array p.dims elements₀, ⟨elements₀, rfl, hlen₀.trans hlen, hcanonical⟩, ?_⟩
      rw [hwrite, hwrite, hform]
    cases v with
    | null =>
      -- A null array is written like the array of nulls.
      have hnulls : (Kind.array element).write (σ := σ) p order
          (.array p.dims (List.replicate p.elements .null)) =
            (Kind.array element).write p order .null := by
        rw [hwrite]
        funext heap
        rw [writeRun_nulls, ← Placement.footprint_eq hv hw, Kind.write_null]
      refine HasForm.of_eq (helements List.length_replicate ?_ ?_ (hnulls ▸ h)) hnulls
      · intro w hw
        rw [List.eq_of_mem_replicate hw]
        trivial
      · intro w hw
        rw [List.eq_of_mem_replicate hw]
        exact (Kind.single element).admits_null
    | array dims elements =>
      obtain ⟨-, hcount, hwf⟩ := hwf
      by_cases hdims : dims = p.dims
      · subst hdims
        exact helements hcount.symm (fun w => mem_of_wellFormedAll hwf) ha h
      · obtain ⟨heap, window, after, h⟩ := h
        simp only [Kind.write, if_neg hdims] at h
        cases h
    | _ =>
      obtain ⟨heap, window, after, h⟩ := h
      cases h

omit [BoundedHeap σ] in
/-- A run over some members succeeds at each of them. -/
theorem accepted_of_writeMembers {order : ByteOrder} {r : Fields} : ∀ {ms : List Member}
    {position : Nat} {buffer out : Bytes} {heap after : Option σ},
    writeMembers order ms (fun name _ => Assoc.get? name r) position buffer heap =
      (.ok out, after) →
    ∀ m ∈ ms, m.isMapped = true →
      Accepted (σ := σ) (m.kind.write m.placement order (m.valueIn r))
  | ⟨p, kind, binding⟩ :: rest, position, buffer, out, heap, after, h, m, hm, hmapped => by
    unfold writeMembers at h
    split at h
    · split at h
      · cases h
      rename_i window heap₁ hwrite
      rcases List.mem_cons.1 hm with rfl | hm
      · exact ⟨heap, window, heap₁, hwrite⟩
      · exact accepted_of_writeMembers h m hm hmapped
    · rename_i hbound
      rcases List.mem_cons.1 hm with rfl | hm
      · exact absurd hmapped hbound
      · exact accepted_of_writeMembers h m hm hmapped

omit [BoundedHeap σ] in
/-- Members write alike from two records that they write alike one by one. -/
theorem writeMembers_ext {order : ByteOrder} {r r' : Fields} : ∀ {ms : List Member},
    (∀ m ∈ ms, m.isMapped = true → m.kind.write (σ := σ) m.placement order (m.valueIn r) =
      m.kind.write m.placement order (m.valueIn r')) →
    ∀ (position : Nat) (buffer : Bytes) (heap : Option σ),
      writeMembers order ms (fun name _ => Assoc.get? name r) position buffer heap =
        writeMembers order ms (fun name _ => Assoc.get? name r') position buffer heap
  | [], _, _, _, _ => rfl
  | ⟨p, kind, binding⟩ :: rest, hsame, position, buffer, heap => by
    obtain ⟨hhead, hsame⟩ := List.forall_mem_cons.1 hsame
    have ih := writeMembers_ext hsame (position + 1)
    unfold writeMembers
    split
    · rename_i hbound
      have hhead : kind.write (σ := σ) p order ((Assoc.get? p.name r).getD .null) =
          kind.write p order ((Assoc.get? p.name r').getD .null) := hhead hbound
      dsimp only
      rw [hhead]
      rcases kind.write p order ((Assoc.get? p.name r').getD .null) heap with ⟨_ | window, after⟩
      · rfl
      · exact ih _ _
    · exact ih _ _

/-! ### Records -/

namespace Schema

omit [BoundedHeap σ] in
/-- A record without values is written as zeros, whatever it is and whatever heap there is. -/
theorem LaidOut.pack_nulls {rules : ViewRules} {s : Schema} (hs : s.LaidOut rules) {ρ : Type}
    [RecordAccess ρ] {record : ρ}
    (hnull : ∀ name i v, RecordAccess.field? record name i = some v → v = .null)
    (heap : Option σ) : s.pack record heap = (.ok (Codec.zeros s.totalSize), heap) := by
  rw [pack_eq]
  refine writeMembers_nulls _ (fun m _ i => ?_) (fun m hm => ?_) 0 heap
  · cases hv : RecordAccess.field? record m.name i with
    | none => rfl
    | some v => exact hnull _ _ _ hv
  · exact ⟨(hs.within m hm).trans List.length_replicate.ge, window_zeros (hs.within m hm)⟩

omit [Heap σ] [BoundedHeap σ] in
/-- A record made of canonical values is canonical, and its members have these values. -/
theorem canonical_insertAll {s : Schema} (hnames : (s.members.map Member.name).Nodup)
    (values : Member → Value) (hcanonical : ∀ m ∈ s.members, m.isMapped = true →
      m.kind.Canonical m.placement (values m))
    (hnull : ∀ m ∈ s.members, m.isMapped = false → values m = .null) :
    ∃ r, s.Canonical r ∧ ∀ m ∈ s.members, m.isMapped = true → m.valueIn r = values m := by
  let entries := (s.members.filter (Member.isRead s.isPositional)).map fun m => (m.name, values m)
  have hkeys : entries.map Prod.fst =
      (s.members.filter (Member.isRead s.isPositional)).map Member.name := by
    rw [List.map_map]
    rfl
  have hnodup : (entries.map Prod.fst).Nodup := by
    rw [hkeys]
    exact (List.filter_sublist.map Member.name).nodup hnames
  have hget : ∀ m ∈ s.members, m.isRead s.isPositional = true →
      Assoc.get? m.name (Assoc.insertAll entries []) = some (values m) := fun m hm hread =>
    Assoc.get?_insertAll_of_mem hnodup (List.mem_map.2 ⟨m, List.mem_filter.2 ⟨hm, hread⟩, rfl⟩)
  have hmappedRead : ∀ m : Member, m.isMapped = true → m.isRead s.isPositional = true := by
    intro m hmapped
    rw [Member.isRead, hmapped, Bool.true_or]
  refine ⟨Assoc.insertAll entries [], canonical_iff.2 ⟨?_, ?_, ?_⟩, ?_⟩
  · exact Assoc.ascending_insertAll Assoc.ascending_nil
  · intro key hkey
    by_contra hnone
    have hnotin : key ∉ entries.map Prod.fst := by
      rw [hkeys]
      intro hmem
      obtain ⟨m, hm, rfl⟩ := List.mem_map.1 hmem
      obtain ⟨hm, hread⟩ := List.mem_filter.1 hm
      exact hnone ⟨m, hm, hread, rfl⟩
    have hsome := Assoc.isSome_get?_iff.2 hkey
    rw [Assoc.get?_insertAll_of_notMem hnotin] at hsome
    cases hsome
  · intro m hm
    cases hmapped : m.isMapped with
    | true =>
      exact ⟨values m, hget m hm (hmappedRead m hmapped), hcanonical m hm hmapped⟩
    | false =>
      intro hpositional
      rw [hget m hm (by rw [Member.isRead, hpositional, Bool.or_true]), hnull m hm hmapped]
  · intro m hm hmapped
    rw [Member.valueIn, hget m hm (hmappedRead m hmapped), Option.getD_some]

omit [BoundedHeap σ] in
/-- A record whose values have canonical forms has one that is made of them. -/
theorem exists_canonical {s : Schema} (hnames : (s.members.map Member.name).Nodup)
    {order : ByteOrder} {r : Fields} (hforms : ∀ m ∈ s.members, m.isMapped = true →
      HasForm (m.kind.Canonical m.placement) (m.kind.write (σ := σ) m.placement order)
        (m.valueIn r)) :
    ∃ r₀, s.Canonical r₀ ∧ ∀ m ∈ s.members, m.isMapped = true →
      m.kind.write (σ := σ) m.placement order (m.valueIn r₀) =
        m.kind.write m.placement order (m.valueIn r) := by
  have hvalues : ∀ m : Member, ∃ v, m ∈ s.members → (m.isMapped = true →
      m.kind.Canonical m.placement v ∧ m.kind.write (σ := σ) m.placement order v =
        m.kind.write m.placement order (m.valueIn r)) ∧ (m.isMapped = false → v = .null) := by
    intro m
    cases hmapped : m.isMapped with
    | false => exact ⟨.null, fun _ => ⟨fun h => (nomatch h), fun _ => rfl⟩⟩
    | true =>
      by_cases hm : m ∈ s.members
      · obtain ⟨v, hv⟩ := hforms m hm hmapped
        exact ⟨v, fun _ => ⟨fun _ => hv, fun h => nomatch h⟩⟩
      · exact ⟨.null, fun h => absurd h hm⟩
  choose values hvalues using hvalues
  obtain ⟨r₀, hcanonical, hr₀⟩ := canonical_insertAll hnames values
    (fun m hm hmapped => ((hvalues m hm).1 hmapped).1) (fun m hm => (hvalues m hm).2)
  refine ⟨r₀, hcanonical, fun m hm hmapped => ?_⟩
  rw [hr₀ m hm hmapped]
  exact ((hvalues m hm).1 hmapped).2

/-- **One level of forms**: if the nested records have them, so do these. -/
theorem formed_of_laidOut {rules : ViewRules} {s : Schema} (hs : s.LaidOut rules)
    (hsize : s.totalSize < 2 ^ 63)
    (ht : ∀ m ∈ s.members, ∀ table, m.kind.element = .scalar (.enumeration table) →
      table.Distinct)
    (hn : ∀ m ∈ s.members, ∀ t, m.kind.element = .record t →
      t.totalSize = m.kind.slot m.placement ∧ t.Formed σ) : s.Formed σ := by
  refine ⟨fun {r} hwf ha haccepted => ?_, hs.pack_nulls nofun⟩
  obtain ⟨heap, out, after, h⟩ := haccepted
  rw [pack_eq] at h
  have hforms : ∀ m ∈ s.members, m.isMapped = true → HasForm (m.kind.Canonical m.placement)
      (m.kind.write (σ := σ) m.placement s.settings.byteOrder) (m.valueIn r) := by
    intro m hm hmapped
    have hfoot : m.placement.footprint < 2 ^ 63 := (hs.footprint_le hm).trans_lt hsize
    have hc := hs.checked m hm
    exact Kind.hasForm _ hc hfoot (Kind.suits hc (hs.chosen m hm)) (ht m hm) (hn m hm)
      (m.wellFormed_valueIn hwf) (admits_iff.1 ha m hm hmapped)
      (accepted_of_writeMembers h m hm hmapped)
  obtain ⟨r₀, hcanonical, hwrites⟩ := exists_canonical hs.names hforms
  refine ⟨r₀, hcanonical, ?_⟩
  rw [pack_eq, pack_eq]
  exact funext (writeMembers_ext hwrites 0 _)

/-- **What a schema built without overrides has written has a canonical form.** -/
theorem BuiltPlainly.formed {s : Schema} (hs : s.BuiltPlainly) (ht : s.TablesDistinct)
    (hsize : s.totalSize < 2 ^ 63) : s.Formed σ := by
  induction hs with
  | @intro s here _ ih =>
    obtain ⟨b, hrules, hb⟩ := here
    obtain ⟨ht, htn⟩ := ht
    have hl := (Blueprint.laidOut_of_build hb).1
    refine formed_of_laidOut hl hsize ht fun m hm t hrecord => ?_
    have hc := hl.checked m hm
    have hchosen := hl.chosen m hm
    have hnested := Kind.nested_of_element hchosen hrecord
    have hfills := Kind.fills_iff.1 (Kind.fills hc (hrules ▸ hchosen)) t hrecord
    refine ⟨hfills, ih m hm t hnested (htn m hm t hnested) ?_⟩
    have hfoot := (hl.footprint_le hm).trans_lt hsize
    have hslot := (Kind.slot_le hc hchosen hfoot).1
    omega

end Schema

/-! ## Bytes without handles -/

omit [Heap σ] [BoundedHeap σ] in
/-- The result is the same on every heap, and the heap is left alone. -/
def Detached (write : Option σ → Except Error Bytes × Option σ) : Prop :=
  ∃ result, ∀ heap, write heap = (result, heap)

omit [Heap σ] [BoundedHeap σ] in
theorem inSequence_detached {α : Type} {write : α → Option σ → Except Error Bytes × Option σ} :
    ∀ {items : List α}, (∀ item ∈ items, Detached (write item)) →
      Detached (inSequence write items)
  | [], _ => ⟨.ok [], fun _ => rfl⟩
  | item :: rest, h => by
    obtain ⟨⟨first, hfirst⟩, hrest⟩ := List.forall_mem_cons.1 h
    obtain ⟨later, hlater⟩ := inSequence_detached hrest
    cases first with
    | error e => exact ⟨.error e, fun heap => by simp only [inSequence, hfirst]⟩
    | ok window =>
      cases later with
      | error e => exact ⟨.error e, fun heap => by simp only [inSequence, hfirst, hlater]⟩
      | ok windows =>
        exact ⟨.ok (window ++ windows), fun heap => by simp only [inSequence, hfirst, hlater]⟩

omit [BoundedHeap σ] in
theorem Element.detached (name : String) (order : ByteOrder) (width : Nat) {element : Element}
    (hv : element.isVarying = false)
    (hn : ∀ t, element = .record t → ∀ width (value? : String → Nat → Option Value),
      Detached (σ := σ) (t.write width value?)) (v : Value) :
    Detached (σ := σ) (element.writeOrNull name order width v) := by
  cases hnull : v.isNull with
  | true => exact ⟨.ok (Codec.zeros width), fun heap => by rw [writeOrNull, hnull, if_pos rfl]⟩
  | false =>
    rw [writeOrNull_eq _ _ _ _ hnull]
    cases element with
    | scalar codec =>
      cases codec with
      | varyingText charset => cases hv
      | varyingBytes => cases hv
      | _ => exact ⟨_, fun heap => rfl⟩
    | record t =>
      cases v with
      | fields r => exact hn t rfl width _
      | _ => exact ⟨_, fun heap => rfl⟩

omit [BoundedHeap σ] in
theorem Kind.detached (p : Placement) (order : ByteOrder) {kind : Kind}
    (hv : kind.element.isVarying = false)
    (hn : ∀ t, kind.element = .record t → ∀ width (value? : String → Nat → Option Value),
      Detached (σ := σ) (t.write width value?)) (v : Value) :
    Detached (σ := σ) (kind.write p order v) := by
  cases kind with
  | single element => exact element.detached p.name order p.footprint hv hn v
  | array element =>
    cases v with
    | array dims elements =>
      by_cases hdims : dims = p.dims
      · have hrun := inSequence_detached fun w (_ : w ∈ elements) =>
          element.detached (σ := σ) p.name order p.elementWidth hv hn w
        rw [← Element.writeRun_eq] at hrun
        obtain ⟨result, hresult⟩ := hrun
        exact ⟨result, fun heap => by simp only [Kind.write, if_pos hdims, hresult]⟩
      · exact ⟨.error (.extents p.name p.dims dims), fun heap => by
          simp only [Kind.write, if_neg hdims]⟩
    | _ => exact ⟨_, fun heap => rfl⟩

omit [BoundedHeap σ] in
theorem writeMembers_detached (order : ByteOrder) (value? : String → Nat → Option Value) :
    ∀ {ms : List Member},
    (∀ m ∈ ms, ∀ v : Value, Detached (σ := σ) (m.kind.write m.placement order v)) →
    ∀ (position : Nat) (buffer : Bytes),
      Detached (σ := σ) (writeMembers order ms value? position buffer)
  | [], _, _, buffer => ⟨.ok buffer, fun _ => rfl⟩
  | ⟨p, kind, binding⟩ :: rest, h, position, buffer => by
    obtain ⟨hhead, hrest⟩ := List.forall_mem_cons.1 h
    have ih := writeMembers_detached order value? hrest (position + 1)
    obtain ⟨result, hresult⟩ := hhead ((value? p.name position).getD .null)
    dsimp only at hresult
    cases hb : binding.isBound with
    | false =>
      obtain ⟨later, hlater⟩ := ih buffer
      refine ⟨later, fun heap => ?_⟩
      simp only [writeMembers, hb, Bool.false_eq_true, if_false, hlater]
    | true =>
      cases result with
      | error e => exact ⟨.error e, fun heap => by simp only [writeMembers, hb, if_true, hresult]⟩
      | ok window =>
        obtain ⟨later, hlater⟩ := ih (splice buffer p.offset window)
        refine ⟨later, fun heap => ?_⟩
        simp only [writeMembers, hb, if_true, hresult, hlater]

omit [BoundedHeap σ] in
/-- **Without members of variable length nothing is put on the heap or taken from it.** -/
theorem Schema.Built.detached {s : Schema} (hs : s.Built) (hfixed : s.FixedLength) (width : Nat)
    (value? : String → Nat → Option Value) : Detached (σ := σ) (s.write width value?) := by
  induction hs generalizing width value? with
  | @intro s here _ ih =>
    obtain ⟨b, hb⟩ := here
    obtain ⟨hfixed, hnested⟩ := hfixed
    have hl := (Blueprint.laidOut_of_build hb).1
    rw [funext (s.write_eq width _)]
    split
    · refine writeMembers_detached _ _ (fun m hm => ?_) 0 _
      have hchosen := hl.chosen m hm
      refine Kind.detached _ _ ((Kind.isVarying_element hchosen).trans (hfixed m hm)) ?_
      intro t hrecord
      have ht := Kind.nested_of_element hchosen hrecord
      exact ih m hm t ht (hnested m hm t ht)
    · exact ⟨_, fun _ => rfl⟩

omit [BoundedHeap σ] in
theorem Element.read_eq_of_fixed (name : String) (order : ByteOrder) {element : Element}
    (hv : element.isVarying = false) {heap heap' : Option σ}
    (hn : ∀ t, element = .record t → ∀ window, t.readings window heap = t.readings window heap')
    (window : Bytes) :
    element.read name order window heap = element.read name order window heap' := by
  cases element with
  | scalar codec =>
    cases codec with
    | varyingText charset => cases hv
    | varyingBytes => cases hv
    | _ => rfl
  | record t => simp only [Element.read, hn t rfl window]

omit [BoundedHeap σ] in
theorem Kind.read_eq_of_fixed (p : Placement) (order : ByteOrder) {kind : Kind}
    (hv : kind.element.isVarying = false) {heap heap' : Option σ}
    (hn : ∀ t, kind.element = .record t → ∀ window,
      t.readings window heap = t.readings window heap') (window : Bytes) :
    kind.read p order window heap = kind.read p order window heap' := by
  cases kind with
  | single element => exact element.read_eq_of_fixed p.name order hv hn window
  | array element =>
    have hread := funext (element.read_eq_of_fixed p.name order hv hn)
    simp only [Kind.read, hread]

omit [BoundedHeap σ] in
/-- **Without members of variable length a raw record reads alike from every heap.** -/
theorem Schema.Built.readings_eq_of_fixed {s : Schema} (hs : s.Built) (hfixed : s.FixedLength)
    (heap heap' : Option σ) (bytes : Bytes) : s.readings bytes heap = s.readings bytes heap' := by
  induction hs generalizing bytes with
  | @intro s here _ ih =>
    obtain ⟨b, hb⟩ := here
    obtain ⟨hfixed, hnested⟩ := hfixed
    have hl := (Blueprint.laidOut_of_build hb).1
    have hmembers : ∀ m ∈ s.members, ∀ window,
        m.kind.read m.placement s.settings.byteOrder window heap =
          m.kind.read m.placement s.settings.byteOrder window heap' := by
      intro m hm
      have hchosen := hl.chosen m hm
      refine Kind.read_eq_of_fixed _ _ ((Kind.isVarying_element hchosen).trans (hfixed m hm)) ?_
      intro t hrecord
      have ht := Kind.nested_of_element hchosen hrecord
      exact ih m hm t ht (hnested m hm t ht)
    rw [readings_eq, readings_eq,
      readMembers_eq_of_reads _ _ 0 fun m hm => hmembers m hm (m.placement.window bytes)]

end Forms

/-! ## The round trip of any record -/

open LawfulHeap

/-- **What was read is written, and read again as the same record.**  The record need not be
canonical: any value that its members have accepted will do.  Other content may have been put on the
heap in between; without members of variable length the second raw record is the first one.  The
bound on the size is that of a buffer, so that the exact sums and products of sizes are those of
machine words. -/
theorem rewritten_record_stable {σ : Type} [Heap σ] [LawfulHeap σ] [BoundedHeap σ] {s : Schema}
    (hs : s.BuiltPlainly) (ht : s.TablesDistinct) (hsize : s.totalSize < 2 ^ 63) {r : Fields}
    (hwf : Value.WellFormed (.fields r)) (ha : s.Admits r) {heap : σ} (hsound : Sound heap)
    {bytes : Bytes} {after : Option σ} (h : s.pack r (some heap) = (.ok bytes, after)) :
    ∃ heap' r', after = some heap' ∧ Sound heap' ∧ Extends heap heap' ∧
      (∀ later, Extends heap' later → Addressable later →
        s.unpack Fields bytes (some later) = .ok r') ∧
      ∀ again : σ, Sound again → ∃ bytes' again',
        s.pack r' (some again) = (.ok bytes', some again') ∧
        Sound again' ∧ Extends again again' ∧
        (∀ later, Extends again' later → Addressable later →
          s.unpack Fields bytes' (some later) = .ok r') ∧
        (s.FixedLength → bytes' = bytes) := by
  obtain ⟨r', hcanonical, hform⟩ := (hs.formed (σ := σ) ht hsize).form hwf.2 ha ⟨_, _, _, h⟩
  have hpack : s.pack r' (some heap) = (.ok bytes, after) := (congrFun hform (some heap)).trans h
  have hrestores := hs.built.restored (σ := σ) s.totalSize r' hsize hcanonical
  obtain ⟨heap', hafter, hsound', hext, -, hread⟩ := hrestores heap bytes after hsound hpack
  refine ⟨heap', r', hafter, hsound', hext, hread, fun again hagain => ?_⟩
  obtain ⟨bytes', again', hpack'⟩ := hs.written r' hcanonical again
  obtain ⟨_, hsame, hsoundAgain, hextAgain, -, hreadAgain⟩ :=
    hrestores again bytes' _ hagain hpack'
  obtain rfl := Option.some.inj hsame
  refine ⟨bytes', again', hpack', hsoundAgain, hextAgain, hreadAgain, fun hfixed => ?_⟩
  obtain ⟨result, hresult⟩ := hs.built.detached (σ := σ) hfixed s.totalSize
    fun name _ => Assoc.get? name r'
  have hfirst := (hresult (some heap)).symm.trans hpack
  have hsecond := (hresult (some again)).symm.trans hpack'
  exact Except.ok.inj ((Prod.mk.inj hsecond).1.symm.trans (Prod.mk.inj hfirst).1)

/-! ## A record in other forms than it is read -/

/-- A state, a point in time, a set of flags, a level and two cells. -/
def reportPlacements : List Placement :=
  [{ Placement.plain "state" 0 .enumeration 1 with
      table := some ⟨"State", ["idle", "busy"], [0, 1], 1⟩ },
    .plain "flags" 2 .bitField 2, .float "level" 4 4, .timestamp "at" 8 .milliseconds,
    { Placement.plain "cells" 16 .compound 4 with dims := [2], nested := some cellSchema }]

def reportSchema : Schema :=
  ⟨"Report", reportPlacements.zipWith (fun p kind => ⟨p, kind, .dynamic⟩)
      [.single (.scalar (.enumeration ⟨"State", ["idle", "busy"], [0, 1], 1⟩)),
        .single (.scalar .bitField), .single (.scalar .float),
        .single (.scalar (.timestamp .milliseconds)), .array (.record cellSchema)],
    Shape.openMap.outline, 24, {}⟩

/-- An ordinal for a state, a number for flags and for a point in time, no level, a null and a
flag for cells, and a note that no member takes. -/
def reportRecord : Fields :=
  [("at", .number (.int 5)), ("cells", .array [2] [.null, .fields [("x", .bool true)]]),
    ("flags", .number (.nat 3)), ("note", .text "?"), ("state", .number (.nat 1))]

theorem hereditarily_reportSchema {P : Schema → Prop} (houter : P reportSchema)
    (hinner : P cellSchema) : reportSchema.Hereditarily P :=
  Schema.hereditarily_of_two rfl rfl houter hinner

theorem build_reportSchema :
    (openBlueprint "Report" reportPlacements).build = .ok reportSchema := by cbv

theorem builtPlainly_reportSchema : reportSchema.BuiltPlainly :=
  hereditarily_reportSchema ⟨_, rfl, build_reportSchema⟩ ⟨_, rfl, build_cellSchema⟩

theorem fixedLength_reportSchema : reportSchema.FixedLength :=
  hereditarily_reportSchema (by decide) (by decide)

theorem tablesDistinct_reportSchema : reportSchema.TablesDistinct := by
  have hmade : EnumTable.ofLabels "State" ["idle", "busy"] =
      .ok ⟨"State", ["idle", "busy"], [0, 1], 1⟩ := by cbv
  have hdistinct := EnumTable.distinct_of_ofCodes hmade
  refine hereditarily_reportSchema ?_ ?_
  · simp only [reportSchema, reportPlacements, List.zipWith_cons_cons, List.zipWith_nil_left,
      List.forall_mem_cons, Kind.element]
    refine ⟨fun table h => ?_, by simp⟩
    cases h
    exact hdistinct
  · simp [cellSchema, Kind.element]

theorem admits_reportRecord : reportSchema.Admits reportRecord := by
  simp only [reportSchema, reportPlacements, List.zipWith_cons_cons, List.zipWith_nil_left,
    Schema.Admits, AdmitsMembers]
  refine ⟨fun _ => trivial, fun _ => trivial, fun _ x hx => (nomatch hx), fun _ => trivial,
    fun _ w hw => ?_, trivial⟩
  simp only [List.mem_cons, List.not_mem_nil, or_false] at hw
  rcases hw with rfl | rfl
  · trivial
  · exact ⟨fun _ => trivial, trivial⟩

/-- The level is read as zero, and so is the null cell; the note is gone.  It is the same with a
store in memory and with a store in a file. -/
theorem rewritten_report_stable :
    reportSchema.BuiltPlainly ∧ reportSchema.TablesDistinct ∧ reportSchema.FixedLength ∧
    reportSchema.totalSize < 2 ^ 63 ∧ Value.WellFormed (.fields reportRecord) ∧
    reportSchema.Admits reportRecord ∧
    (∃ (bytes : Bytes) (store' : TransientStore) (r' : Fields),
      reportSchema.pack reportRecord (some ({} : TransientStore)) = (.ok bytes, some store') ∧
      reportSchema.unpack Fields bytes (some store') = .ok r' ∧
      ∃ store'' : TransientStore,
        reportSchema.pack r' (some store') = (.ok bytes, some store'')) ∧
    ∃ (bytes : Bytes) (store' : DurableStore) (r' : Fields),
      reportSchema.pack reportRecord (some (DurableStore.empty 1)) = (.ok bytes, some store') ∧
      reportSchema.unpack Fields bytes (some store') = .ok r' ∧
      ∃ store'' : DurableStore,
        reportSchema.pack r' (some store') = (.ok bytes, some store'') := by
  have hwf : Value.WellFormed (.fields reportRecord) := by
    refine ⟨by decide, ?_⟩
    simp [reportRecord, Value.WellFormedFields, Value.WellFormed, Value.WellFormedAll, maxRank,
      elementCount]
  have hsize : reportSchema.totalSize < 2 ^ 63 := by decide
  refine ⟨builtPlainly_reportSchema, tablesDistinct_reportSchema, fixedLength_reportSchema, hsize,
    hwf, admits_reportRecord, ?_, ?_⟩
  · have hpack : reportSchema.pack reportRecord (some ({} : TransientStore)) =
        (.ok [1, 0, 3, 0, 0, 0, 0, 0, 5, 0, 0, 0, 0, 0, 0, 0, 0, 0, 0, 0, 1, 0, 0, 0],
          some ({} : TransientStore)) := by cbv
    obtain ⟨store', r', hafter, -, -, hread, hagain⟩ := rewritten_record_stable
      builtPlainly_reportSchema tablesDistinct_reportSchema hsize hwf admits_reportRecord
      (show Sound ({} : TransientStore) from trivial) hpack
    obtain rfl := Option.some.inj hafter
    obtain ⟨bytes', store'', hpack', -, -, -, hsame⟩ := hagain {} trivial
    rw [hsame fixedLength_reportSchema] at hpack'
    exact ⟨_, _, r', hpack, hread {} (extends_refl _) (Nat.zero_le (2 ^ 64)), store'', hpack'⟩
  · have hpack : reportSchema.pack reportRecord (some (DurableStore.empty 1)) =
        (.ok [1, 0, 3, 0, 0, 0, 0, 0, 5, 0, 0, 0, 0, 0, 0, 0, 0, 0, 0, 0, 1, 0, 0, 0],
          some (DurableStore.empty 1)) := by cbv
    have hempty : Sound (DurableStore.empty 1) := ⟨[], .nil⟩
    obtain ⟨store', r', hafter, -, -, hread, hagain⟩ := rewritten_record_stable
      builtPlainly_reportSchema tablesDistinct_reportSchema hsize hwf admits_reportRecord
      hempty hpack
    obtain rfl := Option.some.inj hafter
    obtain ⟨bytes', store'', hpack', -, -, -, hsame⟩ := hagain _ hempty
    rw [hsame fixedLength_reportSchema] at hpack'
    exact ⟨_, _, r', hpack, hread _ (extends_refl _) (Nat.zero_le (2 ^ 64)), store'', hpack'⟩

end PackedRecord
