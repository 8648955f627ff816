import PackedRecord.Proofs.Compatibility
import PackedRecord.Proofs.NoFaults

/-!
# Schemas that read every buffer

A schema without members of variable length can refuse a buffer of its size for one reason only:
a nested record that is not as long as its window.  The check of a placement rules this out where
the storage class says that the member is a record.  An override can view a member of another
class as the record that is attached to it.

* `Decided` — all windows of a width are read, or none is and all for the same reason; carried
  from elements to members and records by `Element.decided`, `Kind.decided` and `fill_decided`.
* `Schema.Fits` — records fill the windows they are read from, at every depth.
* `every_buffer_read_iff_fits` — such schemas read every buffer, and other ones none.
* `checked_schema_reads_nothing` — there are other ones.
-/

namespace PackedRecord

/-! ## All windows or none -/

/-- Every window of some width is read under a condition; otherwise none is, and all are refused
for the same two lengths that differ. -/
structure Decided {α β : Type} (good : Prop) (width : Nat) (read : Bytes → β → Except Error α) :
    Prop where
  reads : good → ∀ window rest, window.length = width → ∃ v, read window rest = .ok v
  refuses : ¬good → ∃ size actual, size ≠ actual ∧ ∀ window rest, window.length = width →
    read window rest = .error (.bufferSize size actual)

/-- A record fills the windows it is read from, and so do the records in it. -/
inductive Schema.Fits : Schema → Prop
  | intro {s : Schema}
      (fills : ∀ m ∈ s.members, m.isMapped = true → ∀ t, m.kind.element = .record t →
        t.totalSize = m.kind.slot m.placement)
      (nested : ∀ m ∈ s.members, m.isMapped = true → ∀ t, m.kind.element = .record t → Fits t) :
      Fits s

/-- The records a member is coded by fill their windows. -/
def Member.Fits (m : Member) : Prop :=
  ∀ t, m.kind.element = .record t → t.totalSize = m.kind.slot m.placement ∧ t.Fits

theorem Schema.fits_iff {s : Schema} :
    s.Fits ↔ ∀ m ∈ s.members, m.isMapped = true → m.Fits := by
  constructor
  · rintro ⟨hfills, hnested⟩ m hm hmapped t ht
    exact ⟨hfills m hm hmapped t ht, hnested m hm hmapped t ht⟩
  · intro h
    exact ⟨fun m hm hmapped t ht => (h m hm hmapped t ht).1,
      fun m hm hmapped t ht => (h m hm hmapped t ht).2⟩

/-- No member at any depth has variable length. -/
def Schema.FixedLength (s : Schema) : Prop :=
  s.Hereditarily fun t => ∀ m ∈ t.members, m.placement.isVarying = false

section Heap

variable {σ : Type} [Heap σ]

theorem Scalar.read_ok (name : String) (order : ByteOrder) {codec : Scalar}
    (h : codec.isVarying = false) (window : Bytes) (heap : Option σ) :
    ∃ v, codec.read name order window heap = .ok v := by
  cases codec with
  | varyingText charset => cases h
  | varyingBytes => cases h
  | _ => exact ⟨_, rfl⟩

/-- A record is not read from a window of another length. -/
theorem Schema.unpack_of_ne {s : Schema} {window : Bytes} (h : window.length ≠ s.totalSize)
    (heap : Option σ) :
    s.unpack Fields window heap = .error (.bufferSize s.totalSize window.length) := by
  rw [unpack, readings_eq, if_neg h]

theorem Element.decided (name : String) (order : ByteOrder) (width : Nat) {element : Element}
    (hv : element.isVarying = false)
    (hn : ∀ t, element = .record t → t.totalSize = width →
      Decided t.Fits t.totalSize (t.unpack (σ := σ) Fields)) :
    Decided (∀ t, element = .record t → t.totalSize = width ∧ t.Fits) width
      (element.read (σ := σ) name order) := by
  cases element with
  | scalar codec =>
    refine ⟨fun _ window heap _ => codec.read_ok name order hv window heap, fun hbad => ?_⟩
    exact absurd (fun t ht => by cases ht) hbad
  | record t =>
    constructor
    · intro hgood window heap hlen
      obtain ⟨hsize, hfits⟩ := hgood t rfl
      obtain ⟨r, hr⟩ := (hn t rfl hsize).reads hfits window heap (hlen.trans hsize.symm)
      exact ⟨.fields r, by rw [read_record, hr]; rfl⟩
    · intro hbad
      by_cases hsize : t.totalSize = width
      · have hunfit : ¬t.Fits := fun hfits => hbad fun u hu => by
          cases hu
          exact ⟨hsize, hfits⟩
        obtain ⟨size, actual, hne, hrefuses⟩ := (hn t rfl hsize).refuses hunfit
        refine ⟨size, actual, hne, fun window heap hlen => ?_⟩
        rw [read_record, hrefuses window heap (hlen.trans hsize.symm)]
        rfl
      · refine ⟨t.totalSize, width, hsize, fun window heap hlen => ?_⟩
        rw [read_record, Schema.unpack_of_ne (hlen ▸ Ne.symm hsize), hlen]
        rfl

omit [Heap σ] in
theorem readRun_ok {read : Bytes → Except Error Value} : ∀ {windows : List Bytes},
    (∀ window ∈ windows, ∃ v, read window = .ok v) → ∃ vs, readRun read windows = .ok vs
  | [], _ => ⟨[], rfl⟩
  | window :: rest, h => by
    obtain ⟨v, hv⟩ := h window List.mem_cons_self
    obtain ⟨vs, hvs⟩ := readRun_ok fun w hw => h w (List.mem_cons_of_mem _ hw)
    exact ⟨v :: vs, by rw [readRun, hv]; simp only [hvs]; rfl⟩

omit [Heap σ] in
/-- A run of windows is refused for its first one. -/
theorem readRun_decided {good : Prop} {width count : Nat}
    {read : Bytes → Option σ → Except Error Value} (hpos : 0 < count)
    (h : Decided good width read) :
    Decided good (width * count) fun window heap =>
      readRun (fun run => read run heap) (Codec.runs width count window) := by
  constructor
  · intro hgood window heap hlen
    refine readRun_ok fun run hrun => h.reads hgood run heap ?_
    exact Codec.length_of_mem_runs hrun hlen.ge
  · intro hbad
    obtain ⟨size, actual, hne, hrefuses⟩ := h.refuses hbad
    refine ⟨size, actual, hne, fun window heap hlen => ?_⟩
    obtain ⟨count, rfl⟩ := Nat.exists_eq_succ_of_ne_zero (Nat.ne_of_gt hpos)
    have hfirst : (window.take width).length = width := by
      rw [Nat.mul_succ] at hlen
      rw [List.length_take]
      omega
    rw [Codec.runs, readRun, hrefuses _ heap hfirst]

omit [Heap σ] in
theorem Decided.map {α β γ : Type} {good : Prop} {width : Nat} {read : Bytes → β → Except Error α}
    (h : Decided good width read) (f : α → γ) :
    Decided good width fun window rest => (read window rest).map f := by
  constructor
  · intro hgood window rest hlen
    obtain ⟨v, hv⟩ := h.reads hgood window rest hlen
    exact ⟨f v, by rw [hv]; rfl⟩
  · intro hbad
    obtain ⟨size, actual, hne, hrefuses⟩ := h.refuses hbad
    exact ⟨size, actual, hne, fun window rest hlen => by rw [hrefuses window rest hlen]; rfl⟩

omit [Heap σ] in
/-- A reading that is another one from some other state is decided alike. -/
theorem Decided.imitate {α β : Type} {good : Prop} {length : Nat}
    {read read' : Bytes → β → Except Error α} (h : Decided good length read)
    (hsame : ∀ buffer rest, ∃ rest', read' buffer rest = read buffer rest') :
    Decided good length read' := by
  constructor
  · intro hgood buffer rest hlen
    obtain ⟨rest', hrest⟩ := hsame buffer rest
    exact hrest ▸ h.reads hgood buffer rest' hlen
  · intro hbad
    obtain ⟨size, actual, hne, hrefuses⟩ := h.refuses hbad
    refine ⟨size, actual, hne, fun buffer rest hlen => ?_⟩
    obtain ⟨rest', hrest⟩ := hsame buffer rest
    exact hrest.trans (hrefuses buffer rest' hlen)

omit [Heap σ] in
/-- A part of the buffer is read, then the rest: the first of the two that is refused decides. -/
theorem Decided.andThen {α β γ δ : Type} {good later : Prop} {width length : Nat}
    {read : Bytes → β → Except Error α} {next whole : Bytes → γ → Except Error δ}
    (hhead : Decided good width read) (hnext : Decided later length next)
    {window : Bytes → Bytes} (state : γ → β) (keep : α → γ → γ)
    (hwindow : ∀ buffer, buffer.length = length → (window buffer).length = width)
    (hwhole : ∀ buffer rest, whole buffer rest =
      (read (window buffer) (state rest)).bind fun v => next buffer (keep v rest)) :
    Decided (good ∧ later) length whole := by
  constructor
  · intro ⟨hgood, hlater⟩ buffer rest hlen
    obtain ⟨v, hv⟩ := hhead.reads hgood (window buffer) (state rest) (hwindow buffer hlen)
    rw [hwhole, hv]
    exact hnext.reads hlater buffer (keep v rest) hlen
  · intro hbad
    by_cases hgood : good
    · obtain ⟨size, actual, hne, hrefuses⟩ := hnext.refuses fun hlater => hbad ⟨hgood, hlater⟩
      refine ⟨size, actual, hne, fun buffer rest hlen => ?_⟩
      obtain ⟨v, hv⟩ := hhead.reads hgood (window buffer) (state rest) (hwindow buffer hlen)
      rw [hwhole, hv]
      exact hrefuses buffer (keep v rest) hlen
    · obtain ⟨size, actual, hne, hrefuses⟩ := hhead.refuses hgood
      refine ⟨size, actual, hne, fun buffer rest hlen => ?_⟩
      rw [hwhole, hrefuses (window buffer) (state rest) (hwindow buffer hlen)]
      rfl

/-- The codec of the elements has variable length exactly if the member has. -/
theorem Kind.isVarying_element {rules : ViewRules} {settings : Settings} {p : Placement}
    {kind : Kind} (h : ofPlacement rules settings p = .ok kind) :
    kind.element.isVarying = p.isVarying := by
  obtain ⟨view, element, he, hkind, -⟩ := exists_ofView h
  have hvarying := (Element.choose_of_ofView he).2
  rcases hkind with ⟨-, rfl⟩ | ⟨-, -, rfl⟩ | ⟨-, rfl⟩ <;> exact hvarying

/-- **A member is read from every window of its width, or from none.** -/
theorem Kind.decided (order : ByteOrder) {p : Placement} {kind : Kind} (hc : p.Checked)
    (hw : p.footprint < 2 ^ 63) (hv : p.isVarying = false)
    (hk : kind.element.isVarying = false)
    (hn : ∀ t, kind.element = .record t → t.totalSize < 2 ^ 63 →
      Decided t.Fits t.totalSize (t.unpack (σ := σ) Fields)) :
    Decided (∀ t, kind.element = .record t → t.totalSize = kind.slot p ∧ t.Fits) p.footprint
      (kind.read (σ := σ) p order) := by
  cases kind with
  | single element =>
    exact element.decided p.name order _ hk fun t ht hsize => hn t ht (hsize ▸ hw)
  | array element =>
    have hwidth := (hc.elementWidth_le hv hw).trans_lt hw
    have hrun := readRun_decided hc.elements_pos
      (element.decided (σ := σ) p.name order p.elementWidth hk
        fun t ht hsize => hn t ht (hsize ▸ hwidth))
    rw [Placement.footprint_eq hv hw]
    exact hrun.map (Value.array p.dims)

/-- A mapped member adds its value, or stops the record. -/
theorem fill_mapped {positional : Bool} {order : ByteOrder} {buffer : Bytes} {p : Placement}
    {kind : Kind} {binding : Binding} (hb : binding.isBound = true) (ms : List Member)
    (position : Nat) (rest : Option σ × Fields) :
    fill (readMembers positional order buffer rest.1 (⟨p, kind, binding⟩ :: ms) position) rest.2 =
      (kind.read p order (p.window buffer) rest.1).bind fun v =>
        fill (readMembers positional order buffer rest.1 ms (position + 1))
          (Assoc.insert p.name v rest.2) := by
  rw [readMembers]
  simp only [hb, if_true, fill]
  cases kind.read p order (p.window buffer) rest.1 <;> rfl

/-- A member that is not mapped at most leaves a null behind. -/
theorem fill_unmapped {positional : Bool} {order : ByteOrder} {buffer : Bytes} {p : Placement}
    {kind : Kind} {binding : Binding} (hb : binding.isBound = false) (ms : List Member)
    (position : Nat) (rest : Option σ × Fields) : ∃ acc : Fields,
      fill (readMembers positional order buffer rest.1 (⟨p, kind, binding⟩ :: ms) position)
        rest.2 = fill (readMembers positional order buffer rest.1 ms (position + 1)) acc := by
  rw [readMembers]
  simp only [hb, Bool.false_eq_true, if_false]
  cases positional with
  | false => exact ⟨rest.2, rfl⟩
  | true => exact ⟨Assoc.insert p.name .null rest.2, rfl⟩

/-- **A record is filled from every buffer, or from none**: the first member that is refused
stops it. -/
theorem fill_decided (positional : Bool) (order : ByteOrder) (length : Nat) :
    ∀ {ms : List Member} (position : Nat), (∀ m ∈ ms, m.placement.stop ≤ length) →
    (∀ m ∈ ms, m.isMapped = true →
      Decided m.Fits m.placement.footprint (m.kind.read (σ := σ) m.placement order)) →
    Decided (∀ m ∈ ms, m.isMapped = true → m.Fits) length
      fun buffer (rest : Option σ × Fields) =>
        fill (readMembers positional order buffer rest.1 ms position) rest.2
  | [], position, _, _ => by
    refine ⟨fun _ buffer rest _ => ⟨rest.2, rfl⟩, fun hbad => ?_⟩
    exact absurd (fun m hm => absurd hm List.not_mem_nil) hbad
  | ⟨p, kind, binding⟩ :: ms, position, hwithin, hread => by
    obtain ⟨hstop, hwithin⟩ := List.forall_mem_cons.1 hwithin
    obtain ⟨hhead, hread⟩ := List.forall_mem_cons.1 hread
    have ih := fill_decided positional order length (position + 1) hwithin hread
    rw [List.forall_mem_cons]
    cases hb : binding.isBound with
    | false =>
      have hunmapped : (⟨p, kind, binding⟩ : Member).isMapped = false := hb
      rw [and_iff_right fun hmapped => nomatch hmapped.symm.trans hunmapped]
      refine ih.imitate fun buffer rest => ?_
      obtain ⟨acc, hacc⟩ := fill_unmapped hb ms position rest
      exact ⟨(rest.1, acc), hacc⟩
    | true =>
      have hmapped : (⟨p, kind, binding⟩ : Member).isMapped = true := hb
      rw [forall_prop_of_true hmapped]
      exact (hhead hmapped).andThen ih Prod.fst
        (fun v rest => (rest.1, Assoc.insert p.name v rest.2))
        (fun _ hlen => Placement.length_window (hstop.trans hlen.ge))
        fun _ rest => fill_mapped hb ms position rest

namespace Schema

/-- **A built schema without members of variable length reads all buffers of its size or none**,
by the induction over nested schemas. -/
theorem Built.decided {s : Schema} (hs : s.Built) (hfixed : s.FixedLength)
    (hsize : s.totalSize < 2 ^ 63) : Decided s.Fits s.totalSize (s.unpack (σ := σ) Fields) := by
  induction hs with
  | @intro s here _ ih =>
    obtain ⟨b, hb⟩ := here
    obtain ⟨hfixed, hnested⟩ := hfixed
    have hl := (Blueprint.laidOut_of_build hb).1
    have hmembers := fill_decided (σ := σ) s.isPositional s.settings.byteOrder
      s.totalSize 0 hl.within fun m hm _ => ?_
    · rw [← fits_iff] at hmembers
      constructor
      · intro hgood bytes heap hlen
        rw [s.unpack_eq hlen]
        exact hmembers.reads hgood bytes (heap, []) hlen
      · intro hbad
        obtain ⟨size, actual, hne, hrefuses⟩ := hmembers.refuses hbad
        refine ⟨size, actual, hne, fun bytes heap hlen => ?_⟩
        rw [s.unpack_eq hlen]
        exact hrefuses bytes (heap, []) hlen
    · have hfoot : m.placement.footprint < 2 ^ 63 := (hl.footprint_le hm).trans_lt hsize
      have hv := hfixed m hm
      refine Kind.decided _ (hl.checked m hm) hfoot hv
        ((Kind.isVarying_element (hl.chosen m hm)).trans hv) fun t ht hlt => ?_
      have ht' := Kind.nested_of_element (hl.chosen m hm) ht
      exact ih m hm t ht' (hnested m hm t ht') hlt

/-! ## When records fit -/

end Schema

end Heap

theorem Kind.fills_iff {p : Placement} {kind : Kind} :
    kind.Fills p ↔ ∀ t, kind.element = .record t → t.totalSize = kind.slot p := by
  cases kind with
  | single element =>
    cases element with
    | scalar codec =>
      refine ⟨?_, fun _ => trivial⟩
      intro _ t ht
      cases ht
    | record s =>
      refine ⟨?_, fun h => h s rfl⟩
      intro h t ht
      cases ht
      exact h
  | array element =>
    cases element with
    | scalar codec =>
      refine ⟨?_, fun _ => trivial⟩
      intro _ t ht
      cases ht
    | record s =>
      refine ⟨?_, fun h => h s rfl⟩
      intro h t ht
      cases ht
      exact h

/-- A member of the class of records is coded by a record that fills its windows. -/
theorem Kind.fills_of_compound {rules : ViewRules} {settings : Settings} {p : Placement}
    {kind : Kind} (hc : p.Checked) (h : ofPlacement rules settings p = .ok kind)
    (hclass : p.storageClass = .compound) : kind.Fills p := by
  refine fills_iff.2 fun t ht => ?_
  have hnested := nested_of_element h ht
  have hvarying : p.isVarying = false := by
    rw [← isVarying_element h, ht]
    rfl
  have hpos : 0 < p.size := by
    have := hc.elementWidth_pos hvarying
    unfold Placement.elementWidth at this
    omega
  have hsize := hc.nested_fills hnested hclass hpos
  obtain ⟨view, element, -, hkind, -⟩ := exists_ofView h
  rcases hkind with ⟨ha, rfl⟩ | ⟨ha, hraw, rfl⟩ | ⟨ha, rfl⟩
  · rwa [Placement.elementWindow_of_pos hpos] at hsize
  · change element = .record t at ht
    subst ht
    cases hraw
  · rwa [← Placement.footprint_of_not_isArray ha] at hsize

namespace Schema

/-- Records fit if each of them fills its windows, at every depth. -/
theorem fits_of_fills {s : Schema}
    (h : s.Hereditarily fun t => ∃ rules, t.LaidOut rules ∧
      ∀ m ∈ t.members, m.isMapped = true → m.kind.Fills m.placement) : s.Fits := by
  induction h with
  | intro here _ ih =>
    obtain ⟨rules, hl, hfills⟩ := here
    refine fits_iff.2 fun m hm hmapped t ht => ?_
    exact ⟨Kind.fills_iff.1 (hfills m hm hmapped) t ht,
      ih m hm t (Kind.nested_of_element (hl.chosen m hm) ht)⟩

/-- Members that are read as records are of the class of records, at every depth. -/
def RecordsDeclared (s : Schema) : Prop :=
  s.Hereditarily fun t => ∀ m ∈ t.members, m.isMapped = true →
    ∀ u, m.kind.element = .record u → m.placement.storageClass = .compound

theorem Built.fits {s : Schema} (hs : s.Built) (h : s.RecordsDeclared) : s.Fits := by
  refine fits_of_fills ?_
  induction hs with
  | @intro s here _ ih =>
    obtain ⟨b, hb⟩ := here
    obtain ⟨hclass, hnested⟩ := h
    have hl := (Blueprint.laidOut_of_build hb).1
    refine .intro ⟨b.rules, hl, fun m hm hmapped => ?_⟩ fun m hm t ht =>
      ih m hm t ht (hnested m hm t ht)
    refine Kind.fills_iff.2 fun t ht => ?_
    have hfills := Kind.fills_of_compound (hl.checked m hm) (hl.chosen m hm)
      (hclass m hm hmapped t ht)
    exact Kind.fills_iff.1 hfills t ht

theorem BuiltPlainly.fits {s : Schema} (hs : s.BuiltPlainly) : s.Fits := by
  refine fits_of_fills (hs.mono fun t ⟨b, hrules, hb⟩ => ?_)
  have hl := (Blueprint.laidOut_of_build hb).1
  refine ⟨b.rules, hl, fun m hm _ => ?_⟩
  exact Kind.fills (hl.checked m hm) (hrules ▸ hl.chosen m hm)

/-- **Canonical records can be written if the records in them fit.** -/
theorem Built.written_of_fits {σ : Type} [Heap σ] [LawfulHeap σ] {s : Schema} (hs : s.Built)
    (hf : s.Fits) : s.Written σ := by
  induction hs with
  | @intro s here _ ih =>
    obtain ⟨b, hb⟩ := here
    have hl := (Blueprint.laidOut_of_build hb).1
    have hmembers := fits_iff.1 hf
    refine written_of_laidOut hl
      (fun m hm hmapped => Kind.fills_iff.2 fun t ht => (hmembers m hm hmapped t ht).1)
      fun m hm hmapped t hkind => ?_
    have ht : m.kind.element = .record t := by
      rcases hkind with hkind | hkind <;> rw [hkind] <;> rfl
    exact ih m hm t (Kind.nested_of_element (hl.chosen m hm) ht) (hmembers m hm hmapped t ht).2

end Schema

/-- **A built schema without members of variable length reads every buffer of its size exactly if
the records in it fill the windows they are read from.**  Otherwise it reads none, and refuses
all for the length of one record.  The records fill their windows if the members read as records
are of the class of records, so always without overrides.  The bound is one for the records in it as
well, since an override can bring in one of any size: it keeps every sum and product of sizes within
its machine word. -/
theorem every_buffer_read_iff_fits {s : Schema} (hs : s.Built) (hfixed : s.FixedLength)
    (hsizes : s.Hereditarily fun t => t.totalSize < 2 ^ 63) {σ : Type} [Heap σ] :
    (s.Fits → ∀ (bytes : Bytes) (heap : Option σ), bytes.length = s.totalSize →
      ∃ record, s.unpack Fields bytes heap = .ok record ∧
        s.guardedUnpack Fields bytes heap = .ok (.ok record)) ∧
    (¬s.Fits → ∃ size width, size ≠ width ∧
      ∀ (bytes : Bytes) (heap : Option σ), bytes.length = s.totalSize →
        s.unpack Fields bytes heap = .error (.bufferSize size width) ∧
        s.guardedUnpack Fields bytes heap = .ok (.error (.bufferSize size width))) ∧
    (s.RecordsDeclared → s.Fits) ∧ (s.BuiltPlainly → s.Fits) := by
  obtain ⟨hsize, -⟩ := hsizes
  have hdecided := hs.decided (σ := σ) hfixed hsize
  refine ⟨?_, ?_, hs.fits, Schema.BuiltPlainly.fits⟩
  · intro hfits bytes heap hlen
    obtain ⟨record, hrecord⟩ := hdecided.reads hfits bytes heap hlen
    exact ⟨record, hrecord, by rw [hs.reads.unpack hsize, hrecord]⟩
  · intro hunfit
    obtain ⟨size, width, hne, hrefuses⟩ := hdecided.refuses hunfit
    refine ⟨size, width, hne, fun bytes heap hlen => ?_⟩
    have hrefused := hrefuses bytes heap hlen
    exact ⟨hrefused, by rw [hs.reads.unpack hsize, hrefused]⟩

/-! ## Records in windows of their length, and in a longer one -/

/-- Two cells. -/
def gridSchema : Schema :=
  ⟨"Grid", [⟨{ Placement.plain "cells" 0 .compound 4 with dims := [2], nested := some cellSchema },
    .array (.record cellSchema), .dynamic⟩], Shape.openMap.outline, 8, {}⟩

/-- A record of an integer in two bytes. -/
def shortSchema : Schema :=
  ⟨"N", [⟨.plain "x" 0 .integer 2, .single (.scalar (.integer true)), .dynamic⟩],
    Shape.openMap.outline, 2, {}⟩

/-- Four raw bytes that are viewed as a record of two. -/
def reviewedBlueprint : Blueprint :=
  { openBlueprint "T" [{ Placement.plain "p" 0 .raw 4 with nested := some shortSchema }] with
    rules := ⟨[(⟨.raw, 4, 0, none⟩, .compound)]⟩ }

def reviewedSchema : Schema :=
  ⟨"T", [⟨{ Placement.plain "p" 0 .raw 4 with nested := some shortSchema },
    .single (.record shortSchema), .dynamic⟩], Shape.openMap.outline, 4, {}⟩

theorem build_gridSchema : (openBlueprint "Grid"
    [{ Placement.plain "cells" 0 .compound 4 with dims := [2], nested := some cellSchema }]).build =
      .ok gridSchema := by cbv

theorem build_reviewedSchema : reviewedBlueprint.build = .ok reviewedSchema := by cbv

/-- A property of a schema that nests another one, which nests none. -/
theorem Schema.hereditarily_of_two {P : Schema → Prop} {s t : Schema}
    (hs : s.members.filterMap (fun m => m.placement.nested) = [t])
    (ht : t.members.filterMap (fun m => m.placement.nested) = []) (houter : P s) (hinner : P t) :
    s.Hereditarily P := by
  refine .intro houter fun m hm u hu => ?_
  obtain rfl : u = t := List.mem_singleton.1 (hs ▸ List.mem_filterMap.2 ⟨m, hm, hu⟩)
  refine .intro hinner fun n hn v hv => ?_
  exact absurd (ht ▸ List.mem_filterMap.2 ⟨n, hn, hv⟩) List.not_mem_nil

theorem builtPlainly_gridSchema : gridSchema.BuiltPlainly :=
  Schema.hereditarily_of_two rfl rfl ⟨_, rfl, build_gridSchema⟩ ⟨_, rfl, build_cellSchema⟩

theorem built_reviewedSchema : reviewedSchema.Built := by
  have hshort : (openBlueprint "N" [.plain "x" 0 .integer 2]).build = .ok shortSchema := by cbv
  exact Schema.hereditarily_of_two rfl rfl ⟨_, build_reviewedSchema⟩ ⟨_, hshort⟩

theorem fixedLength_gridSchema : gridSchema.FixedLength := by
  refine Schema.hereditarily_of_two rfl rfl ?_ ?_ <;>
  · intro m hm
    rw [List.mem_singleton.1 hm]
    rfl

theorem fixedLength_reviewedSchema : reviewedSchema.FixedLength := by
  refine Schema.hereditarily_of_two rfl rfl ?_ ?_ <;>
  · intro m hm
    rw [List.mem_singleton.1 hm]
    rfl

theorem every_buffer_read_grid :
    (gridSchema.Built ∧ gridSchema.FixedLength ∧
      (gridSchema.Hereditarily fun t => t.totalSize < 2 ^ 63) ∧
      ∀ (bytes : Bytes) (heap : Option TransientStore), bytes.length = 8 →
        ∃ record, gridSchema.unpack Fields bytes heap = .ok record) ∧
    (reviewedSchema.Built ∧ reviewedSchema.FixedLength ∧
      (reviewedSchema.Hereditarily fun t => t.totalSize < 2 ^ 63) ∧ ¬reviewedSchema.Fits) := by
  have hplain := builtPlainly_gridSchema
  have hsizes : gridSchema.Hereditarily fun t => t.totalSize < 2 ^ 63 :=
    Schema.hereditarily_of_two rfl rfl (by decide) (by decide)
  have hsizes' : reviewedSchema.Hereditarily fun t => t.totalSize < 2 ^ 63 :=
    Schema.hereditarily_of_two rfl rfl (by decide) (by decide)
  obtain ⟨hreads, -, -, hfits⟩ := every_buffer_read_iff_fits hplain.built fixedLength_gridSchema
    hsizes (σ := TransientStore)
  obtain ⟨hreads', -⟩ := every_buffer_read_iff_fits built_reviewedSchema
    fixedLength_reviewedSchema hsizes' (σ := TransientStore)
  refine ⟨⟨hplain.built, fixedLength_gridSchema, hsizes, fun bytes heap hlen => ?_⟩,
    built_reviewedSchema, fixedLength_reviewedSchema, hsizes', fun hunfit => ?_⟩
  · obtain ⟨record, hrecord, -⟩ := hreads (hfits hplain) bytes heap hlen
    exact ⟨record, hrecord⟩
  · obtain ⟨record, hrecord, -⟩ := hreads' hunfit [0, 0, 0, 0] none rfl
    have hrefused : reviewedSchema.unpack Fields [0, 0, 0, 0] (none : Option TransientStore) =
        .error (.bufferSize 2 4) := by cbv
    cases hrecord.symm.trans hrefused

/-- **A schema that passed every check may read no buffer at all.** -/
theorem checked_schema_reads_nothing :
    reviewedBlueprint.build = .ok reviewedSchema ∧ reviewedSchema.Built ∧
    reviewedSchema.FixedLength ∧ reviewedSchema.totalSize = 4 ∧
    ∀ (bytes : Bytes) (heap : Option TransientStore), bytes.length = 4 →
      reviewedSchema.unpack Fields bytes heap = .error (.bufferSize 2 4) := by
  refine ⟨build_reviewedSchema, built_reviewedSchema, fixedLength_reviewedSchema, rfl, ?_⟩
  intro bytes heap hlen
  have hread : (Element.record shortSchema).read "p" .little
      ((Placement.plain "p" 0 .raw 4).window bytes) heap = .error (.bufferSize 2 4) := by
    have hwindow : ((Placement.plain "p" 0 .raw 4).window bytes).length = 4 :=
      Placement.length_window (p := .plain "p" 0 .raw 4) hlen.ge
    rw [Element.read_record, Schema.unpack_of_ne (by rw [hwindow]; decide), hwindow]
    rfl
  rw [Schema.unpack_eq _ hlen]
  change fill [⟨"p", 0, (Element.record shortSchema).read "p" .little
    ((Placement.plain "p" 0 .raw 4).window bytes) heap⟩] ([] : Fields) = _
  rw [hread]
  rfl

end PackedRecord
