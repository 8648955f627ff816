import Mathlib.Data.List.Forall2
import Mathlib.Order.Basic
import PackedRecord.Schema.Coverage
import PackedRecord.Proofs.ByteRanges
import PackedRecord.Proofs.SortedMaps
import PackedRecord.Proofs.StoredCodes

/-!
# Inferred layouts

A declared field is stored by the placement that is inferred for it, and the codec of a member is
chosen by the view of its placement.  Both are tables over the same types, run in opposite
directions.

* `FieldType.kind`, `FieldType.width` — the codec and the bytes a declared field calls for.
* `FieldType.codedAs_of_infer` — the two tables meet, one lemma for each group of types, unless the
  size of an element is no signed number of 64 bits (`FieldType.spill`).
* `Placement.Dense` — placements without a gap; `dense_of_packFields` by induction on the fields.
* `Blueprint.BuildsBelow` — a build whose sums and products of sizes stay below a bound.
* `inferred_layout_dense` — what a build makes of the fields that no placement states.
* `long_text_spilled` — a text whose bytes are a negative size.
-/

namespace PackedRecord

attribute [local instance] corePow

/-! ## What a declared field calls for -/

namespace Placement

/-- The count is a negative size. -/
def Wraps (count : Nat) : Prop := 2 ^ 63 ≤ count ∧ count < 2 ^ 64

instance (count : Nat) : Decidable (Wraps count) := inferInstanceAs (Decidable (_ ∧ _))

theorem isVarying_of_count {p : Placement} {count : Nat} (h : p.size = sizeOfCount count) :
    p.isVarying = decide (Wraps count) := by
  have hsign : sizeOfCount count < 0 ↔ Wraps count := by
    unfold sizeOfCount Wraps
    split <;> omega
  rw [isVarying, h]
  exact decide_eq_decide.2 hsign

theorem elementWindow_of_count {p : Placement} {count : Nat} (h : p.size = sizeOfCount count)
    (hw : ¬Wraps count) : p.elementWindow = count := by
  have hsize : p.size = count := h.trans (if_neg hw)
  simp [elementWindow, isVarying_of_count h, hw, elementWidth, hsize]

/-- Default view of one element. -/
def elementView (p : Placement) : View := View.ofElement p.storageClass p.size p.meaning

theorem size_pos_iff {p : Placement} (h : p.size ≠ 0) : 0 < p.size ↔ p.isVarying = false := by
  simp [isVarying]
  omega

theorem elementView_bitField {p : Placement} (hclass : p.storageClass = .bitField)
    (hmeaning : p.meaning = none) (h : 0 < p.size) : p.elementView = .bitField := by
  rw [elementView, hclass, hmeaning]
  exact if_pos h

/-- A nested record is seen as one unless its length is that of content of variable length. -/
theorem elementView_compound {p : Placement} (hclass : p.storageClass = .compound)
    (hmeaning : p.meaning = none) (h : p.size ≠ 0) :
    p.elementView = if p.isVarying then .unknown else .compound := by
  rw [elementView, hclass, hmeaning]
  show (if 0 < p.size then View.compound else .unknown) = _
  rw [if_congr (size_pos_iff h) rfl rfl]
  cases p.isVarying <;> rfl

end Placement

namespace FieldType

/-- Extents of a declared array. -/
def dims : FieldType → List Nat
  | array _ dims => dims
  | _ => []

/-- Codec of one element of a declared field. -/
def codec (settings : Settings) : FieldType → Element
  | bool => .scalar .bool
  | integer _ signed => .scalar (.integer signed)
  | float _ => .scalar .float
  | string _ charset => .scalar (.fixedText (charset.getD settings.charset))
  | varyingString charset => .scalar (.varyingText (charset.getD settings.charset))
  | enumeration table => .scalar (.enumeration table)
  | bitField _ => .scalar .bitField
  | timestamp unit => .scalar (.timestamp (unit.getD settings.timeUnit))
  | duration unit => .scalar (.duration unit)
  | raw _ _ => .scalar .raw
  | varyingBytes => .scalar .varyingBytes
  | array element _ => element.codec settings
  | compound schema => .record schema

/-- Codec of a declared field. -/
def kind (settings : Settings) : FieldType → Kind
  | array element _ => .array (element.codec settings)
  | type => .single (type.codec settings)

/-- Bytes of one element of a declared field. -/
def elementWidth (settings : Settings) : FieldType → Nat
  | bool => 1
  | integer size _ | float size | raw size _ => size
  | string length charset => (charset.getD settings.charset).widthOf length
  | varyingString _ | varyingBytes => Handle.width
  | enumeration table => table.width
  | bitField bits => (bits + 7) / 8
  | timestamp _ | duration _ => 8
  | array element _ => element.elementWidth settings
  | compound schema => schema.totalSize

/-- Bytes of a declared field. -/
def width (settings : Settings) (type : FieldType) : Nat :=
  type.elementWidth settings * elementCount type.dims

/-- The codec in place of the one a declared field calls for, where the bytes of an element are a
negative size and so mark content of variable length. -/
def spill (settings : Settings) : FieldType → Option Scalar
  | string length charset =>
    if Placement.Wraps ((string length charset).elementWidth settings) then
      some (.varyingText (charset.getD settings.charset))
    else none
  | raw size _ => if Placement.Wraps size then some .varyingBytes else none
  | compound schema => if Placement.Wraps schema.totalSize then some .varyingBytes else none
  | array element _ => element.spill settings
  | _ => none

end FieldType

namespace Element

variable {p : Placement} {settings : Settings}

theorem pos_of_isIntegerWidth {size : Int} (h : isIntegerWidth size = true) : 0 < size := by
  simp [isIntegerWidth] at h
  omega

/-- The check for the length of an element passes a codec of either length in its own place. -/
theorem ofView_eq {view : View} {varying fixed : Scalar} (hv : varying.isVarying = true)
    (hf : fixed.isVarying = false)
    (h : choose p settings view = .ok (.scalar (if p.isVarying then varying else fixed))) :
    ofView p settings view = .ok (.scalar (if p.isVarying then varying else fixed)) := by
  simp only [ofView, h]
  cases hp : p.isVarying <;> simp [isVarying, hv, hf]

theorem ofView_string : ofView p settings .string =
    .ok (.scalar (if p.isVarying then .varyingText p.charset else .fixedText p.charset)) :=
  ofView_eq rfl rfl rfl

/-- Members of an unknown view are kept as bytes, like those of the view of bytes. -/
theorem ofView_of_fallback {view : View} (h : choose p settings view = .ok (fallback p)) :
    ofView p settings view = .ok (fallback p) :=
  ofView_eq rfl rfl h

end Element

namespace FieldType

/-! ## Inferred placements of elements -/

variable {name : String} {settings : Settings}

/-- An array is placed like its element, with extents added. -/
theorem infer_array {element : FieldType} {dims : List Nat} {p : Placement}
    (h : (array element dims).infer name settings = .ok p) :
    ∃ placed, element.infer name settings = .ok placed ∧ p = { placed with dims := dims } ∧
      dims ≠ [] := by
  rw [infer] at h
  split at h
  · cases h
  split at h
  · cases h
  rename_i hrank
  simp at hrank
  rcases hplaced : element.infer name settings with _ | placed <;>
    simp only [hplaced, Except.map] at h
  · cases h
  cases h
  refine ⟨placed, rfl, ?_, hrank.1⟩
  rw [Placement.withDims, List.take_of_length_le hrank.2]

theorem dims_of_infer {type : FieldType} {p : Placement}
    (h : type.infer name settings = .ok p) : p.dims = type.dims := by
  cases type with
  | array element dims =>
    obtain ⟨placed, -, rfl, -⟩ := infer_array h
    rfl
  | integer | float | bitField =>
    rw [infer] at h
    split at h <;> cases h
    rfl
  | _ =>
    cases h
    rfl

theorem name_of_infer {type : FieldType} : ∀ {p : Placement},
    type.infer name settings = .ok p → p.name = name := by
  induction type with
  | array element dims ih =>
    intro p h
    obtain ⟨placed, hplaced, rfl, -⟩ := infer_array h
    have hname : placed.name = name := ih hplaced
    exact hname
  | integer | float | bitField =>
    intro p h
    rw [infer] at h
    split at h <;> cases h
    rfl
  | _ =>
    intro p h
    cases h
    rfl

/-- The tables of placements and of codecs meet: an element is stored by the codec and in the bytes
its type calls for, or by the codec that takes their place. -/
structure CodedAs (settings : Settings) (type : FieldType) (p : Placement) (e : Element) :
    Prop where
  declared : type.spill settings = none →
    e = type.codec settings ∧ p.elementWindow = type.elementWidth settings
  spilled : ∀ codec, type.spill settings = some codec → e = .scalar codec

theorem codedAs_of_fixed {type : FieldType} {p : Placement} {e : Element}
    (hspill : type.spill settings = none) (he : e = type.codec settings)
    (hwidth : p.elementWindow = type.elementWidth settings) : CodedAs settings type p e :=
  ⟨fun _ => ⟨he, hwidth⟩, fun codec hc => by simp [hspill] at hc⟩

/-- An element whose bytes are a count is stored by one of two codecs. -/
theorem codedAs_of_count {type : FieldType} {p : Placement} {count : Nat} {spilled : Scalar}
    {e : Element} (hsize : p.size = Placement.sizeOfCount count)
    (hwidth : type.elementWidth settings = count)
    (hspill : type.spill settings = if Placement.Wraps count then some spilled else none)
    (hvarying : p.isVarying = true → e = .scalar spilled)
    (hfixed : p.isVarying = false → e = type.codec settings) : CodedAs settings type p e := by
  rw [Placement.isVarying_of_count hsize] at hvarying hfixed
  by_cases hw : Placement.Wraps count
  · simp [hw] at hspill hvarying
    refine ⟨fun hc => by simp [hspill] at hc, fun codec hc => ?_⟩
    rw [hspill] at hc
    rw [hvarying, Option.some.inj hc]
  · simp [hw] at hspill hfixed
    have hwindow := Placement.elementWindow_of_count hsize hw
    exact ⟨fun _ => ⟨hfixed, hwindow.trans hwidth.symm⟩, fun codec hc => by simp [hspill] at hc⟩

section Tables

variable {p : Placement} {e : Element}

theorem codedAs_integer {size : Nat} {signed : Bool}
    (h : (integer size signed).infer name settings = .ok p)
    (he : Element.ofView p settings p.elementView = .ok e) :
    CodedAs settings (integer size signed) p e := by
  rw [infer] at h
  split at h
  · rename_i hw
    simp at hw
    cases h
    rcases hw with rfl | rfl | rfl | rfl <;> cases he <;> exact codedAs_of_fixed rfl rfl rfl
  · cases h

theorem codedAs_float {size : Nat} (h : (float size).infer name settings = .ok p)
    (he : Element.ofView p settings p.elementView = .ok e) :
    CodedAs settings (float size) p e := by
  rw [infer] at h
  split at h
  · rename_i hw
    simp at hw
    cases h
    rcases hw with rfl | rfl <;> cases he <;> exact codedAs_of_fixed rfl rfl rfl
  · cases h

theorem codedAs_string {length : Nat} {charset : Option Charset}
    (h : (string length charset).infer name settings = .ok p)
    (he : Element.ofView p settings p.elementView = .ok e) :
    CodedAs settings (string length charset) p e := by
  cases h
  change Element.ofView _ settings .string = _ at he
  rw [Element.ofView_string] at he
  apply codedAs_of_count rfl rfl rfl
  · intro hv
    simpa [hv, codec] using he.symm
  · intro hv
    simpa [hv, codec] using he.symm

theorem codedAs_raw {size : Nat} {tag : Option String}
    (h : (raw size tag).infer name settings = .ok p)
    (he : Element.ofView p settings p.elementView = .ok e) :
    CodedAs settings (raw size tag) p e := by
  cases h
  change Element.ofView _ settings .bytes = _ at he
  rw [Element.ofView_of_fallback rfl, Element.fallback] at he
  apply codedAs_of_count rfl rfl rfl
  · intro hv
    simpa [hv, codec] using he.symm
  · intro hv
    simpa [hv, codec] using he.symm

theorem codedAs_compound {schema : Schema} (h : (compound schema).infer name settings = .ok p)
    (hsize : p.size ≠ 0) (he : Element.ofView p settings p.elementView = .ok e) :
    CodedAs settings (compound schema) p e := by
  cases h
  rw [Placement.elementView_compound rfl rfl hsize] at he
  apply codedAs_of_count rfl rfl rfl
  · intro hv
    rw [hv, if_pos rfl, Element.ofView_of_fallback rfl, Element.fallback, hv] at he
    exact (Except.ok.inj he).symm
  · intro hv
    rw [hv, if_neg Bool.false_ne_true] at he
    exact (Except.ok.inj (Element.choose_of_ofView he).1).symm

theorem codedAs_bitField {bits : Nat} (h : (bitField bits).infer name settings = .ok p)
    (he : Element.ofView p settings p.elementView = .ok e) :
    CodedAs settings (bitField bits) p e := by
  rw [infer] at h
  split at h
  · cases h
  cases h
  have hpos : (0 : Int) < ((bits + 7) / 8 : Nat) := by omega
  rw [Placement.elementView_bitField rfl rfl hpos] at he
  have hchosen := (Element.choose_of_ofView he).1
  exact codedAs_of_fixed rfl (Except.ok.inj hchosen).symm (Placement.elementWindow_of_pos hpos)

theorem codedAs_enumeration {table : EnumTable}
    (h : (enumeration table).infer name settings = .ok p)
    (he : Element.ofView p settings p.elementView = .ok e) :
    CodedAs settings (enumeration table) p e := by
  cases h
  change Element.ofView _ settings .enumeration = _ at he
  have hchosen := (Element.choose_of_ofView he).1
  unfold Element.choose at hchosen
  dsimp only at hchosen
  split at hchosen
  swap
  · cases hchosen
  rename_i hfits
  -- A width of words is positive and hence no negative size.
  have hfixed := Placement.isVarying_of_pos (Element.pos_of_isIntegerWidth hfits)
  rw [Placement.isVarying_of_count rfl] at hfixed
  have hnot : ¬Placement.Wraps table.width := of_decide_eq_false hfixed
  exact codedAs_of_fixed rfl (Except.ok.inj hchosen).symm
    (Placement.elementWindow_of_count rfl hnot)

end Tables

/-- **The two tables meet**, whatever the type of the field. -/
theorem codedAs_of_infer {type : FieldType} :
    ∀ {p : Placement} {e : Element}, type.infer name settings = .ok p → p.size ≠ 0 →
    Element.ofView p settings p.elementView = .ok e → CodedAs settings type p e := by
  induction type with
  | array element dims ih =>
    intro p e h hsize he
    obtain ⟨placed, hplaced, rfl, -⟩ := infer_array h
    obtain ⟨hdeclared, hspilled⟩ := ih hplaced hsize he
    exact ⟨hdeclared, hspilled⟩
  | bool | varyingString | timestamp | duration | varyingBytes =>
    intro p e h _ he
    cases h
    cases he
    exact codedAs_of_fixed rfl rfl rfl
  | integer size signed => exact fun h _ he => codedAs_integer h he
  | float size => exact fun h _ he => codedAs_float h he
  | string length charset => exact fun h _ he => codedAs_string h he
  | raw size tag => exact fun h _ he => codedAs_raw h he
  | bitField bits => exact fun h _ he => codedAs_bitField h he
  | enumeration table => exact fun h _ he => codedAs_enumeration h he
  | compound schema => exact fun h hsize he => codedAs_compound h hsize he

/-- An inferred placement of fixed length is of a known view. -/
theorem elementView_ne_unknown {type : FieldType} : ∀ {p : Placement},
    type.infer name settings = .ok p → p.size ≠ 0 → p.isVarying = false →
    p.elementView ≠ .unknown := by
  induction type with
  | array element dims ih =>
    intro p h hsize hv
    obtain ⟨placed, hplaced, rfl, -⟩ := infer_array h
    have hview : placed.elementView ≠ .unknown := ih hplaced hsize hv
    exact hview
  | integer size signed =>
    intro p h _ _
    rw [infer] at h
    split at h
    · rename_i hw
      simp at hw
      cases h
      rcases hw with rfl | rfl | rfl | rfl <;> intro hview <;> cases hview
    · cases h
  | float size =>
    intro p h _ _
    rw [infer] at h
    split at h
    · rename_i hw
      simp at hw
      cases h
      rcases hw with rfl | rfl <;> intro hview <;> cases hview
    · cases h
  | bitField bits =>
    intro p h hsize hv
    rw [infer] at h
    split at h <;> cases h
    rw [Placement.elementView_bitField rfl rfl ((Placement.size_pos_iff hsize).2 hv)]
    decide
  | compound schema =>
    intro p h hsize hv
    cases h
    rw [Placement.elementView_compound rfl rfl hsize, hv, if_neg Bool.false_ne_true]
    decide
  | _ =>
    intro p h _ _ hview
    cases h
    cases hview

/-! ## Inferred members -/

theorem kind_eq_of_infer {type : FieldType} {p : Placement}
    (h : type.infer name settings = .ok p) : type.kind settings =
      if p.isArray then .array (type.codec settings) else .single (type.codec settings) := by
  have hdims := dims_of_infer h
  cases type with
  | array element dims =>
    obtain ⟨placed, -, rfl, hne⟩ := infer_array h
    simp [Placement.isArray, hne, kind, codec]
  | _ =>
    rw [Placement.isArray, hdims]
    rfl

end FieldType

/-- Members whose elements take less than `2 ^ 64` bytes are as long as their elements together. -/
theorem Placement.Checked.footprint_eq {p : Placement} (hc : p.Checked)
    (h : p.elementWindow * p.elements < 2 ^ 64) :
    p.footprint = p.elementWindow * p.elements := by
  cases ha : p.isArray with
  | false => rw [footprint_of_not_isArray ha, elements_eq_one ha, Nat.mul_one]
  | true =>
    have hv := hc.fixed ha
    have hpos : 0 < p.elementWidth := by
      have := (size_pos_iff hc.size_ne).2 hv
      unfold elementWidth
      omega
    have hsize : p.size = p.elementWidth := by
      unfold elementWidth at *
      omega
    rw [elementWindow, hv, if_neg Bool.false_ne_true] at h ⊢
    rw [footprint, hv, if_neg Bool.false_ne_true, extent, hv, if_neg Bool.false_ne_true, hsize]
    by_cases hn : p.elements < 2 ^ 63
    · rw [sizeOfCount_of_lt hn, ← Int.natCast_mul, countOfSize]
      split <;> omega
    · -- The number of elements is a negative size, so each of them is a single byte.
      have hone : p.elementWidth = 1 := by
        have hle : p.elementWidth * 2 ^ 63 ≤ p.elementWidth * p.elements :=
          Nat.mul_le_mul_left _ (by omega)
        omega
      rw [hone, Nat.one_mul, Int.natCast_one, Int.one_mul, countOfSize_sizeOfCount]

/-- Without overrides a member is read as its element is, or element by element. -/
theorem Kind.exists_element {settings : Settings} {p : Placement} {kind : Kind}
    (hknown : p.isArray = true → p.isVarying = false ∧ p.elementView ≠ .unknown)
    (h : ofPlacement {} settings p = .ok kind) :
    ∃ e, Element.ofView p settings p.elementView = .ok e ∧
      kind = if p.isArray then .array e else .single e := by
  have hview : p.view {} =
      if p.rank = 0 ∨ p.elementView = .unknown then p.elementView
      else if p.size < 0 then .unknown else .array p.elementView p.rank := rfl
  unfold ofPlacement at h
  cases ha : p.isArray with
  | false =>
    have hrank : p.rank = 0 := by simpa [Placement.isArray, Placement.rank] using ha
    rw [ha, if_neg Bool.false_ne_true, hview, if_pos (.inl hrank)] at h
    rcases he : Element.ofView p settings p.elementView with _ | e <;>
      simp only [he, Except.map] at h
    · cases h
    · exact ⟨e, rfl, (Except.ok.inj h).symm⟩
  | true =>
    obtain ⟨hv, hne⟩ := hknown ha
    have hrank : p.rank ≠ 0 := by simpa [Placement.isArray, Placement.rank] using ha
    have hsize : ¬p.size < 0 := by simpa [Placement.isVarying] using hv
    rw [if_neg (by simp [hrank, hne]), if_neg hsize] at hview
    rw [ha, if_pos rfl, hview] at h
    dsimp only at h
    rcases he : Element.ofView p settings p.elementView with _ | e <;>
      simp only [he, Except.map] at h
    · cases h
    · exact ⟨e, rfl, (Except.ok.inj h).symm⟩

/-- What stores a declared field: the codec of its type in as many bytes, or, where the bytes of an
element are a negative size, a handle of content of variable length. -/
structure FieldType.StoredAs (settings : Settings) (type : FieldType) (kind : Kind)
    (footprint : Nat) : Prop where
  declared : type.spill settings = none →
    kind = type.kind settings ∧ footprint = type.width settings
  spilled : ∀ codec, type.spill settings = some codec →
    kind = .single (.scalar codec) ∧ footprint = Handle.width

theorem FieldType.isVarying_of_spill {settings : Settings} {type : FieldType} {codec : Scalar}
    (h : type.spill settings = some codec) : codec.isVarying = true := by
  induction type with
  | array element dims ih => exact ih h
  | string | raw | compound =>
    rw [spill] at h
    split at h <;> cases h
    rfl
  | _ => cases h

/-- **A member with an inferred placement stores its field.** -/
theorem FieldType.storedAs_of_infer {name : String} {settings : Settings} {type : FieldType}
    {p : Placement} {kind : Kind} (h : type.infer name settings = .ok p) (hc : p.Checked)
    (hword : p.elementWindow * p.elements < 2 ^ 64)
    (hk : Kind.ofPlacement {} settings p = .ok kind) :
    type.StoredAs settings kind p.footprint := by
  obtain ⟨e, he, rfl⟩ := Kind.exists_element
    (fun ha => ⟨hc.fixed ha, elementView_ne_unknown h hc.size_ne (hc.fixed ha)⟩) hk
  obtain ⟨hdeclared, hspilled⟩ := codedAs_of_infer h hc.size_ne he
  refine ⟨fun hnone => ?_, fun codec hsome => ?_⟩
  · obtain ⟨rfl, hwindow⟩ := hdeclared hnone
    refine ⟨(kind_eq_of_infer h).symm, (hc.footprint_eq hword).trans ?_⟩
    rw [width, Placement.elements, dims_of_infer h, hwindow]
  · obtain rfl := hspilled codec hsome
    -- The codec is one of variable length, and so is the member: it is no array.
    have hv : p.isVarying = true := by
      rw [← (Element.choose_of_ofView he).2]
      exact isVarying_of_spill hsome
    have ha : p.isArray = false := by
      by_contra ha
      have hfixed := hc.fixed (by simpa using ha)
      simp [hv] at hfixed
    exact ⟨by simp [ha], Placement.footprint_of_varying hv⟩

/-! ## Packing -/

namespace Placement

/-- Placements follow each other from an offset, without a gap. -/
def Dense : Nat → List Placement → Prop
  | _, [] => True
  | start, p :: rest => p.offset = start ∧ Dense p.stop rest

theorem Dense.offset_eq : ∀ {ps : List Placement} {start : Nat}, Dense start ps →
    ∀ {i : Nat} {p : Placement}, ps[i]? = some p →
      p.offset = start + ((ps.take i).map footprint).sum
  | [], _, _, i, p, hp => by simp at hp
  | q :: rest, start, h, i, p, hp => by
    obtain ⟨rfl, hrest⟩ := h
    cases i with
    | zero =>
      simp at hp
      simp [hp]
    | succ i =>
      have hoffset := hrest.offset_eq hp
      simp only [List.take_succ_cons, List.map_cons, List.sum_cons]
      unfold stop at hoffset
      omega

/-- Placements without a gap end behind all their bytes. -/
theorem Dense.foldl_stop : ∀ {ps : List Placement} {start : Nat}, Dense start ps →
    ps.foldl (fun extent p => max extent p.stop) start = start + (ps.map footprint).sum
  | [], _, _ => rfl
  | q :: rest, start, h => by
    obtain ⟨rfl, hrest⟩ := h
    have hmax : max q.offset q.stop = q.stop := Nat.max_eq_right (Nat.le_add_right ..)
    rw [List.foldl_cons, hmax, hrest.foldl_stop, List.map_cons, List.sum_cons]
    unfold stop
    omega

end Placement

/-- **Fields are laid out one behind the other, each by its inferred placement.** -/
theorem dense_of_packFields {settings : Settings} : ∀ {fields : List Field} {start : Nat}
    {ps : List Placement}, packFields settings start fields = .ok ps →
    Placement.Dense start ps ∧ List.Forall₂ (fun f p => ∃ placed,
      f.type.infer f.name settings = .ok placed ∧ p = placed.moveTo p.offset) fields ps
  | [], _, ps, h => by
    cases h
    exact ⟨trivial, .nil⟩
  | f :: rest, start, ps, h => by
    unfold packFields at h
    rcases hplaced : f.type.infer f.name settings with _ | placed <;> simp only [hplaced] at h
    · cases h
    rcases hrest : packFields settings (placed.moveTo start).stop rest with _ | later <;>
      simp only [hrest, Except.map] at h
    · cases h
    cases h
    obtain ⟨hdense, hlater⟩ := dense_of_packFields hrest
    exact ⟨⟨rfl, hdense⟩, .cons ⟨placed, hplaced, rfl⟩ hlater⟩

/-! ## Complete mappings -/

theorem mem_of_mem_nameSet {names : List String} {n : String} (h : n ∈ nameSet names) :
    n ∈ names := by
  by_contra hnot
  have hsome := Assoc.isSome_get?_iff.2 h
  have hnone : Assoc.get? n (Assoc.insertAll (names.map fun n => (n, ())) []) = none :=
    Assoc.get?_insertAll_of_notMem (by simpa using hnot)
  change (Assoc.get? n (Assoc.insertAll (names.map fun n => (n, ())) [])).isSome = true at hsome
  simp [hnone] at hsome

namespace Schema

variable {s : Schema}

theorem coverage_members_eq_nil (h : ∀ m ∈ s.members, m.isMapped = true) :
    s.coverage.members = [] := by
  have hmapped : s.mappedNames = s.members.map Member.name := by
    rw [mappedNames, List.filter_eq_self.2 h]
  simp only [coverage, hmapped, List.filter_eq_nil_iff]
  intro n hn
  simpa using mem_of_mem_nameSet hn

theorem coverage_fields_eq_nil (h : ∀ n ∈ s.outline.fields,
    ∃ m ∈ s.members, m.name = n ∧ ∃ i, m.binding = .field i) : s.coverage.fields = [] := by
  simp only [coverage, List.filter_eq_nil_iff]
  intro n hn
  obtain ⟨m, hm, hname, i, hbinding⟩ := h n (mem_of_mem_nameSet hn)
  have hsupplied : n ∈ s.suppliedFields := by
    rw [suppliedFields, ← hname]
    exact List.mem_map_of_mem (List.mem_filter.2 ⟨hm, by rw [hbinding]⟩)
  simp [hsupplied]

end Schema

/-! ## Members of inferred placements -/

/-- All elements, one behind the other from the offset, end below a bound. -/
def Placement.EndsBelow (p : Placement) (bound : Nat) : Prop :=
  p.offset + p.elementWindow * p.elements < bound

instance (p : Placement) (bound : Nat) : Decidable (p.EndsBelow bound) :=
  inferInstanceAs (Decidable (_ < _))

/-- A member that ends where a buffer can is as long as its elements together. -/
theorem Placement.Checked.endsBelow {p : Placement} (hc : p.Checked) (h : p.stop < 2 ^ 63) :
    p.EndsBelow (2 ^ 64) := by
  have hfoot : p.footprint = p.elementWindow * p.elements := by
    cases ha : p.isArray with
    | false => rw [footprint_of_not_isArray ha, elements_eq_one ha, Nat.mul_one]
    | true =>
      have hv := hc.fixed ha
      rw [elementWindow, hv, if_neg Bool.false_ne_true]
      exact Placement.footprint_eq hv ((Nat.le_add_left ..).trans_lt h)
  rw [EndsBelow, ← hfoot]
  exact h.trans (by decide)

/-- The schema is built, its members end below a bound and so does the record.  Sums and products of
sizes are then those of any machine words that hold the numbers below the bound. -/
structure Blueprint.BuildsBelow (b : Blueprint) (s : Schema) (bound : Nat) : Prop where
  build : b.build = .ok s
  ends : ∀ m ∈ s.members, m.placement.EndsBelow bound
  size : s.totalSize < bound

/-- Members are those of some declared fields, in order and without a gap from an offset.  Without
overrides each one stores its field. -/
structure Blueprint.Infers (b : Blueprint) (start : Nat) (fields : List Field)
    (ms : List Member) : Prop where
  fields : List.Forall₂ (fun f m => m.name = f.name ∧
    (b.rules = {} → f.type.StoredAs b.settings m.kind m.placement.footprint)) fields ms
  offsets : ∀ (i : Nat) (m : Member), ms[i]? = some m → m.placement.offset =
    start + ((ms.take i).map fun n => n.placement.footprint).sum

namespace Blueprint

variable {b : Blueprint} {s : Schema} {ps : List Placement}

theorem Infers.names {start : Nat} {fields : List Field} {ms : List Member}
    (h : b.Infers start fields ms) : ms.map Member.name = fields.map Field.name := by
  rw [← List.forall₂_eq_eq_eq, List.forall₂_map_left_iff, List.forall₂_map_right_iff]
  exact h.fields.flip.imp fun m f hm => hm.1

/-- The member at the position of a field. -/
theorem Infers.exists_member {start : Nat} {fields : List Field} {ms : List Member}
    (h : b.Infers start fields ms) {f : Field} (hf : f ∈ fields) : ∃ m ∈ ms, m.name = f.name ∧
      (b.rules = {} → f.type.StoredAs b.settings m.kind m.placement.footprint) := by
  obtain ⟨i, hi⟩ := List.getElem?_of_mem hf
  have hrel := getElem?_rel h.fields i
  rw [hi] at hrel
  rcases hm : ms[i]? with _ | m <;> rw [hm] at hrel <;> cases hrel
  rename_i hstored
  exact ⟨m, List.mem_of_getElem? hm, hstored⟩

/-- A member of a built schema stores the field it was inferred for. -/
theorem Stages.storedAs (h : b.Stages ps s) {m : Member} (hm : m ∈ s.members)
    (hends : m.placement.EndsBelow (2 ^ 64)) {f : Field} {placed : Placement}
    (hinfer : f.type.infer f.name b.settings = .ok placed)
    (hp : m.placement = placed.moveTo m.placement.offset) : m.name = f.name ∧
      (b.rules = {} → f.type.StoredAs b.settings m.kind m.placement.footprint) := by
  refine ⟨?_, fun hrules => ?_⟩
  · have hname : m.name = placed.name := by
      rw [Member.name, hp]
      rfl
    exact hname.trans (FieldType.name_of_infer hinfer)
  · have hc : placed.Checked := by
      obtain ⟨hsize, helements, hfixed, hnested⟩ := Placement.checked_of_check (h.check hm)
      rw [hp] at hsize helements hfixed hnested
      exact ⟨hsize, helements, hfixed, hnested⟩
    have hkind := (h.member hm).1
    rw [hrules, hp] at hkind
    rw [hp] at hends
    have hword : placed.elementWindow * placed.elements < 2 ^ 64 :=
      (Nat.le_add_left ..).trans_lt hends
    have hstored : f.type.StoredAs b.settings m.kind placed.footprint :=
      FieldType.storedAs_of_infer hinfer hc hword hkind
    rw [hp]
    exact hstored

theorem Stages.infers (h : b.Stages ps s) (hends : ∀ m ∈ s.members, m.placement.EndsBelow (2 ^ 64))
    {start : Nat} {fields : List Field} {ms : List Member} (hms : ∀ m ∈ ms, m ∈ s.members)
    (hpack : packFields b.settings start fields = .ok (ms.map Member.placement)) :
    b.Infers start fields ms := by
  obtain ⟨hdense, hplaced⟩ := dense_of_packFields hpack
  rw [List.forall₂_map_right_iff] at hplaced
  refine ⟨?_, ?_⟩
  · have hmembers := (List.forall₂_and_left ms fields).2 ⟨hms, hplaced.flip⟩
    apply List.Forall₂.flip
    apply hmembers.imp
    rintro m f ⟨hm, placed, hinfer, hp⟩
    exact h.storedAs hm (hends m hm) hinfer hp
  · intro i m hm
    have hoffset := hdense.offset_eq (i := i) (p := m.placement) (by simp [hm])
    rw [hoffset, ← List.map_take, List.map_map]
    rfl

theorem Stages.nodup_fields (h : b.Stages ps s) : (b.shape.fields.map Field.name).Nodup :=
  (firstRepeated_eq_none_iff.1 h.fields).1

/-- A member with the name of a declared field supplies that field. -/
theorem Stages.binding_eq (h : b.Stages ps s) {m : Member} (hm : m ∈ s.members) {i : Nat}
    {f : Field} (hf : b.shape.fields[i]? = some f) (hname : m.name = f.name) :
    m.binding = .field i := by
  have hmem := List.mem_of_getElem? hf
  have hopen : b.shape.outline.isOpen = false := by
    have hne : b.shape.fields ≠ [] := List.ne_nil_of_mem hmem
    simp [Outline.isOpen, Shape.outline, hne]
  have hnames : (b.shape.outline.fields.map fun n => n).Nodup := by
    rw [List.map_id']
    exact h.nodup_fields
  have hindex : b.shape.outline.fields.findIdx? (· == m.name) = some i := by
    apply (findIdx?_eq_some_iff_of_nodup hnames).2
    simp [Shape.outline, hf, hname]
  rw [(h.member hm).2, Outline.bind, hopen, if_neg Bool.false_ne_true, hindex]

/-- A field whose name some member bears is supplied by that member. -/
theorem Stages.supplied (h : b.Stages ps s)
    (hall : ∀ f ∈ b.shape.fields, f.name ∈ s.members.map Member.name) :
    (∀ (i : Nat) (f : Field), b.shape.fields[i]? = some f →
      ∃ m ∈ s.members, m.name = f.name ∧ m.binding = .field i) ∧ s.coverage.fields = [] := by
  have hbound : ∀ (i : Nat) (f : Field), b.shape.fields[i]? = some f →
      ∃ m ∈ s.members, m.name = f.name ∧ m.binding = .field i := by
    intro i f hf
    obtain ⟨m, hm, hname⟩ := List.mem_map.1 (hall f (List.mem_of_getElem? hf))
    exact ⟨m, hm, hname, h.binding_eq hm hf hname⟩
  refine ⟨hbound, Schema.coverage_fields_eq_nil fun n hn => ?_⟩
  rw [h.outline] at hn
  obtain ⟨f, hf, rfl⟩ := List.mem_map.1 hn
  obtain ⟨i, hi⟩ := List.getElem?_of_mem hf
  obtain ⟨m, hm, hname, hbinding⟩ := hbound i f hi
  exact ⟨m, hm, hname, i, hbinding⟩

/-- Without stated placements the declared fields are laid out from the first byte. -/
theorem Stages.infers_alone (h : b.Stages ps s)
    (hends : ∀ m ∈ s.members, m.placement.EndsBelow (2 ^ 64)) (halone : b.placements = none) :
    b.Infers 0 b.shape.fields s.members ∧
      extentOf ps = (s.members.map fun m => m.placement.footprint).sum := by
  have hlaid := h.laidOut
  unfold layOut at hlaid
  rw [halone, ← h.placements] at hlaid
  refine ⟨h.infers hends (fun _ hm => hm) hlaid, ?_⟩
  have hsum := (dense_of_packFields hlaid).1.foldl_stop
  rw [Nat.zero_add, List.map_map, h.placements] at hsum
  exact hsum

/-- Behind stated placements the fields without one are laid out. -/
theorem Stages.infers_missing (h : b.Stages ps s)
    (hends : ∀ m ∈ s.members, m.placement.EndsBelow (2 ^ 64)) {stated : List Placement}
    (hstated : b.placements = some stated) (hmissing : b.inferMissing = true) :
    ∃ given inferred, s.members = given ++ inferred ∧ given.map Member.placement = stated ∧
      b.Infers ((stated.map Placement.stop).max?.getD 0)
        (b.shape.fields.filter fun f => f.name ∉ stated.map Placement.name) inferred := by
  have hlaid := h.laidOut
  unfold layOut at hlaid
  rw [hstated] at hlaid
  dsimp only at hlaid
  rw [if_pos hmissing] at hlaid
  rcases hpack : packFields b.settings (extentOf stated)
      (b.shape.fields.filter fun f => !stated.any fun p => p.name == f.name) with _ | later <;>
    simp only [hpack, Except.map] at hlaid
  · cases hlaid
  have hsplit : s.members.map Member.placement = stated ++ later :=
    h.placements.trans (Except.ok.inj hlaid).symm
  obtain ⟨given, inferred, hmembers, hgiven, rfl⟩ := List.map_eq_append_iff.1 hsplit
  have hfilter : (b.shape.fields.filter fun f => !stated.any fun p => p.name == f.name) =
      b.shape.fields.filter fun f => f.name ∉ stated.map Placement.name := by
    apply List.filter_congr
    intro f _
    rw [Bool.eq_iff_iff]
    simp
  rw [hfilter, extentOf_eq] at hpack
  have hinfers := h.infers hends (fun m hm => hmembers ▸ List.mem_append_right given hm) hpack
  exact ⟨given, inferred, hmembers, hgiven, hinfers⟩

/-- Where every field has a member at its own position, that member is bound to it. -/
theorem Stages.bindings_eq (h : b.Stages ps s)
    (hnames : s.members.map Member.name = b.shape.fields.map Field.name) :
    s.members.map Member.binding = (List.range b.shape.fields.length).map .field := by
  have hlength : s.members.length = b.shape.fields.length := by
    simpa using congrArg List.length hnames
  apply List.ext_getElem (by simp [hlength])
  intro i hi hi'
  simp at hi hi'
  have hname : s.members[i].name = b.shape.fields[i].name := by
    have hsame := congrArg (fun names => names[i]?) hnames
    simpa [hi, hi'] using hsame
  simpa using h.binding_eq (List.getElem_mem hi) (List.getElem?_eq_getElem hi') hname

end Blueprint

/-- **Fields are laid out densely, with the codecs of their types.**  A schema that is built from a
shape alone has one member for each declared field, in order and from the first byte; it ends with
the last of them unless a size is stated, and nothing is left out on either side.  With stated
placements the fields that have none are appended in order from the highest stated end, and no field
is left out.  The ends of the members are machine words. -/
theorem inferred_layout_dense (b : Blueprint) (s : Schema) (h : b.BuildsBelow s (2 ^ 64)) :
    (b.placements = none →
      b.Infers 0 b.shape.fields s.members ∧
      s.totalSize = b.totalSize.getD (s.members.map fun m => m.placement.footprint).sum ∧
      s.members.map Member.binding = (List.range b.shape.fields.length).map .field ∧
      s.coverage = ⟨[], []⟩) ∧
    ∀ stated, b.placements = some stated → b.inferMissing = true →
      (∃ given inferred, s.members = given ++ inferred ∧ given.map Member.placement = stated ∧
        b.Infers ((stated.map Placement.stop).max?.getD 0)
          (b.shape.fields.filter fun f => f.name ∉ stated.map Placement.name) inferred) ∧
      (∀ (i : Nat) (f : Field), b.shape.fields[i]? = some f →
        ∃ m ∈ s.members, m.name = f.name ∧ m.binding = .field i) ∧
      s.coverage.fields = [] := by
  obtain ⟨ps, hs⟩ := Blueprint.stages_of_build h.build
  refine ⟨fun halone => ?_, fun stated hstated hmissing => ?_⟩
  · obtain ⟨hinfers, hextent⟩ := hs.infers_alone h.ends halone
    have hbindings := hs.bindings_eq hinfers.names
    have hmapped : ∀ m ∈ s.members, m.isMapped = true := by
      intro m hm
      have hmem : m.binding ∈ s.members.map Member.binding := List.mem_map_of_mem hm
      rw [hbindings] at hmem
      obtain ⟨i, -, hi⟩ := List.mem_map.1 hmem
      rw [Member.isMapped, ← hi]
      rfl
    obtain ⟨-, hfields⟩ := hs.supplied fun f hf => hinfers.names ▸ List.mem_map_of_mem hf
    refine ⟨hinfers, ?_, hbindings, ?_⟩
    · rw [← hextent, extentOf_eq, ← hs.placements, List.map_map]
      exact (Blueprint.sharesOut_of_build h.build).size
    · exact congrArg₂ Coverage.mk (Schema.coverage_members_eq_nil hmapped) hfields
  · obtain ⟨given, inferred, hmembers, hgiven, hinfers⟩ := hs.infers_missing h.ends hstated hmissing
    refine ⟨⟨given, inferred, hmembers, hgiven, hinfers⟩, hs.supplied fun f hf => ?_⟩
    rw [hmembers, List.map_append, hinfers.names, List.mem_append]
    by_cases hnamed : f.name ∈ stated.map Placement.name
    · left
      rw [← hgiven, List.map_map] at hnamed
      exact hnamed
    · right
      exact List.mem_map_of_mem (List.mem_filter.2 ⟨hf, by simpa using hnamed⟩)

/-- Fields of several types, an array of numbers among them. -/
def surveyBlueprint : Blueprint where
  shape := .map [⟨"valid", .bool⟩, ⟨"cells", .array (.integer 2 false) [2, 3]⟩,
    ⟨"label", .string 7 none⟩, ⟨"remark", .varyingString (some .utf8)⟩, ⟨"taken", .timestamp none⟩]
  name := some "Survey"

/-- A text of the least length whose bytes, with the terminator, are a negative size. -/
def longTextBlueprint : Blueprint where
  shape := .map [⟨"text", .string (2 ^ 63 - 1) (some .ascii)⟩]
  name := some "LongText"

theorem inferred_layout_dense_survey :
    (∃ s, surveyBlueprint.build = .ok s ∧
      surveyBlueprint.Infers 0 surveyBlueprint.shape.fields s.members ∧
      s.members.map Member.kind = [.single (.scalar .bool), .array (.scalar (.integer false)),
        .single (.scalar (.fixedText .ascii)), .single (.scalar (.varyingText .utf8)),
        .single (.scalar (.timestamp .milliseconds))] ∧
      s.totalSize = 1 + 12 + 8 + 16 + 8 ∧ s.coverage = ⟨[], []⟩) ∧
    ∃ s, gappedBlueprint.build = .ok s ∧ s.coverage.fields = [] ∧
      ∃ given inferred, s.members = given ++ inferred ∧
        gappedBlueprint.Infers 30 [⟨"count", .integer 8 false⟩] inferred := by
  refine ⟨?_, ?_⟩
  · have hbuilds : ∃ s, surveyBlueprint.BuildsBelow s (2 ^ 64) ∧
        s.members.map Member.kind = [.single (.scalar .bool), .array (.scalar (.integer false)),
          .single (.scalar (.fixedText .ascii)), .single (.scalar (.varyingText .utf8)),
          .single (.scalar (.timestamp .milliseconds))] ∧
        s.totalSize = 1 + 12 + 8 + 16 + 8 :=
      ⟨_, ⟨by cbv, by decide, by decide⟩, rfl, rfl⟩
    obtain ⟨s, hs, hkinds, hsize⟩ := hbuilds
    obtain ⟨hinfers, -, -, hcoverage⟩ := (inferred_layout_dense surveyBlueprint s hs).1 rfl
    exact ⟨s, hs.build, hinfers, hkinds, hsize, hcoverage⟩
  · obtain ⟨s, hs⟩ : ∃ s, gappedBlueprint.BuildsBelow s (2 ^ 64) :=
      ⟨_, ⟨by cbv, by decide, by decide⟩⟩
    obtain ⟨⟨given, inferred, hmembers, -, hinfers⟩, -, hfields⟩ :=
      (inferred_layout_dense gappedBlueprint s hs).2 _ rfl rfl
    exact ⟨s, hs.build, hfields, given, inferred, hmembers, hinfers⟩

/-- **A long text is kept on a heap**, although its field calls for a text of fixed width. -/
theorem long_text_spilled : ∃ s, longTextBlueprint.build = .ok s ∧
    s.members.map Member.kind = [.single (.scalar (.varyingText .ascii))] ∧ s.totalSize = 16 ∧
    (FieldType.string (2 ^ 63 - 1) (some .ascii)).kind {} =
      .single (.scalar (.fixedText .ascii)) := by
  refine ⟨_, by cbv, ?_, ?_, ?_⟩
  · rfl
  · rfl
  · rfl

end PackedRecord
