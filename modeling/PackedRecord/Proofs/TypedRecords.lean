import PackedRecord.Proofs.InferredLayouts
import PackedRecord.Proofs.NativeFields
import PackedRecord.Proofs.StableRecords

/-!
# Typed records round trip

A typed record is written and read like the map of its fields: the codec asks for fields by name,
and every mapped member of a schema for the record is one of them.

* `Slot.fields` — a typed record as a map; `pack_eq_pack_fields` and `unpack_of_unpack_fields`
  carry the round trip of maps over to it.
* `Blueprint.member_of_slot` — a schema that is built from the shape alone has one member for each
  field, and none else, with the codec of the field.
* `Slot.OwnWidth` — native integers of the width that is declared for their field, which are
  canonical whatever their value is.
* `typed_record_roundTrips` — a typed record with canonical fields is read back from its bytes.
-/

namespace PackedRecord

/-! ## A typed record as a map -/

section Fields

variable {ρ : Type} {typeName : String} {slots : List (Slot ρ)}

namespace Slot

/-- What a record has in some slots. -/
def fields (slots : List (Slot ρ)) (t : ρ) : Fields :=
  Assoc.insertAll (slots.map fun s => (s.name, s.value t)) []

theorem get?_fields (hn : (slots.map name).Nodup) {s : Slot ρ} (hs : s ∈ slots) (t : ρ) :
    Assoc.get? s.name (fields slots t) = some (s.value t) := by
  refine Assoc.get?_insertAll_of_mem ?_ (List.mem_map_of_mem hs)
  rw [List.map_map]
  exact hn

theorem get?_fields_of_notMem {key : String} (h : key ∉ slots.map name) (t : ρ) :
    Assoc.get? key (fields slots t) = none := by
  refine (Assoc.get?_insertAll_of_notMem ?_).trans rfl
  rw [List.map_map]
  exact h

end Slot

variable [Reflected ρ] (hd : Reflected.descriptor = Descriptor.ofSlots typeName slots)
  (hn : (slots.map Slot.name).Nodup)

include hd hn

/-- A typed record has under a name, at any position, what its map has there. -/
theorem field?_eq (t : ρ) :
    RecordAccess.field? t = fun name _ => Assoc.get? name (Slot.fields slots t) := by
  funext name position
  change Reflected.descriptor.get? t name = _
  rw [hd]
  by_cases hname : name ∈ slots.map Slot.name
  · obtain ⟨s, hs, rfl⟩ := List.mem_map.1 hname
    rw [Descriptor.get?_ofSlots hn hs, Slot.get?_fields hn hs]
  · rw [Descriptor.get?_ofSlots_of_notMem hname, Slot.get?_fields_of_notMem hname]

/-- **A typed record is written like its map.** -/
theorem pack_eq_pack_fields {σ : Type} [Heap σ] (s : Schema) (t : ρ) :
    s.pack (σ := σ) t = s.pack (Slot.fields slots t) := by
  funext heap
  rw [Schema.pack, field?_eq hd hn]
  rfl

end Fields

/-! ## Readings of a map -/

/-- Filling a map leaves the names alone that are not read. -/
theorem get?_fill_of_notMem {name : String} : ∀ {readings : List Reading} {acc r : Fields},
    fill readings acc = .ok r → name ∉ readings.map Reading.name →
    Assoc.get? name r = Assoc.get? name acc
  | [], acc, r, h, _ => by
    cases h
    rfl
  | ⟨key, position, result⟩ :: rest, acc, r, h, hname => by
    rw [List.map_cons, List.mem_cons, not_or] at hname
    cases result with
    | error e => cases h
    | ok v =>
      have hrest : fill rest (Assoc.insert key v acc) = .ok r := h
      rw [get?_fill_of_notMem hrest hname.2, Assoc.get?_insert_of_ne hname.1]

/-- A filled map has the value of each reading, of readings under distinct names. -/
theorem get?_fill_of_mem : ∀ {readings : List Reading} {acc r : Fields},
    fill readings acc = .ok r → (readings.map Reading.name).Nodup →
    ∀ x ∈ readings, ∃ v, x.value = .ok v ∧ Assoc.get? x.name r = some v
  | [], _, _, _, _ => fun x hx => absurd hx List.not_mem_nil
  | ⟨key, position, result⟩ :: rest, acc, r, h, hnames => by
    obtain ⟨hkey, hlater⟩ := List.nodup_cons.1 hnames
    cases result with
    | error e => cases h
    | ok v =>
      have hrest : fill rest (Assoc.insert key v acc) = .ok r := h
      refine List.forall_mem_cons.2 ⟨⟨v, rfl, ?_⟩, get?_fill_of_mem hrest hlater⟩
      rw [get?_fill_of_notMem hrest hkey, Assoc.get?_insert_self]

theorem names_readMembers {σ : Type} [Heap σ] (positional : Bool) (order : ByteOrder)
    (buffer : Bytes) (heap : Option σ) (ms : List Member) (position : Nat) :
    (readMembers positional order buffer heap ms position).map Reading.name =
      (ms.filter (Member.isRead positional)).map Member.name := by
  induction ms generalizing position with
  | nil => rfl
  | cons m rest ih =>
    obtain ⟨p, kind, binding⟩ := m
    rw [readMembers, List.filter_cons, Member.isRead, Member.isMapped]
    cases binding.isBound with
    | true => exact congrArg (p.name :: ·) (ih (position + 1))
    | false =>
      cases positional with
      | true => exact congrArg (p.name :: ·) (ih (position + 1))
      | false => exact ih (position + 1)

/-- **A typed record is read where its map is read**, if its fields take back what they give. -/
theorem unpack_of_unpack_fields {σ ρ : Type} [Heap σ] [Reflected ρ] {typeName : String}
    {slots : List (Slot ρ)} (hd : Reflected.descriptor = Descriptor.ofSlots typeName slots)
    (hn : (slots.map Slot.name).Nodup) (hf : Slot.Faithful slots) {t : ρ}
    (htaken : ∀ slot ∈ slots, Native.ofValue (slot.value t) = .ok (slot.get t)) {s : Schema}
    (hs : (s.members.map Member.name).Nodup) {bytes : Bytes} {heap : Option σ}
    (h : s.unpack Fields bytes heap = .ok (Slot.fields slots t)) :
    s.unpack ρ bytes heap = .ok t := by
  by_cases hlen : bytes.length = s.totalSize
  swap
  · rw [Schema.unpack_of_ne hlen] at h
    cases h
  rw [s.unpack_eq hlen] at h
  rw [Schema.unpack, Schema.readings_eq, if_pos hlen]
  have hnames : ((readMembers s.isPositional s.settings.byteOrder bytes heap s.members 0).map
      Reading.name).Nodup := by
    rw [names_readMembers]
    exact (List.filter_sublist.map _).nodup hs
  -- What is read has a value in the map, so that its name is a slot's; each slot has one there,
  -- so that it is read.
  refine fill_eq_of_slots hd hn hf (fun x hx => ?_) (fun slot hslot => ?_) _
  · obtain ⟨v, hv, hget⟩ := get?_fill_of_mem h hnames x hx
    have hname : x.name ∈ slots.map Slot.name := by
      by_contra hnot
      rw [Slot.get?_fields_of_notMem hnot] at hget
      cases hget
    obtain ⟨slot, hslot, hsame⟩ := List.mem_map.1 hname
    rw [← hsame, Slot.get?_fields hn hslot] at hget
    cases hget
    exact ⟨slot, hslot, hsame, hv, htaken slot hslot⟩
  · by_contra hnot
    have hget := get?_fill_of_notMem h hnot
    rw [Slot.get?_fields hn hslot] at hget
    cases hget

/-! ## Schemas of a shape alone -/

section Shaped

variable {ρ : Type} {typeName : String} {slots : List (Slot ρ)} {b : Blueprint} {s : Schema}
  (hshape : b.shape = .reflected typeName (slots.map Slot.field)) (hb : b.build = .ok s)

include hshape hb

theorem Blueprint.nodup_slots : (slots.map Slot.name).Nodup := by
  obtain ⟨ps, hstages⟩ := stages_of_build hb
  have hfields := hstages.nodup_fields
  rw [hshape] at hfields
  change ((slots.map Slot.field).map Field.name).Nodup at hfields
  rwa [List.map_map] at hfields

/-- The members that are mapped are those with the name of a slot. -/
theorem Blueprint.isMapped_iff {m : Member} (hm : m ∈ s.members) :
    m.isMapped = true ↔ m.name ∈ slots.map Slot.name := by
  obtain ⟨hl, houtline, -⟩ := laidOut_of_build hb
  have hopen : s.outline.isOpen = false := by
    rw [houtline, hshape]
    rfl
  have hfields : s.outline.fields = slots.map Slot.name := by
    rw [houtline, hshape]
    change (slots.map Slot.field).map Field.name = _
    rw [List.map_map]
    rfl
  rw [Member.isMapped, hl.bound m hm, Outline.bind, if_neg (by simp [hopen]), ← hfields]
  rcases hi : s.outline.fields.findIdx? (· == m.name) with _ | i
  · have hnone := List.findIdx?_eq_none_iff.1 hi
    refine ⟨fun hbound => ?_, fun hmem => ?_⟩
    · cases hbound
    · exact absurd (hnone _ hmem) (by simp)
  · obtain ⟨hlt, hname, -⟩ := List.findIdx?_eq_some_iff_getElem.1 hi
    exact ⟨fun _ => List.mem_of_getElem (eq_of_beq hname), fun _ => rfl⟩

theorem Blueprint.isPositional_of_reflected : s.isPositional = false := by
  rw [Schema.isPositional, (laidOut_of_build hb).2.1, hshape]
  rfl

/-- **Built from the shape alone, a schema has one member for each slot and none else**, which
without overrides stores the declared field. -/
theorem Blueprint.member_of_slot (hsize : s.totalSize < 2 ^ 63) (halone : b.placements = none) :
    s.members.map Member.name = slots.map Slot.name ∧
    ∀ slot ∈ slots, ∃ m ∈ s.members, m.name = slot.name ∧ (b.rules = {} →
      slot.field.type.StoredAs b.settings m.kind m.placement.footprint) := by
  obtain ⟨ps, hstages⟩ := stages_of_build hb
  obtain ⟨hl, -, -⟩ := laidOut_of_build hb
  have hends : ∀ m ∈ s.members, m.placement.EndsBelow (2 ^ 64) := fun m hm =>
    (hl.checked m hm).endsBelow ((hl.within m hm).trans_lt hsize)
  obtain ⟨hinfers, -⟩ := hstages.infers_alone hends halone
  rw [hshape] at hinfers
  refine ⟨?_, fun slot hslot => hinfers.exists_member (List.mem_map_of_mem hslot)⟩
  rw [hinfers.names]
  exact List.map_map

end Shaped

/-! ## Canonical fields -/

theorem Kind.Canonical.isNaN_eq_false {p : Placement} {kind : Kind} {x : Double}
    (h : kind.Canonical p (.number (.float x))) : x.isNaN = false := by
  cases kind with
  | array element =>
    obtain ⟨elements, hvalue, -⟩ := h
    cases hvalue
  | single element =>
    cases element with
    | record t =>
      obtain ⟨entries, hvalue, -⟩ := h
      cases hvalue
    | scalar codec =>
      cases codec with
      | float =>
        obtain ⟨y, hvalue, hnumber, -⟩ := h
        cases hvalue
        exact hnumber
      | integer signed => cases signed <;> obtain ⟨i, hvalue, -⟩ := h <;> cases hvalue
      | varyingText charset => obtain hvalue | ⟨text, hvalue, -⟩ := h <;> cases hvalue
      | varyingBytes => obtain hvalue | ⟨content, hvalue, -⟩ := h <;> cases hvalue
      | enumeration table =>
        obtain ⟨-, c, code, hvalue, -⟩ := h
        cases hvalue
      | timestamp unit =>
        obtain ⟨count, -, ⟨t, hvalue, -⟩ | ⟨hvalue, -⟩⟩ := h <;> cases hvalue
      | bool =>
        obtain ⟨flag, hvalue⟩ := h
        cases hvalue
      | fixedText | bitField | duration | raw =>
        obtain ⟨a, hvalue, -⟩ := h
        cases hvalue

namespace Slot

variable {ρ : Type} {slots : List (Slot ρ)} {s : Schema} {t : ρ}

/-- The value a record has in the slot is canonical for the member of that name. -/
def CanonicalIn (slot : Slot ρ) (s : Schema) (t : ρ) : Prop :=
  ∃ m ∈ s.members, m.name = slot.name ∧ m.kind.Canonical m.placement (slot.value t)

/-- A slot takes back the canonical value it gives. -/
theorem CanonicalIn.taken {slot : Slot ρ} (h : slot.CanonicalIn s t) :
    Native.ofValue (slot.value t) = .ok (slot.get t) := by
  obtain ⟨m, -, -, hcanonical⟩ := h
  refine LawfulNative.ofValue_toValue _ fun x hx => ?_
  have hvalue : slot.value t = .number (.float x) := hx
  rw [hvalue] at hcanonical
  exact hcanonical.isNaN_eq_false

/-- **A typed record with canonical fields is a canonical map.** -/
theorem canonical_fields {typeName : String} {b : Blueprint}
    (hshape : b.shape = .reflected typeName (slots.map field)) (hb : b.build = .ok s)
    (hc : ∀ slot ∈ slots, slot.CanonicalIn s t) : s.Canonical (fields slots t) := by
  have hl := (Blueprint.laidOut_of_build hb).1
  have hn := Blueprint.nodup_slots hshape hb
  refine Schema.canonical_iff.2
    ⟨Assoc.ascending_insertAll Assoc.ascending_nil, fun key hkey => ?_, fun m hm => ?_⟩
  · have hname : key ∈ slots.map name := by
      by_contra hnot
      have hsome := Assoc.isSome_get?_iff.2 hkey
      rw [get?_fields_of_notMem hnot] at hsome
      cases hsome
    obtain ⟨slot, hslot, rfl⟩ := List.mem_map.1 hname
    obtain ⟨m, hm, hsame, -⟩ := hc slot hslot
    have hmapped := (Blueprint.isMapped_iff hshape hb hm).2 (hsame ▸ hname)
    exact ⟨m, hm, by rw [Member.isRead, hmapped, Bool.true_or], hsame⟩
  · split
    · rename_i hmapped
      obtain ⟨slot, hslot, hname⟩ :=
        List.mem_map.1 ((Blueprint.isMapped_iff hshape hb hm).1 hmapped)
      obtain ⟨m', hm', hsame, hcanonical⟩ := hc slot hslot
      obtain rfl := List.inj_on_of_nodup_map hl.names hm' hm (hsame.trans hname)
      exact ⟨slot.value t, hname ▸ get?_fields hn hslot t, hcanonical⟩
    · intro hpositional
      rw [Blueprint.isPositional_of_reflected hshape hb] at hpositional
      cases hpositional

/-! ## Integers of their field's width -/

/-- The slot holds a native integer of the width and the sign that its field declares. -/
inductive OwnWidth : Slot ρ → Prop
  | int8 (name : String) (get : ρ → Int8) (set : ρ → Int8 → ρ) :
    OwnWidth (.declared name (.integer 1 true) get set)
  | int16 (name : String) (get : ρ → Int16) (set : ρ → Int16 → ρ) :
    OwnWidth (.declared name (.integer 2 true) get set)
  | int32 (name : String) (get : ρ → Int32) (set : ρ → Int32 → ρ) :
    OwnWidth (.declared name (.integer 4 true) get set)
  | int64 (name : String) (get : ρ → Int64) (set : ρ → Int64 → ρ) :
    OwnWidth (.declared name (.integer 8 true) get set)
  | uint8 (name : String) (get : ρ → UInt8) (set : ρ → UInt8 → ρ) :
    OwnWidth (.declared name (.integer 1 false) get set)
  | uint16 (name : String) (get : ρ → UInt16) (set : ρ → UInt16 → ρ) :
    OwnWidth (.declared name (.integer 2 false) get set)
  | uint32 (name : String) (get : ρ → UInt32) (set : ρ → UInt32 → ρ) :
    OwnWidth (.declared name (.integer 4 false) get set)
  | uint64 (name : String) (get : ρ → UInt64) (set : ρ → UInt64 → ρ) :
    OwnWidth (.declared name (.integer 8 false) get set)

/-- Whatever such an integer is, it is canonical. -/
theorem OwnWidth.exists_integer {slot : Slot ρ} (h : slot.OwnWidth) : ∃ width signed,
    slot.field.type = .integer width signed ∧
      ∀ t : ρ, (Scalar.integer signed).Canonical width (slot.value t) := by
  have hsigned : ∀ {width : Nat} {i : Int}, width ≤ 8 → Word.FitsSigned width i →
      (Scalar.integer true).Canonical width (.number (.int (Int64.ofInt i))) :=
    fun hw hi => ⟨_, rfl, (hi.toInt_ofInt hw).symm ▸ hi⟩
  have hunsigned : ∀ {width n : Nat}, width ≤ 8 → Word.FitsUnsigned width n →
      (Scalar.integer false).Canonical width (.number (.nat (UInt64.ofNat n))) :=
    fun hw hfits => ⟨_, rfl, (hfits.toNat_ofNat hw).symm ▸ hfits⟩
  cases h with
  | int8 name get set =>
    exact ⟨1, true, rfl, fun t => hsigned (by decide) (Word.fitsSigned_int8 _)⟩
  | int16 name get set =>
    exact ⟨2, true, rfl, fun t => hsigned (by decide) (Word.fitsSigned_int16 _)⟩
  | int32 name get set =>
    exact ⟨4, true, rfl, fun t => hsigned (by decide) (Word.fitsSigned_int32 _)⟩
  | int64 name get set =>
    exact ⟨8, true, rfl, fun t => ⟨get t, rfl, Word.fitsSigned_int64 _⟩⟩
  | uint8 name get set =>
    exact ⟨1, false, rfl, fun t => hunsigned (by decide) (Word.fitsUnsigned_uint8 _)⟩
  | uint16 name get set =>
    exact ⟨2, false, rfl, fun t => hunsigned (by decide) (Word.fitsUnsigned_uint16 _)⟩
  | uint32 name get set =>
    exact ⟨4, false, rfl, fun t => hunsigned (by decide) (Word.fitsUnsigned_uint32 _)⟩
  | uint64 name get set =>
    exact ⟨8, false, rfl, fun t => ⟨get t, rfl, Word.fitsUnsigned_uint64 _⟩⟩

end Slot

/-- **Native integers of their field's own width are canonical.** -/
theorem Slot.OwnWidth.canonicalIn {ρ : Type} {typeName : String} {slots : List (Slot ρ)}
    {b : Blueprint} {s : Schema} (hshape : b.shape = .reflected typeName (slots.map Slot.field))
    (hb : b.build = .ok s) (hsize : s.totalSize < 2 ^ 63) (halone : b.placements = none)
    (hrules : b.rules = {}) {slot : Slot ρ} (hslot : slot ∈ slots) (h : slot.OwnWidth) (t : ρ) :
    slot.CanonicalIn s t := by
  obtain ⟨width, signed, htype, hcanonical⟩ := h.exists_integer
  obtain ⟨-, hmembers⟩ := Blueprint.member_of_slot hshape hb hsize halone
  obtain ⟨m, hm, hname, hstored⟩ := hmembers slot hslot
  obtain ⟨hdeclared, -⟩ := hstored hrules
  rw [htype] at hdeclared
  obtain ⟨hkind, hfootprint⟩ := hdeclared rfl
  have hwidth : (FieldType.integer width signed).width b.settings = width := Nat.mul_one width
  rw [hwidth] at hfootprint
  refine ⟨m, hm, hname, ?_⟩
  rw [hkind]
  change (Scalar.integer signed).Canonical m.placement.footprint (slot.value t)
  rw [hfootprint]
  exact hcanonical t

/-! ## The round trip -/

open LawfulHeap

/-- Without members of variable length a canonical map is written and read alike with every heap
and with none. -/
theorem Schema.Built.roundTrips_of_fixed {σ : Type} [Heap σ] [LawfulHeap σ] {s : Schema}
    (hs : s.Built) (hf : s.Fits) (hfixed : s.FixedLength) (hsize : s.totalSize < 2 ^ 63)
    {r : Fields} (hr : s.Canonical r) {heap : σ} (hsound : Sound heap)
    (haddr : LawfulHeap.Addressable heap) :
    ∃ bytes, bytes.length = s.totalSize ∧ ∀ any : Option σ,
      s.pack r any = (.ok bytes, any) ∧ s.unpack Fields bytes any = .ok r := by
  obtain ⟨bytes, heap', hpack⟩ := hs.written_of_fits (σ := σ) hf r hr heap
  obtain ⟨result, hresult⟩ := hs.detached (σ := σ) hfixed s.totalSize
    fun name _ => Assoc.get? name r
  -- The heap is handed on as it came, so that what is read later is read from it.
  obtain ⟨rfl, hsame⟩ := Prod.mk.inj ((hresult (some heap)).symm.trans hpack)
  obtain rfl := Option.some.inj hsame
  obtain ⟨_, hafter, -, -, hlen, hread⟩ :=
    hs.restored (σ := σ) s.totalSize r hsize hr heap bytes _ hsound hpack
  obtain rfl := Option.some.inj hafter
  refine ⟨bytes, hlen, fun any => ⟨hresult any, ?_⟩⟩
  rw [unpack, hs.readings_eq_of_fixed hfixed any (some heap)]
  exact hread heap (extends_refl heap) haddr

/-- **Typed records with canonical fields round trip.**  The fields are addressed by name, whatever
the position of the member is, so that a schema for the record may lay them out in any order.  Built
from the shape alone, it has one member for each of them, and integers of the width of their field
are canonical whatever they are.  The bound on the size is that of a buffer, so that the exact sums
and products of sizes are those of machine words. -/
theorem typed_record_roundTrips {ρ : Type} [Reflected ρ] {typeName : String}
    {slots : List (Slot ρ)} (hd : Reflected.descriptor = Descriptor.ofSlots typeName slots)
    (hf : Slot.Faithful slots) {b : Blueprint}
    (hshape : b.shape = (Reflected.descriptor (ρ := ρ)).shape) {s : Schema}
    (hb : b.build = .ok s) (hs : s.Built) (hsize : s.totalSize < 2 ^ 63) (t : ρ) :
    (∀ slot ∈ slots, ∀ position : Nat,
      RecordAccess.field? t slot.name position = some (slot.value t) ∧
      ∀ v : Value, RecordAccess.setField t slot.name position v =
        (slot.store t v).mapError (Error.forMember slot.name)) ∧
    (b.placements = none → s.members.map Member.name = slots.map Slot.name ∧
      (b.rules = {} → ∀ slot ∈ slots, slot.OwnWidth → slot.CanonicalIn s t)) ∧
    ((∀ slot ∈ slots, slot.CanonicalIn s t) →
      (∀ slot ∈ slots, Native.ofValue (slot.value t) = .ok (slot.get t)) ∧
      (∀ (store : TransientStore) bytes after, s.pack t (some store) = (.ok bytes, after) →
        ∃ store', after = some store' ∧ bytes.length = s.totalSize ∧
          ∀ later : TransientStore, store'.heap <+: later.heap → later.Addressable →
            s.unpack ρ bytes (some later) = .ok t) ∧
      (s.Fits → (∀ store : TransientStore, ∃ bytes store',
          s.pack t (some store) = (.ok bytes, some store')) ∧
        (s.FixedLength → ∃ bytes, bytes.length = s.totalSize ∧
          ∀ store : Option TransientStore, s.pack t store = (.ok bytes, store) ∧
            s.unpack ρ bytes store = .ok t))) ∧
    (s.BuiltPlainly → s.Fits) := by
  rw [hd, Descriptor.shape_ofSlots] at hshape
  have hn := Blueprint.nodup_slots hshape hb
  have hnames := (Blueprint.laidOut_of_build hb).1.names
  refine ⟨fun slot hslot position => ⟨?_, fun v => ?_⟩, fun halone => ⟨?_, ?_⟩, fun hc => ?_,
    fun hplain => hplain.fits⟩
  · rw [field?_eq hd hn]
    exact Slot.get?_fields hn hslot t
  · change Reflected.descriptor.set t slot.name v = _
    rw [hd, Descriptor.set_ofSlots hn hslot]
  · exact (Blueprint.member_of_slot hshape hb hsize halone).1
  · exact fun hrules slot hslot hown => hown.canonicalIn hshape hb hsize halone hrules hslot t
  · have htaken := fun slot hslot => (hc slot hslot).taken
    have hcanonical := Slot.canonical_fields hshape hb hc
    have hunpack : ∀ {bytes : Bytes} {store : Option TransientStore},
        s.unpack Fields bytes store = .ok (Slot.fields slots t) → s.unpack ρ bytes store = .ok t :=
      unpack_of_unpack_fields hd hn hf htaken hnames
    rw [pack_eq_pack_fields hd hn]
    refine ⟨htaken, fun store bytes after hpack => ?_, fun hfits => ⟨fun store => ?_, ?_⟩⟩
    · obtain ⟨store', hafter, -, -, hlen, hread⟩ :=
        hs.restored s.totalSize _ hsize hcanonical store bytes after trivial hpack
      exact ⟨store', hafter, hlen, fun later hlater haddr => hunpack (hread later hlater haddr)⟩
    · exact hs.written_of_fits hfits _ hcanonical store
    · intro hfixed
      obtain ⟨bytes, hlen, hboth⟩ := hs.roundTrips_of_fixed hfits hfixed hsize hcanonical
        (show Sound ({} : TransientStore) from trivial) (Nat.zero_le _)
      exact ⟨bytes, hlen, fun store => ⟨(hboth store).1, hunpack (hboth store).2⟩⟩

/-! ## A record of three fields -/

/-- A numbered sample with a label and the time it was taken. -/
structure Sample where
  id : Int32
  label : String
  taken : Time.Instant

def sampleSlots : List (Slot Sample) :=
  [.declared "id" (.integer 4 true) Sample.id fun r id => { r with id },
    .declared "label" (.string 7 none) Sample.label fun r label => { r with label },
    .declared "taken" (.timestamp none) Sample.taken fun r taken => { r with taken }]

instance : Reflected Sample where
  descriptor := .ofSlots "Sample" sampleSlots
  initial := ⟨0, "", .epoch⟩

theorem faithful_sampleSlots : Slot.Faithful sampleSlots where
  get_set := by
    simp only [sampleSlots, List.forall_mem_cons]
    exact ⟨fun _ _ => rfl, fun _ _ => rfl, fun _ _ => rfl, fun _ h => (nomatch h)⟩
  get_set_of_ne := by
    simp only [sampleSlots, List.forall_mem_cons, List.not_mem_nil, false_imp_iff, implies_true,
      and_true]
    exact ⟨⟨fun h => absurd rfl h, fun _ _ _ => rfl, fun _ _ _ => rfl⟩,
      ⟨fun _ _ _ => rfl, fun h => absurd rfl h, fun _ _ _ => rfl⟩,
      ⟨fun _ _ _ => rfl, fun _ _ _ => rfl, fun h => absurd rfl h⟩⟩
  ext := by
    rintro ⟨id, label, taken⟩ ⟨id', label', taken'⟩ h
    simp only [sampleSlots, List.forall_mem_cons] at h
    obtain ⟨hid, hlabel, htaken, -⟩ := h
    congr

def sampleSchema : Schema :=
  ⟨"Sample", [⟨.integer "id" 0 4, .single (.scalar (.integer true)), .field 0⟩,
      ⟨.string "label" 4 8, .single (.scalar (.fixedText .ascii)), .field 1⟩,
      ⟨.timestamp "taken" 12 .milliseconds, .single (.scalar (.timestamp .milliseconds)),
        .field 2⟩],
    (Reflected.descriptor (ρ := Sample)).shape.outline, 20, {}⟩

theorem build_sampleSchema :
    ({ shape := (Reflected.descriptor (ρ := Sample)).shape } : Blueprint).build =
      .ok sampleSchema := by cbv

theorem hereditarily_sampleSchema {P : Schema → Prop} (h : P sampleSchema) :
    sampleSchema.Hereditarily P := by
  refine .intro h fun m hm t ht => ?_
  simp only [sampleSchema, List.mem_cons, List.not_mem_nil, or_false] at hm
  rcases hm with rfl | rfl | rfl <;> cases ht

/-- A sample with a negative number, taken a second after the epoch. -/
def lateSample : Sample := ⟨-12, "launch", ⟨1, 0⟩⟩

theorem typed_sample_roundTrips :
    (Reflected.descriptor (ρ := Sample)) = .ofSlots "Sample" sampleSlots ∧
    Slot.Faithful sampleSlots ∧ sampleSchema.BuiltPlainly ∧ sampleSchema.FixedLength ∧
    sampleSchema.totalSize < 2 ^ 63 ∧
    (∀ slot ∈ sampleSlots, slot.CanonicalIn sampleSchema lateSample) ∧
    ∃ bytes, sampleSchema.pack lateSample (none : Option TransientStore) = (.ok bytes, none) ∧
      sampleSchema.unpack Sample bytes (none : Option TransientStore) = .ok lateSample := by
  have hplain : sampleSchema.BuiltPlainly :=
    hereditarily_sampleSchema ⟨_, rfl, build_sampleSchema⟩
  have hfixed : sampleSchema.FixedLength := hereditarily_sampleSchema (by decide)
  have hsize : sampleSchema.totalSize < 2 ^ 63 := by decide
  obtain ⟨-, halone, hround, hfits⟩ := typed_record_roundTrips rfl faithful_sampleSlots rfl
    build_sampleSchema hplain.built hsize lateSample
  have hcanonical : ∀ slot ∈ sampleSlots, slot.CanonicalIn sampleSchema lateSample := by
    have hid := (halone rfl).2 rfl _ List.mem_cons_self (.int32 _ _ _)
    refine List.forall_mem_cons.2 ⟨hid, ?_⟩
    simp only [List.forall_mem_cons]
    refine ⟨⟨_, List.mem_cons_of_mem _ List.mem_cons_self, rfl, ?_⟩,
      ⟨_, List.mem_cons_of_mem _ (List.mem_cons_of_mem _ List.mem_cons_self), rfl, ?_⟩,
      fun _ h => (nomatch h)⟩
    · exact ⟨"launch", rfl, by decide, fun _ => by decide, by decide⟩
    · exact ⟨1000, by decide, .inl ⟨⟨1, 0⟩, rfl, ⟨by decide, by decide, by decide⟩, by decide⟩⟩
  obtain ⟨-, -, hwrites⟩ := hround hcanonical
  obtain ⟨bytes, -, hboth⟩ := (hwrites (hfits hplain)).2 hfixed
  exact ⟨rfl, faithful_sampleSlots, hplain, hfixed, hsize, hcanonical, bytes,
    hboth none⟩

end PackedRecord
