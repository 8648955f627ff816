import PackedRecord.Codec.Record
import PackedRecord.Proofs.Rounding
import PackedRecord.Proofs.ScalarRoundTrip

/-!
# Fields of typed records

A typed record gives out each field as a dynamic value and takes it back as one.

* `LawfulNative` — what a native type gives out it takes back; all native types obey it.
* `Slot` — a declared field with its native type; `Descriptor.ofSlots` declares some of them.
* `Slot.Faithful` — the slots are the fields of a record: each holds what was stored in it, and
  together they make up the record.
* `fill_eq_of_slots` — a record that receives the values of all slots of another one becomes that
  record.
-/

namespace PackedRecord

/-! ## Native types -/

/-- A native type takes back the values it gives out.  Doubles that are no number are left out,
since a single loses their payload. -/
class LawfulNative (α : Type) [Native α] : Prop where
  ofValue_toValue (a : α)
    (h : ∀ x : Double, Native.toValue a = .number (.float x) → x.isNaN = false) :
    Native.ofValue (Native.toValue a) = .ok a

namespace Native

/-- A signed number in range is taken back. -/
theorem map_takeSigned (expected : String) {α : Type} {ofInt : Int → α} {a : α} {width : Nat}
    {i : Int} (hw : width ≤ 8) (h : Word.FitsSigned width i) (hback : ofInt i = a) :
    (takeSigned expected width (.number (.int (Int64.ofInt i)))).map ofInt = .ok a := by
  have htaken : takeSigned expected width (.number (.int (Int64.ofInt i))) =
      if Word.FitsSigned width (Int64.ofInt i).toInt then .ok (Int64.ofInt i).toInt
      else .error (.outOfRange "" width) := rfl
  rw [htaken, h.toInt_ofInt hw, if_pos h, Except.map, hback]

/-- An unsigned number in range is taken back. -/
theorem map_takeUnsigned (expected : String) {α : Type} {ofNat : Nat → α} {a : α} {width n : Nat}
    (hw : width ≤ 8) (h : Word.FitsUnsigned width n) (hback : ofNat n = a) :
    (takeUnsigned expected width (.number (.nat (UInt64.ofNat n)))).map ofNat = .ok a := by
  have htaken : takeUnsigned expected width (.number (.nat (UInt64.ofNat n))) =
      if Word.FitsUnsigned width (UInt64.ofNat n).toNat then .ok (UInt64.ofNat n).toNat
      else .error (.outOfRange "" width) := rfl
  rw [htaken, h.toNat_ofNat hw, if_pos h, Except.map, hback]

end Native

theorem Word.fitsSigned_int8 (i : Int8) : Word.FitsSigned 1 i.toInt := by
  have hl := i.le_toInt
  have hu := i.toInt_lt
  constructor <;> omega

theorem Word.fitsSigned_int16 (i : Int16) : Word.FitsSigned 2 i.toInt := by
  have hl := i.le_toInt
  have hu := i.toInt_lt
  constructor <;> omega

theorem Word.fitsSigned_int32 (i : Int32) : Word.FitsSigned 4 i.toInt := by
  have hl := i.le_toInt
  have hu := i.toInt_lt
  constructor <;> omega

theorem Word.fitsSigned_int64 (i : Int64) : Word.FitsSigned 8 i.toInt := by
  have hl := i.le_toInt
  have hu := i.toInt_lt
  constructor <;> omega

theorem Word.fitsUnsigned_uint8 (n : UInt8) : Word.FitsUnsigned 1 n.toNat := n.toNat_lt

theorem Word.fitsUnsigned_uint16 (n : UInt16) : Word.FitsUnsigned 2 n.toNat := n.toNat_lt

theorem Word.fitsUnsigned_uint32 (n : UInt32) : Word.FitsUnsigned 4 n.toNat := n.toNat_lt

theorem Word.fitsUnsigned_uint64 (n : UInt64) : Word.FitsUnsigned 8 n.toNat := n.toNat_lt

instance : LawfulNative Int8 where
  ofValue_toValue i _ :=
    Native.map_takeSigned "i8" (by decide) (Word.fitsSigned_int8 i) (Int8.ofInt_toInt i)

instance : LawfulNative Int16 where
  ofValue_toValue i _ :=
    Native.map_takeSigned "i16" (by decide) (Word.fitsSigned_int16 i) (Int16.ofInt_toInt i)

instance : LawfulNative Int32 where
  ofValue_toValue i _ :=
    Native.map_takeSigned "i32" (by decide) (Word.fitsSigned_int32 i) (Int32.ofInt_toInt i)

instance : LawfulNative Int64 where
  ofValue_toValue i _ := by
    have h := Native.map_takeSigned "i64" (by decide) (Word.fitsSigned_int64 i)
      (Int64.ofInt_toInt i)
    rwa [Int64.ofInt_toInt] at h

instance : LawfulNative UInt8 where
  ofValue_toValue n _ :=
    Native.map_takeUnsigned "u8" (by decide) (Word.fitsUnsigned_uint8 n) UInt8.ofNat_toNat

instance : LawfulNative UInt16 where
  ofValue_toValue n _ :=
    Native.map_takeUnsigned "u16" (by decide) (Word.fitsUnsigned_uint16 n) UInt16.ofNat_toNat

instance : LawfulNative UInt32 where
  ofValue_toValue n _ :=
    Native.map_takeUnsigned "u32" (by decide) (Word.fitsUnsigned_uint32 n) UInt32.ofNat_toNat

instance : LawfulNative UInt64 where
  ofValue_toValue n _ := by
    have h := Native.map_takeUnsigned "u64" (by decide) (Word.fitsUnsigned_uint64 n)
      UInt64.ofNat_toNat
    rwa [UInt64.ofNat_toNat] at h

instance : LawfulNative Double where
  ofValue_toValue _ _ := rfl

instance : LawfulNative Single where
  ofValue_toValue x h := by
    have hnumber := h (.ofSingle x.bits) rfl
    change Except.ok (Single.mk (Double.ofSingle x.bits).toSingle) = _
    rw [Double.toSingle_ofSingle hnumber]

instance : LawfulNative Bool where
  ofValue_toValue _ _ := rfl

instance : LawfulNative String where
  ofValue_toValue _ _ := rfl

instance : LawfulNative Time.Instant where
  ofValue_toValue _ _ := rfl

instance : LawfulNative Time.Span where
  ofValue_toValue _ _ := rfl

instance : LawfulNative Choice where
  ofValue_toValue _ _ := rfl

instance : LawfulNative Grid where
  ofValue_toValue _ _ := rfl

instance : LawfulNative Fields where
  ofValue_toValue _ _ := rfl

/-! ## Slots -/

/-- A declared field of a typed record: its native type, and how it is read and stored. -/
structure Slot (ρ : Type) where
  field : Field
  Carrier : Type
  [native : Native Carrier]
  [lawful : LawfulNative Carrier]
  get : ρ → Carrier
  set : ρ → Carrier → ρ

attribute [instance] Slot.native Slot.lawful

namespace Slot

variable {ρ : Type}

/-- The slot of a declared field. -/
def declared {α : Type} [Native α] [LawfulNative α] (name : String) (type : FieldType)
    (get : ρ → α) (set : ρ → α → ρ) : Slot ρ where
  field := ⟨name, type⟩
  Carrier := α
  get := get
  set := set

def name (s : Slot ρ) : String := s.field.name

/-- The value a record has in the slot. -/
def value (s : Slot ρ) (r : ρ) : Value := Native.toValue (s.get r)

/-- The record with a value in the slot, if its native type takes the value. -/
def store (s : Slot ρ) (r : ρ) (v : Value) : Except Error ρ := (Native.ofValue v).map (s.set r)

def accessor (s : Slot ρ) : Accessor ρ := ⟨s.field, s.value, s.store⟩

/-- The slots are the fields of a record: what was stored in one is there, whatever is stored in
others, and there is nothing else in the record. -/
structure Faithful (slots : List (Slot ρ)) : Prop where
  get_set : ∀ s ∈ slots, ∀ r a, s.get (s.set r a) = a
  get_set_of_ne : ∀ s ∈ slots, ∀ s' ∈ slots, s.name ≠ s'.name →
    ∀ r a, s'.get (s.set r a) = s'.get r
  ext : ∀ r r', (∀ s ∈ slots, s.get r = s.get r') → r = r'

end Slot

namespace Descriptor

variable {ρ : Type} {slots : List (Slot ρ)}

/-- Declare some slots one behind the other. -/
def ofSlots (typeName : String) (slots : List (Slot ρ)) : Descriptor ρ :=
  slots.foldl (fun d s => d.field s.field.name s.field.type s.get s.set) (.named typeName)

theorem ofSlots_eq (typeName : String) (slots : List (Slot ρ)) :
    ofSlots typeName slots = ⟨typeName, slots.map Slot.accessor⟩ := by
  have hdeclared : ∀ (slots : List (Slot ρ)) (d : Descriptor ρ),
      slots.foldl (fun d s => d.field s.field.name s.field.type s.get s.set) d =
        ⟨d.typeName, d.accessors ++ slots.map Slot.accessor⟩ := by
    intro slots
    induction slots with
    | nil =>
      intro d
      rw [List.map_nil, List.append_nil]
      rfl
    | cons s slots ih =>
      intro d
      rw [List.foldl_cons, ih, List.map_cons, List.append_cons]
      rfl
  exact hdeclared slots (.named typeName)

theorem shape_ofSlots (typeName : String) (slots : List (Slot ρ)) :
    (ofSlots typeName slots).shape = .reflected typeName (slots.map Slot.field) := by
  rw [ofSlots_eq, shape, List.map_map]
  rfl

/-- A slot owns its name. -/
theorem accessor?_ofSlots {typeName : String} (hn : (slots.map Slot.name).Nodup) {s : Slot ρ}
    (hs : s ∈ slots) : (ofSlots typeName slots).accessor? s.name = some s.accessor := by
  rw [ofSlots_eq]
  refine find?_eq_some_of_unique (List.mem_map_of_mem hs) (by simp [Slot.accessor, Slot.name])
    fun a ha hname => ?_
  obtain ⟨s', hs', rfl⟩ := List.mem_map.1 ha
  have hsame : s'.name = s.name := eq_of_beq hname
  rw [List.inj_on_of_nodup_map hn hs' hs hsame]

theorem get?_ofSlots {typeName : String} (hn : (slots.map Slot.name).Nodup) {s : Slot ρ}
    (hs : s ∈ slots) (r : ρ) : (ofSlots typeName slots).get? r s.name = some (s.value r) := by
  rw [get?, accessor?_ofSlots hn hs]
  rfl

theorem get?_ofSlots_of_notMem {typeName name : String} (h : name ∉ slots.map Slot.name) (r : ρ) :
    (ofSlots typeName slots).get? r name = none := by
  have hnone : (ofSlots typeName slots).accessor? name = none := by
    rw [ofSlots_eq]
    refine List.find?_eq_none.2 fun a ha hname => h ?_
    obtain ⟨s, hs, rfl⟩ := List.mem_map.1 ha
    exact List.mem_map.2 ⟨s, hs, eq_of_beq hname⟩
  rw [get?, hnone]
  rfl

theorem set_ofSlots {typeName : String} (hn : (slots.map Slot.name).Nodup) {s : Slot ρ}
    (hs : s ∈ slots) (r : ρ) (v : Value) :
    (ofSlots typeName slots).set r s.name v = (s.store r v).mapError (Error.forMember s.name) := by
  rw [set, accessor?_ofSlots hn hs]
  rfl

end Descriptor

/-! ## Filling a typed record -/

section Typed

variable {ρ : Type} [Reflected ρ] {typeName : String} {slots : List (Slot ρ)}

/-- A value that a slot gives out is stored in it again, under its name and at any position. -/
theorem setField_value (hd : Reflected.descriptor = Descriptor.ofSlots typeName slots)
    (hn : (slots.map Slot.name).Nodup) {s : Slot ρ} (hs : s ∈ slots) {t : ρ}
    (htaken : Native.ofValue (s.value t) = .ok (s.get t)) (r : ρ) (position : Nat) :
    RecordAccess.setField r s.name position (s.value t) = .ok (s.set r (s.get t)) := by
  change Reflected.descriptor.set r s.name (s.value t) = _
  rw [hd, Descriptor.set_ofSlots hn hs, Slot.store, htaken]
  rfl

/-- A record receives the values of another one: each slot has the value of that record, or is
named by none of them and is left as it was. -/
theorem fill_slots (hd : Reflected.descriptor = Descriptor.ofSlots typeName slots)
    (hn : (slots.map Slot.name).Nodup) (hf : Slot.Faithful slots) {t : ρ} :
    ∀ {readings : List Reading}, (∀ x ∈ readings, ∃ s ∈ slots, s.name = x.name ∧
      x.value = .ok (s.value t) ∧ Native.ofValue (s.value t) = .ok (s.get t)) →
    ∀ acc : ρ, ∃ r, fill readings acc = .ok r ∧ ∀ s ∈ slots, s.get r = s.get t ∨
      s.name ∉ readings.map Reading.name ∧ s.get r = s.get acc
  | [], _, acc => ⟨acc, rfl, fun _ _ => .inr ⟨List.not_mem_nil, rfl⟩⟩
  | ⟨name, position, result⟩ :: rest, h, acc => by
    obtain ⟨⟨s, hs, hname, hresult, htaken⟩, hrest⟩ := List.forall_mem_cons.1 h
    dsimp only at hname hresult
    subst hname hresult
    obtain ⟨r, hfill, hslots⟩ := fill_slots hd hn hf hrest (s.set acc (s.get t))
    refine ⟨r, ?_, fun s' hs' => ?_⟩
    · simp only [fill, setField_value hd hn hs htaken]
      exact hfill
    · rw [List.map_cons, List.mem_cons, not_or]
      rcases hslots s' hs' with hsame | ⟨hlater, hkept⟩
      · exact .inl hsame
      · by_cases hname : s'.name = s.name
        · obtain rfl := List.inj_on_of_nodup_map hn hs' hs hname
          exact .inl (hkept.trans (hf.get_set s' hs' acc _))
        · have hleft := hf.get_set_of_ne s hs s' hs' (Ne.symm hname) acc (s.get t)
          exact .inr ⟨⟨hname, hlater⟩, hkept.trans hleft⟩

/-- **A record that receives the values of all slots of another one becomes that record.** -/
theorem fill_eq_of_slots (hd : Reflected.descriptor = Descriptor.ofSlots typeName slots)
    (hn : (slots.map Slot.name).Nodup) (hf : Slot.Faithful slots) {t : ρ} {readings : List Reading}
    (h : ∀ x ∈ readings, ∃ s ∈ slots, s.name = x.name ∧ x.value = .ok (s.value t) ∧
      Native.ofValue (s.value t) = .ok (s.get t))
    (hall : ∀ s ∈ slots, s.name ∈ readings.map Reading.name) (acc : ρ) :
    fill readings acc = .ok t := by
  obtain ⟨r, hfill, hslots⟩ := fill_slots hd hn hf h acc
  rw [hfill, hf.ext r t fun s hs => (hslots s hs).resolve_right fun hleft => hleft.1 (hall s hs)]

end Typed

end PackedRecord
