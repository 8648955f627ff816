import PackedRecord.Proofs.DurableHeaps
import PackedRecord.Proofs.MachineWords
import PackedRecord.Proofs.RecordRoundTrip

/-!
# Slots of handles

A handle names a heap object by the two halves of its key, the upper one counted from one.  So
keys and lengths are told apart by their handles, every slot is the slot of exactly one handle, and
no object has the slot of zeros, which stands for null.

* `Handle.ofKey_eq_ok_iff`, `Handle.key?_eq` — keys are split and put together by shifts.
* `Handle.ofKey_inj` — a handle is made for one key and one length.
* `Handle.write_read`, `Handle.write_eq_zeros_iff` — slots and handles are one to one.
* `KeyedHeap` — heaps that refer to their objects by the handles of keys; both stores do.
* `Kind.tellsNull` — the slots of members tell null from everything else.
* `handle_slots_faithful` — all of it.
-/

namespace PackedRecord

attribute [local instance] corePow

namespace Handle

variable {key key' : UInt64} {length length' : Nat} {handle : Handle}

/-! ## Keys -/

theorem ofKey_eq_error (h : ¬length < 2 ^ 32) :
    ofKey key length = .error (.store (.oversized length)) := by
  rw [ofKey, ofKey?, if_neg h]

theorem upperHalf_eq (key : UInt64) :
    UInt64.ofNat (key.toNat / 2 ^ 32 + 1) = (key >>> 32) + 1 := by
  have hk := key.toNat_lt
  have hupper : (key >>> 32).toNat = key.toNat / 2 ^ 32 :=
    Word.toNat_shiftRight (k := 32) (by decide) key
  have hfits : key.toNat / 2 ^ 32 + 1 < 2 ^ 64 := by omega
  rw [← UInt64.toNat_inj, UInt64.toNat_ofNat_of_lt' hfits, UInt64.toNat_add, hupper]
  exact (Nat.mod_eq_of_lt hfits).symm

theorem lowerHalf_eq (key : UInt64) : UInt32.ofNat (key.toNat % 2 ^ 32) = key.toUInt32 := by
  rw [← UInt32.toNat_inj, UInt64.toNat_toUInt32]
  exact UInt32.toNat_ofNat_of_lt' (Nat.mod_lt _ (by decide))

/-- **A key is split by a shift**, and its upper half is counted from one. -/
theorem ofKey_eq_ok_iff : ofKey key length = .ok handle ↔
    length < 2 ^ 32 ∧ handle = ⟨UInt32.ofNat length, (key >>> 32) + 1, key.toUInt32⟩ := by
  by_cases hlen : length < 2 ^ 32
  · rw [ofKey, ofKey?, if_pos hlen, upperHalf_eq, lowerHalf_eq, and_iff_right hlen,
      Except.ok.injEq, eq_comm]
  · rw [ofKey_eq_error hlen]
    exact iff_of_false (by simp) fun h => hlen h.1

/-- **A key is put together by a shift**; the upper half of a collection number is shifted out. -/
theorem key?_eq (h : Handle) : h.key? =
    if h.collection = 0 then none
    else some ((h.collection - 1) <<< 32 ||| h.index.toUInt64) := by
  unfold key?
  split
  · rfl
  · rename_i hc
    have hone : (1 : UInt64) ≤ h.collection := by
      rw [UInt64.le_iff_toNat_le]
      exact Nat.pos_of_ne_zero fun h0 => hc (UInt64.toNat_inj.1 h0)
    have hupper : ((h.collection - 1) <<< 32).toNat =
        2 ^ 32 * ((h.collection.toNat - 1) % 2 ^ 32) := by
      rw [UInt64.toNat_shiftLeft, UInt64.toNat_sub_of_le _ _ hone]
      change (h.collection.toNat - 1) <<< 32 % 2 ^ 64 = _
      rw [Nat.shiftLeft_eq]
      omega
    have hindex := h.index.toNat_lt
    rw [Option.some.injEq, ← UInt64.toNat_inj, UInt64.toNat_or, hupper, UInt32.toNat_toUInt64,
      ← Nat.two_pow_add_eq_or_of_lt hindex, Nat.mul_comm]
    exact UInt64.toNat_ofNat_of_lt' (by change _ < 2 ^ 64; omega)

/-- **A handle is made for one key and one length.** -/
theorem ofKey_inj (h : ofKey key length = .ok handle) (h' : ofKey key' length' = .ok handle) :
    key = key' ∧ length = length' := by
  obtain ⟨hkey, hlength, -⟩ := key?_of_ofKey? (ofKey_eq h)
  obtain ⟨hkey', hlength', -⟩ := key?_of_ofKey? (ofKey_eq h')
  exact ⟨Option.some.inj (hkey.symm.trans hkey'), hlength.symm.trans hlength'⟩

/-! ## Slots -/

section Slots

variable (order : ByteOrder)

/-- The number in a field fits it, and has no other window. -/
theorem field_spec {n : Nat} {field : Bytes} (hn : field.length = n) :
    Word.FitsUnsigned n (Word.read order field) ∧
      Word.write order n (Word.read order field) = field := by
  subst hn
  exact ⟨Word.fitsUnsigned_read order field, Word.write_read order field⟩

/-- **Every slot is the slot of the handle that it is read as.** -/
theorem write_read {window : Bytes} (hw : window.length = width) :
    (read order window).write order = window := by
  obtain ⟨a, b, c, rfl, ha, hb, hc⟩ := exists_fields hw
  obtain ⟨hlength, hback⟩ := field_spec order ha
  obtain ⟨hcollection, hback'⟩ := field_spec order hb
  obtain ⟨hindex, hback''⟩ := field_spec order hc
  rw [read_append order ha hb hc, write, UInt32.toNat_ofNat_of_lt' hlength,
    UInt64.toNat_ofNat_of_lt' hcollection, UInt32.toNat_ofNat_of_lt' hindex, hback, hback', hback'']

/-- Only the handle of no object has a slot of zeros. -/
theorem eq_null_of_write {width : Nat} (h : handle.write order = Codec.zeros width) :
    handle = null := by
  rw [← read_write order handle, h]
  exact read_zeros order width

theorem write_eq_zeros_iff : handle.write order = Codec.zeros width ↔ handle = null := by
  constructor
  · exact eq_null_of_write order
  · rintro rfl
    rw [← read_zeros order width]
    exact write_read order List.length_replicate

end Slots

/-- What a handle says of the object that it is made for. -/
structure Names (handle : Handle) (key : UInt64) (length : Nat) : Prop where
  fields_eq : handle = ⟨UInt32.ofNat length, (key >>> 32) + 1, key.toUInt32⟩
  not_null : handle.isNull = false
  key_eq : handle.key? = some key
  length_eq : handle.length.toNat = length
  /-- No other object has the handle. -/
  only : ∀ key' length', ofKey key' length' = .ok handle → key' = key ∧ length' = length
  ne_zeros : ∀ order, handle.write order ≠ Codec.zeros width

theorem names_of_ofKey (h : ofKey key length = .ok handle) : handle.Names key length := by
  obtain ⟨hkey, hlength, hnull⟩ := key?_of_ofKey? (ofKey_eq h)
  refine ⟨(ofKey_eq_ok_iff.1 h).2, hnull, hkey, hlength, fun _ _ h' => ofKey_inj h' h, ?_⟩
  intro order hzeros
  rw [eq_null_of_write order hzeros] at hnull
  cases hnull

/-- Slots in a byte order are one to one with handles, and zeros are no object's. -/
structure FaithfulSlots (order : ByteOrder) : Prop where
  read_write : ∀ handle, read order (handle.write order) = handle
  write_read : ∀ window : Bytes, window.length = width → (read order window).write order = window
  zeros : ∀ handle, handle.write order = Codec.zeros width ↔ handle = null

theorem faithfulSlots (order : ByteOrder) : FaithfulSlots order where
  read_write := Handle.read_write order
  write_read _ := Handle.write_read order
  zeros _ := write_eq_zeros_iff order

end Handle

/-! ## Heaps -/

/-- A heap that refers to its objects by the handles of keys. -/
class KeyedHeap (σ : Type) [Heap σ] : Prop where
  ofKey_of_put {heap heap' : σ} {content : Bytes} {handle : Handle}
    (h : Heap.put heap content = .ok (handle, heap')) :
    ∃ key, Handle.ofKey key content.length = .ok handle

instance : KeyedHeap TransientStore where
  ofKey_of_put h := ⟨_, Handle.ofKey_of_ofKey? (TransientStore.put_eq h).1⟩

instance : KeyedHeap DurableStore where
  ofKey_of_put h := ⟨_, Handle.ofKey_of_ofKey? (DurableStore.put_eq h).1⟩

/-! ## Members -/

section Members

variable {σ : Type} [Heap σ]

/-- The slot of a member of variable length is zeros, and read as null, for null only. -/
def Kind.TellsNull (σ : Type) [Heap σ] (kind : Kind) : Prop :=
  ∀ (p : Placement) (order : ByteOrder) (v : Value) (heap after : Option σ) (window : Bytes),
    kind.write p order v heap = (.ok window, after) →
      (window = Codec.zeros p.footprint ↔ v = .null) ∧
        ∀ later : Option σ, kind.read p order window later = .ok .null ↔ v = .null

/-- The slot of some content, whatever becomes of the heap. -/
structure Codec.Occupied (σ : Type) [Heap σ] (name : String) (order : ByteOrder)
    (window : Bytes) : Prop where
  ne_zeros : ∀ width, window ≠ Codec.zeros width
  not_absent : ∀ later : Option σ, Codec.loadContent name order window later ≠ .ok none

variable [KeyedHeap σ] {name : String} {order : ByteOrder} {width : Nat} {window : Bytes}
  {heap after : Option σ}

/-- **Stored content has a slot of its own**, empty content as well. -/
theorem Codec.occupied_of_storeContent {content : Bytes}
    (h : storeContent name order content heap = (.ok window, after)) :
    Occupied σ name order window := by
  cases heap with
  | none => cases h
  | some store =>
    obtain ⟨handle, store', hput, rfl, -⟩ := storeContent_eq name order h
    obtain ⟨key, hkey⟩ := KeyedHeap.ofKey_of_put hput
    have hnull := (Handle.names_of_ofKey hkey).not_null
    constructor
    · intro width hzeros
      rw [Handle.eq_null_of_write order hzeros] at hnull
      cases hnull
    · intro later habsent
      simp only [loadContent, Handle.read_write, hnull, Bool.false_eq_true, if_false] at habsent
      cases later with
      | none => cases habsent
      | some store =>
        dsimp only at habsent
        cases hget : Heap.get store handle <;> rw [hget] at habsent <;> cases habsent

theorem Scalar.occupied_of_write {codec : Scalar} {v : Value} (hc : codec.isVarying = true)
    (h : codec.write name order width v heap = (.ok window, after)) :
    Codec.Occupied σ name order window := by
  cases codec with
  | varyingText charset =>
    simp only [write, Codec.writeVaryingText] at h
    split at h
    · cases h
    · exact Codec.occupied_of_storeContent h
  | varyingBytes =>
    simp only [write, Codec.writeVaryingBytes] at h
    split at h
    · cases h
    · exact Codec.occupied_of_storeContent h
  | _ => cases hc

omit [KeyedHeap σ] in
/-- A codec of variable length reads content as some value other than null. -/
theorem Scalar.exists_valueOf {codec : Scalar} (hc : codec.isVarying = true) :
    ∃ valueOf : Bytes → Value, (∀ content, valueOf content ≠ .null) ∧
      ∀ (name : String) (order : ByteOrder) (window : Bytes) (heap : Option σ),
        codec.read name order window heap = (Codec.loadContent name order window heap).map
          fun content => (content.map valueOf).getD .null := by
  cases codec with
  | varyingText charset =>
    exact ⟨fun bytes => .text (Text.Utf8.decode bytes), nofun, fun _ _ _ _ => rfl⟩
  | varyingBytes => exact ⟨.bytes, nofun, fun _ _ _ _ => rfl⟩
  | _ => cases hc

omit [KeyedHeap σ] in
theorem Scalar.read_eq_null_iff {codec : Scalar} (hc : codec.isVarying = true) :
    codec.read name order window heap = .ok .null ↔
      Codec.loadContent name order window heap = .ok none := by
  obtain ⟨valueOf, hvalue, hread⟩ := exists_valueOf (σ := σ) hc
  rw [hread]
  rcases Codec.loadContent name order window heap with e | content
  · exact iff_of_false nofun nofun
  · cases content with
    | none => exact iff_of_true rfl rfl
    | some content => exact iff_of_false (fun h => hvalue content (Except.ok.inj h)) nofun

/-- **Null, and nothing that is stored, has the slot of zeros.** -/
theorem Kind.tellsNull {kind : Kind} (hk : kind.isVarying = true) : kind.TellsNull σ := by
  intro p order v heap after window h
  match kind, hk with
  | .single (.scalar codec), hc =>
    cases hnull : v.isNull with
    | true =>
      obtain rfl := Value.eq_null_of_isNull hnull
      rw [write, if_pos hnull] at h
      cases h
      refine ⟨iff_of_true rfl rfl, fun later => iff_of_true ?_ rfl⟩
      exact (Scalar.read_eq_null_iff hc).2 (Codec.loadContent_zeros _ _ _ _)
    | false =>
      have hne : v ≠ .null := by
        rintro rfl
        cases hnull
      rw [write, hnull, if_neg Bool.false_ne_true] at h
      have hoccupied := Scalar.occupied_of_write hc h
      refine ⟨iff_of_false (hoccupied.ne_zeros _) hne, fun later => iff_of_false ?_ hne⟩
      exact fun hread => hoccupied.not_absent later ((Scalar.read_eq_null_iff hc).1 hread)

end Members

/-! ## Keys, slots and members -/

/-- **Handle slots are a faithful code.**  Every key and every length of 32 bits have a handle of
their own that leads back to both, handles and slots are one to one in both byte orders, and a
member of variable length has the slot of zeros, and is read as null, exactly if null was
written. -/
theorem handle_slots_faithful :
    (∀ (key : UInt64) (length : Nat),
      (length < 2 ^ 32 → ∃ handle, Handle.ofKey key length = .ok handle ∧
        handle.Names key length) ∧
      (2 ^ 32 ≤ length → Handle.ofKey key length = .error (.store (.oversized length)))) ∧
    (∀ handle : Handle, handle.key? =
      if handle.collection = 0 then none
      else some ((handle.collection - 1) <<< 32 ||| handle.index.toUInt64)) ∧
    (∀ order, Handle.FaithfulSlots order) ∧
    ∀ kind : Kind, kind.isVarying = true →
      kind.TellsNull TransientStore ∧ kind.TellsNull DurableStore := by
  refine ⟨fun key length => ⟨fun h => ?_, fun h => ?_⟩, Handle.key?_eq, Handle.faithfulSlots,
    fun kind hk => ⟨Kind.tellsNull hk, Kind.tellsNull hk⟩⟩
  · obtain ⟨handle, hok⟩ := Handle.exists_ofKey key h
    exact ⟨handle, hok, Handle.names_of_ofKey hok⟩
  · exact Handle.ofKey_eq_error (Nat.not_lt.2 h)

/-- Empty content under the first key. -/
theorem handle_slots_faithful_empty :
    (∃ handle, Handle.ofKey 0 0 = .ok handle ∧ handle.Names 0 0) ∧
    ∃ (window : Bytes) (after : Option TransientStore),
      (Kind.single (.scalar .varyingBytes)).write (.plain "blob" 0 .raw (-1)) .big (.bytes [])
        (some {}) = (.ok window, after) ∧
      window ≠ Codec.zeros 16 ∧
      (Kind.single (.scalar .varyingBytes)).read (.plain "blob" 0 .raw (-1)) .big window after ≠
        .ok .null := by
  obtain ⟨hkeys, -, -, hmembers⟩ := handle_slots_faithful
  refine ⟨(hkeys 0 0).1 (by decide), _, _, rfl, ?_⟩
  have hblob := (hmembers (.single (.scalar .varyingBytes)) rfl).1 (.plain "blob" 0 .raw (-1)) .big
    (.bytes []) (some {}) _ _ rfl
  exact ⟨mt hblob.1.1 nofun, mt (hblob.2 _).1 nofun⟩

end PackedRecord
