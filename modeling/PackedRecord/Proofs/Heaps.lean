import PackedRecord.Proofs.SortedMaps
import PackedRecord.Proofs.Words
import PackedRecord.Store.Transient

/-!
# Heaps only grow

A codec relies on three things of a heap: content of less than `2 ^ 32` bytes is taken, the
handle given back is not the one of no object, and it leads to the content from then on,
whatever else is put on the heap later.

* `LawfulHeap` — these laws, with the relation "a later state of" and the invariant they need.
* The store in memory obeys them.
-/

namespace PackedRecord

/-- A heap whose handles stay good. -/
class LawfulHeap (σ : Type) [Heap σ] where
  /-- Invariant of the states that arise. -/
  Sound : σ → Prop
  /-- The second state holds whatever the first one does. -/
  Extends : σ → σ → Prop
  /-- Every object has a key of 64 bits. -/
  Addressable : σ → Prop
  extends_refl (heap : σ) : Extends heap heap
  extends_trans {a b c : σ} : Extends a b → Extends b c → Extends a c
  put_succeeds (heap : σ) {content : Bytes} (h : content.length < 2 ^ 32) :
    ∃ handle heap', Heap.put heap content = .ok (handle, heap')
  put_sound {heap heap' : σ} {content : Bytes} {handle : Handle} (hs : Sound heap)
    (h : Heap.put heap content = .ok (handle, heap')) : Sound heap' ∧ Extends heap heap'
  get_put {heap heap' later : σ} {content : Bytes} {handle : Handle} (hs : Sound heap)
    (h : Heap.put heap content = .ok (handle, heap')) (he : Extends heap' later)
    (ha : Addressable later) :
    handle.isNull = false ∧ Heap.get later handle = .ok content

/-! ## Handles of new objects -/

namespace Handle

theorem ofKey_eq {key : UInt64} {length : Nat} {handle : Handle}
    (h : ofKey key length = .ok handle) : ofKey? key length = some handle := by
  unfold ofKey at h
  split at h
  · rename_i handle' hk
    cases h
    exact hk
  · cases h

theorem ofKey_of_ofKey? {key : UInt64} {length : Nat} {handle : Handle}
    (h : ofKey? key length = some handle) : ofKey key length = .ok handle := by
  rw [ofKey, h]

theorem exists_ofKey (key : UInt64) {length : Nat} (h : length < 2 ^ 32) :
    ∃ handle, ofKey key length = .ok handle := by
  obtain ⟨handle, hk⟩ := exists_ofKey? key h
  exact ⟨handle, ofKey_of_ofKey? hk⟩

end Handle

/-! ## The store in memory -/

namespace TransientStore

/-- Every heap object has a key of 64 bits. -/
def Addressable (s : TransientStore) : Prop := s.heap.length ≤ 2 ^ 64

theorem put_eq {s s' : TransientStore} {content : Bytes} {handle : Handle}
    (h : s.put content = .ok (handle, s')) :
    Handle.ofKey? (UInt64.ofNat s.heap.length) content.length = some handle ∧
      s' = { s with heap := s.heap ++ [content] } := by
  unfold put at h
  cases hk : Handle.ofKey (UInt64.ofNat s.heap.length) content.length with
  | error e => simp [hk, Except.map] at h
  | ok handle' =>
    simp only [hk, Except.map, Except.ok.injEq, Prod.mk.injEq] at h
    obtain ⟨rfl, rfl⟩ := h
    exact ⟨Handle.ofKey_eq hk, rfl⟩

theorem get_put {s s' later : TransientStore} {content : Bytes} {handle : Handle}
    (h : s.put content = .ok (handle, s')) (he : s'.heap <+: later.heap)
    (ha : later.Addressable) : handle.isNull = false ∧ later.get handle = .ok content := by
  obtain ⟨hk, rfl⟩ := put_eq h
  obtain ⟨hkey, hlen, hnull⟩ := Handle.key?_of_ofKey? hk
  have hle : s.heap.length + 1 ≤ 2 ^ 64 := by
    have := he.length_le
    simp only [List.length_append, List.length_singleton] at this
    exact this.trans ha
  have hindex : (UInt64.ofNat s.heap.length).toNat = s.heap.length :=
    UInt64.toNat_ofNat_of_lt' hle
  have hget : later.heap[s.heap.length]? = some content := by
    obtain ⟨rest, hrest⟩ := he
    simp [← hrest]
  refine ⟨hnull, ?_⟩
  unfold get
  simp only [hkey, Option.bind_some, hindex, hget]
  rw [if_pos hlen.symm]

instance : LawfulHeap TransientStore where
  Sound _ := True
  Extends s s' := s.heap <+: s'.heap
  Addressable := Addressable
  extends_refl s := List.prefix_refl s.heap
  extends_trans h h' := h.trans h'
  put_succeeds s content h := by
    obtain ⟨handle, hk⟩ := Handle.exists_ofKey (UInt64.ofNat s.heap.length) h
    exact ⟨handle, { s with heap := s.heap ++ [content] }, by
      simp only [Heap.put, put, hk, Except.map]⟩
  put_sound _ h := by
    obtain ⟨-, rfl⟩ := put_eq h
    exact ⟨trivial, List.prefix_append _ _⟩
  get_put _ h he ha := get_put h he ha

end TransientStore

end PackedRecord
