import PackedRecord.Proofs.Heaps
import PackedRecord.Proofs.StoreAgreement

/-!
# Heaps in a file

The store in a file keeps heap objects under ascending keys.  From the empty store on the keys
are positions, so that the objects are a list that only grows, as those of the store in memory.

* `BoundedHeap` — a heap takes no content whose length exceeds the 32 bits of a handle.
* Both stores are lawful and bounded heaps.
-/

namespace PackedRecord

/-- A heap that takes no content too long for a handle. -/
class BoundedHeap (σ : Type) [Heap σ] : Prop where
  length_lt_of_put {heap heap' : σ} {content : Bytes} {handle : Handle}
    (h : Heap.put heap content = .ok (handle, heap')) : content.length < 2 ^ 32

theorem Handle.length_lt_of_ofKey? {key : UInt64} {length : Nat} {handle : Handle}
    (h : ofKey? key length = some handle) : length < 2 ^ 32 := by
  unfold ofKey? at h
  split at h
  · assumption
  · cases h

instance : BoundedHeap TransientStore where
  length_lt_of_put h := Handle.length_lt_of_ofKey? (TransientStore.put_eq h).1

namespace DurableStore

variable {d d' later : DurableStore} {content : Bytes} {handle : Handle}

/-- The objects under their positions, as a list. -/
def Lists (d : DurableStore) (contents : List Bytes) : Prop := Keyed d.heap contents

/-- The objects are one list only. -/
theorem Lists.unique {contents contents' : List Bytes} (h : d.Lists contents)
    (h' : d.Lists contents') : contents = contents' :=
  List.ext_getElem? fun i => (h.get i).symm.trans (h'.get i)

theorem put_eq (h : d.put content = .ok (handle, d')) :
    Handle.ofKey? (UInt64.ofNat (nextIndex d.heap)) content.length = some handle ∧
      d' = { d with heap := Assoc.insert (nextIndex d.heap) content d.heap } := by
  unfold put nextKey at h
  cases hk : Handle.ofKey (UInt64.ofNat (nextIndex d.heap)) content.length with
  | error e => simp [hk, Except.map] at h
  | ok handle' =>
    simp only [hk, Except.map, Except.ok.injEq, Prod.mk.injEq] at h
    obtain ⟨rfl, rfl⟩ := h
    exact ⟨Handle.ofKey_eq hk, rfl⟩

/-- A new object comes behind the others. -/
theorem Lists.put {contents : List Bytes} (h : d.Lists contents)
    (hput : d.put content = .ok (handle, d')) : d'.Lists (contents ++ [content]) := by
  obtain ⟨-, rfl⟩ := put_eq hput
  change Keyed (Assoc.insert (nextIndex d.heap) content d.heap) (contents ++ [content])
  rw [h.next]
  exact h.append content

/-- An object is read back, whatever came behind it. -/
theorem Lists.get_put {contents more : List Bytes} (h : d.Lists contents)
    (hput : d.put content = .ok (handle, d')) (hlater : later.Lists (contents ++ [content] ++ more))
    (ha : nextIndex later.heap ≤ 2 ^ 64) :
    handle.isNull = false ∧ later.get handle = .ok content := by
  obtain ⟨hk, -⟩ := put_eq hput
  obtain ⟨hkey, hlen, hnull⟩ := Handle.key?_of_ofKey? hk
  have hlt : contents.length < 2 ^ 64 := by
    rw [hlater.next, List.length_append, List.length_append, List.length_singleton] at ha
    omega
  have hindex : (UInt64.ofNat (nextIndex d.heap)).toNat = contents.length := by
    rw [h.next]
    exact UInt64.toNat_ofNat_of_lt' hlt
  have hget : Assoc.get? contents.length later.heap = some content := by
    rw [hlater.get, List.append_assoc, List.getElem?_append_right (Nat.le_refl _), Nat.sub_self]
    rfl
  refine ⟨hnull, ?_⟩
  unfold get
  simp only [hkey, Option.bind_some, hindex, hget]
  rw [if_pos hlen.symm]

instance : LawfulHeap DurableStore where
  Sound d := ∃ contents, d.Lists contents
  Extends d d' := ∀ contents, d.Lists contents → ∃ more, d'.Lists (contents ++ more)
  Addressable d := nextIndex d.heap ≤ 2 ^ 64
  extends_refl d contents h := ⟨[], by rwa [List.append_nil]⟩
  extends_trans hab hbc contents h := by
    obtain ⟨more, hb⟩ := hab contents h
    obtain ⟨more', hc⟩ := hbc _ hb
    exact ⟨more ++ more', by rwa [← List.append_assoc]⟩
  put_succeeds d content h := by
    obtain ⟨handle, hk⟩ := Handle.exists_ofKey (UInt64.ofNat d.nextKey) h
    exact ⟨handle, { d with heap := Assoc.insert d.nextKey content d.heap }, by
      simp only [Heap.put, put, hk, Except.map]⟩
  put_sound := by
    rintro d d' content handle ⟨contents, h⟩ hput
    refine ⟨⟨_, h.put hput⟩, fun contents' h' => ⟨[content], ?_⟩⟩
    obtain rfl := Lists.unique h h'
    exact h.put hput
  get_put := by
    rintro d d' later content handle ⟨contents, h⟩ hput hext ha
    obtain ⟨more, hlater⟩ := hext _ (h.put hput)
    exact Lists.get_put h hput hlater ha

instance : BoundedHeap DurableStore where
  length_lt_of_put h := Handle.length_lt_of_ofKey? (put_eq h).1

end DurableStore

end PackedRecord
