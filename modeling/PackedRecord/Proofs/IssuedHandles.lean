import Mathlib.Data.UInt
import PackedRecord.Proofs.DurableHeaps

/-!
# Handles that lead somewhere

Both stores number the objects of their heaps in the order of writing.  A handle names its object
by a collection and an index; the key made from them has only the low half of the collection, so
that a handle leads where its `folded` form leads.

* `ListedHeap` — stores whose heap objects are a list that only `put` changes; both stores are.
* `StoreCall.issued` — the handles answered along a script, with the contents they stand for.
* `issued_handles_read` — after any script a handle leads to a content exactly if its folded form
  was issued for it, and dangles otherwise.  The folded form of a handle with a collection number
  of 32 bits, such as every handle that was issued, is the handle itself.
* `unissued_handle_reads` — a handle that was never issued and yet leads to an object.
-/

namespace PackedRecord

attribute [local instance] corePow

/-! ## Folded handles -/

namespace Handle

/-- The handle with its collection number as keys have it, counted from one modulo `2 ^ 32`. -/
def folded (h : Handle) : Handle :=
  if h.collection = 0 then h
  else { h with collection := UInt64.ofNat ((h.collection.toNat - 1) % 2 ^ 32 + 1) }

@[simp] theorem length_folded (h : Handle) : h.folded.length = h.length := by
  unfold folded
  split <;> rfl

@[simp] theorem index_folded (h : Handle) : h.folded.index = h.index := by
  unfold folded
  split <;> rfl

/-- Collection number of a folded handle. -/
theorem toNat_collection_folded {h : Handle} (hc : h.collection ≠ 0) :
    h.folded.collection.toNat = (h.collection.toNat - 1) % 2 ^ 32 + 1 := by
  have hlt : (h.collection.toNat - 1) % 2 ^ 32 < 2 ^ 32 := Nat.mod_lt _ (by decide)
  rw [folded, if_neg hc]
  exact UInt64.toNat_ofNat_of_lt' (by change _ < 2 ^ 64; omega)

theorem collection_folded_ne {h : Handle} (hc : h.collection ≠ 0) : h.folded.collection ≠ 0 := by
  intro h0
  have hnat := toNat_collection_folded hc
  rw [h0] at hnat
  exact absurd hnat.symm (Nat.succ_ne_zero _)

/-- A handle and its folded form have the same key. -/
@[simp] theorem key?_folded (h : Handle) : h.folded.key? = h.key? := by
  by_cases hc : h.collection = 0
  · rw [folded, if_pos hc]
  · rw [key?, key?, if_neg hc, if_neg (collection_folded_ne hc), toNat_collection_folded hc,
      index_folded, Nat.add_sub_cancel, Nat.mod_mod]

/-- Nothing is dropped from a collection number of 32 bits. -/
theorem folded_eq {h : Handle} (hc : h.collection.toNat ≤ 2 ^ 32) : h.folded = h := by
  by_cases h0 : h.collection = 0
  · rw [folded, if_pos h0]
  · have hpos : h.collection.toNat ≠ 0 := fun hz => h0 (UInt64.toNat_inj.1 hz)
    have hcount : (h.collection.toNat - 1) % 2 ^ 32 + 1 = h.collection.toNat := by omega
    rw [folded, if_neg h0, hcount, UInt64.ofNat_toNat]

/-- The key of a handle is numbered by the folded form of the handle. -/
theorem ofKey?_of_key? {h : Handle} {key : UInt64} (hk : h.key? = some key) :
    ofKey? key h.length.toNat = some h.folded := by
  unfold key? at hk
  split at hk
  · cases hk
  · rename_i hc
    have hi := h.index.toNat_lt
    have hmod : (h.collection.toNat - 1) % 2 ^ 32 < 2 ^ 32 := Nat.mod_lt _ (by decide)
    have hkey : key.toNat = (h.collection.toNat - 1) % 2 ^ 32 * 2 ^ 32 + h.index.toNat := by
      rw [← Option.some.inj hk]
      exact UInt64.toNat_ofNat_of_lt' (by change _ < 2 ^ 64; omega)
    have hdiv : key.toNat / 2 ^ 32 = (h.collection.toNat - 1) % 2 ^ 32 := by omega
    have hrem : key.toNat % 2 ^ 32 = h.index.toNat := by omega
    rw [ofKey?, if_pos h.length.toNat_lt, hdiv, hrem, UInt32.ofNat_toNat, UInt32.ofNat_toNat,
      folded, if_neg hc]

/-- Keys of 64 bits are spread over collections of 32 bits. -/
theorem collection_le_of_ofKey? {key : UInt64} {length : Nat} {h : Handle}
    (ho : ofKey? key length = some h) : h.collection.toNat ≤ 2 ^ 32 := by
  have hk := key.toNat_lt
  unfold ofKey? at ho
  split at ho
  · cases ho
    have hcoll : (UInt64.ofNat (key.toNat / 2 ^ 32 + 1)).toNat = key.toNat / 2 ^ 32 + 1 :=
      UInt64.toNat_ofNat_of_lt' (by change _ < 2 ^ 64; omega)
    rw [hcoll]
    omega
  · cases ho

end Handle

/-! ## What a list of objects answers -/

namespace TransientStore

variable {t : TransientStore} {content : Bytes} {handle : Handle}

/-- A handle leads to the object that its folded form was made for. -/
theorem get_eq_ok_iff (ht : t.Addressable) :
    t.get handle = .ok content ↔ ∃ i, t.heap[i]? = some content ∧
      Handle.ofKey? (UInt64.ofNat i) content.length = some handle.folded := by
  constructor
  · intro h
    unfold get at h
    split at h
    · rename_i found hfound
      obtain ⟨key, hkey, hobject⟩ := Option.bind_eq_some_iff.1 hfound
      split at h
      · rename_i hlength
        cases h
        refine ⟨key.toNat, hobject, ?_⟩
        rw [UInt64.ofNat_toNat, hlength]
        exact Handle.ofKey?_of_key? hkey
      · cases h
    · cases h
  · rintro ⟨i, hobject, hmade⟩
    obtain ⟨hi, -⟩ := List.getElem?_eq_some_iff.1 hobject
    have hindex : (UInt64.ofNat i).toNat = i := UInt64.toNat_ofNat_of_lt' (Nat.lt_of_lt_of_le hi ht)
    obtain ⟨hkey, hlength, -⟩ := Handle.key?_of_ofKey? hmade
    rw [Handle.key?_folded] at hkey
    rw [Handle.length_folded] at hlength
    unfold get
    simp only [hkey, Option.bind_some, hindex, hobject]
    rw [if_pos hlength.symm]

/-- A handle that leads nowhere dangles. -/
theorem get_eq_dangling (h : ∀ content, t.get handle ≠ .ok content) :
    t.get handle = .error handle.danglingError := by
  unfold get at h ⊢
  split at h
  · rename_i found _
    split at h
    · exact absurd rfl (h found)
    · rename_i hlength
      rw [if_neg hlength]
  · rfl

end TransientStore

/-! ## Objects as a list -/

/-- The content an operation puts on the heap. -/
def StoreCall.content? : StoreCall → Option Bytes
  | put content => some content
  | _ => none

/-- A store whose heap objects are a list: `put` adds one at the end, nothing else changes it. -/
class ListedHeap (σ : Type) [RecordStore σ] [Catalog σ] where
  /-- The objects of the heap in order of their keys. -/
  Lists : σ → List Bytes → Prop
  /-- Handles are read off the list. -/
  get_lists {store : σ} {objects : List Bytes} (h : Lists store objects) (handle : Handle) :
    Heap.get store handle = ({ heap := objects } : TransientStore).get handle
  put_lists {store store' : σ} {objects : List Bytes} {content : Bytes} {handle : Handle}
    (h : Lists store objects) (hput : Heap.put store content = .ok (handle, store')) :
    Handle.ofKey? (UInt64.ofNat objects.length) content.length = some handle ∧
      Lists store' (objects ++ [content])
  answer_lists {store : σ} {objects : List Bytes} (h : Lists store objects) {call : StoreCall}
    (hcall : call.content? = none) : Lists (call.answer store).2 objects
  reopen_lists {store : σ} {objects : List Bytes} (h : Lists store objects) :
    Lists (RecordStore.reopen store) objects

instance : ListedHeap TransientStore where
  Lists t objects := t.heap = objects
  get_lists h handle := by
    subst h
    rfl
  put_lists h hput := by
    subst h
    obtain ⟨hmade, rfl⟩ := TransientStore.put_eq hput
    exact ⟨hmade, rfl⟩
  answer_lists {t objects} h {call} hcall := by
    cases call with
    | put content => cases hcall
    | allocate name rowSize =>
      simp only [StoreCall.answer, RecordStore.allocate, TransientStore.allocate]
      split
      · split <;> exact h
      · exact h
    | writeRow a i row =>
      simp only [StoreCall.answer, RecordStore.writeRow, TransientStore.writeRow]
      split
      · split <;> exact h
      · exact h
    | register d =>
      obtain ⟨entries, hafter⟩ := t.exists_answer_register d
      rw [hafter]
      exact h
    | _ => exact h
  reopen_lists h := h

/-- Reading a row leaves the heap alone. -/
theorem DurableStore.heap_readRow (d : DurableStore) (a : Allocation) (index : Nat) :
    (d.readRow a index).2.heap = d.heap := by
  unfold readRow
  split
  · rfl
  · split
    · split <;> rfl
    · rfl

instance : ListedHeap DurableStore where
  Lists := DurableStore.Lists
  get_lists {d objects} h handle := by
    change d.get handle = TransientStore.get _ handle
    unfold DurableStore.get TransientStore.get
    cases handle.key? with
    | none => rfl
    | some key =>
      rcases hfound : objects[key.toNat]? with _ | content <;>
        simp only [Option.bind_some, h.get, hfound]
  put_lists h hput := by
    obtain ⟨hmade, -⟩ := DurableStore.put_eq hput
    rw [h.next] at hmade
    exact ⟨hmade, h.put hput⟩
  answer_lists {d objects} h {call} hcall := by
    cases call with
    | put content => cases hcall
    | readRow a index =>
      change Keyed (d.readRow a index).2.heap objects
      rw [DurableStore.heap_readRow]
      exact h
    | allocate name rowSize =>
      simp only [StoreCall.answer, RecordStore.allocate, DurableStore.allocate]
      split
      · split <;> exact h
      · exact h
    | writeRow a i row =>
      simp only [StoreCall.answer, RecordStore.writeRow, DurableStore.writeRow]
      split
      · split <;> exact h
      · exact h
    | register description =>
      obtain ⟨table, hafter⟩ := d.exists_answer_register description
      rw [hafter]
      exact h
    | _ => exact h
  reopen_lists h := h

/-! ## Runs -/

namespace StoreCall

variable {σ : Type} [RecordStore σ] [Catalog σ]

/-- State after some operations; at each `none` the store is closed and opened again. -/
def after : List (Option StoreCall) → σ → σ
  | [], store => store
  | none :: rest, store => after rest (RecordStore.reopen store)
  | some call :: rest, store => after rest (call.answer store).2

/-- The handle an operation is answered with, and the content it stands for. -/
def issues (store : σ) (call : StoreCall) : List (Handle × Bytes) :=
  match call.content?, (call.answer store).1 with
  | some content, .handle (.ok handle) => [(handle, content)]
  | _, _ => []

/-- All handles answered along a script, with the contents they stand for. -/
def issued : List (Option StoreCall) → σ → List (Handle × Bytes)
  | [], _ => []
  | none :: rest, store => issued rest (RecordStore.reopen store)
  | some call :: rest, store => call.issues store ++ issued rest (call.answer store).2

end StoreCall

/-- The handles are those of consecutive keys from some number on. -/
def NumberedFrom (first : Nat) (pairs : List (Handle × Bytes)) : Prop :=
  ∀ (i : Nat) (handle : Handle) (content : Bytes), pairs[i]? = some (handle, content) →
    Handle.ofKey? (UInt64.ofNat (first + i)) content.length = some handle

theorem NumberedFrom.nil (first : Nat) : NumberedFrom first [] := by
  intro i handle content h
  cases h

theorem NumberedFrom.singleton {first : Nat} {handle : Handle} {content : Bytes}
    (h : Handle.ofKey? (UInt64.ofNat first) content.length = some handle) :
    NumberedFrom first [(handle, content)] := by
  intro i found bytes hi
  cases i with
  | zero =>
    cases hi
    exact h
  | succ i => cases hi

theorem NumberedFrom.append {first : Nat} {pairs more : List (Handle × Bytes)}
    (h : NumberedFrom first pairs) (hmore : NumberedFrom (first + pairs.length) more) :
    NumberedFrom first (pairs ++ more) := by
  intro i handle content hi
  rcases Nat.lt_or_ge i pairs.length with hlt | hge
  · rw [List.getElem?_append_left hlt] at hi
    exact h i handle content hi
  · rw [List.getElem?_append_right hge] at hi
    have hnumber : first + pairs.length + (i - pairs.length) = first + i := by omega
    rw [← hnumber]
    exact hmore _ handle content hi

section Runs

variable {σ : Type} [RecordStore σ] [Catalog σ] [ListedHeap σ]

open ListedHeap StoreCall

/-- **One operation adds to the list what it issues a handle for**, under the next key. -/
theorem StoreCall.lists_answer {store : σ} {objects : List Bytes} (h : Lists store objects)
    (call : StoreCall) :
    Lists (call.answer store).2 (objects ++ (call.issues store).map Prod.snd) ∧
      NumberedFrom objects.length (call.issues store) := by
  cases hcontent : call.content? with
  | none =>
    have hnone : call.issues store = [] := by rw [issues, hcontent]
    rw [hnone, List.map_nil, List.append_nil]
    exact ⟨answer_lists h hcontent, .nil _⟩
  | some content =>
    obtain rfl : call = .put content := by
      cases call <;> cases hcontent
      rfl
    rcases hput : Heap.put store content with e | ⟨handle, store'⟩
    · have hnone : (StoreCall.put content).issues store = [] := by
        simp only [issues, content?, answer, hput, settle]
      rw [hnone, List.map_nil, List.append_nil]
      refine ⟨?_, .nil _⟩
      simp only [answer, hput, settle]
      exact h
    · obtain ⟨hmade, hlists⟩ := put_lists h hput
      have hone : (StoreCall.put content).issues store = [(handle, content)] := by
        simp only [issues, content?, answer, hput, settle]
      rw [hone]
      refine ⟨?_, ?_⟩
      · simp only [answer, hput, settle]
        exact hlists
      · exact .singleton hmade

/-- **The heap after a script is the heap before it and what handles were issued for**, in order
and under consecutive keys. -/
theorem StoreCall.lists_after : ∀ (script : List (Option StoreCall)) {store : σ}
    {objects : List Bytes}, Lists store objects →
    Lists (after script store) (objects ++ (issued script store).map Prod.snd) ∧
      NumberedFrom objects.length (issued script store)
  | [], store, objects, h => by
    rw [issued, List.map_nil, List.append_nil]
    exact ⟨h, .nil _⟩
  | none :: script, _, _, h => lists_after script (reopen_lists h)
  | some call :: script, store, objects, h => by
    obtain ⟨hstep, hnumbered⟩ := lists_answer h call
    obtain ⟨hrest, hmore⟩ := lists_after script hstep
    rw [List.length_append, List.length_map] at hmore
    rw [issued, List.map_append, ← List.append_assoc]
    exact ⟨hrest, hnumbered.append hmore⟩

end Runs

/-! ## Which handles lead somewhere -/

namespace StoreCall

variable {σ : Type} [RecordStore σ] [Catalog σ]

/-- After a script a handle leads where its folded form was issued to lead, or it dangles. -/
structure ReadsIssued (script : List (Option StoreCall)) (store : σ) (handle : Handle) :
    Prop where
  ok_iff (content : Bytes) : Heap.get (after script store) handle = .ok content ↔
    (handle.folded, content) ∈ issued script store
  dangling : (∀ content, (handle.folded, content) ∉ issued script store) →
    Heap.get (after script store) handle = .error handle.danglingError
  /-- The handles issued are those that lead somewhere and have a collection of 32 bits. -/
  issued_iff (content : Bytes) : (handle, content) ∈ issued script store ↔
    Heap.get (after script store) handle = .ok content ∧ handle.collection.toNat ≤ 2 ^ 32

theorem readsIssued_of_lists [ListedHeap σ] (script : List (Option StoreCall)) {store : σ}
    (h : ListedHeap.Lists store []) (hkeys : (issued script store).length ≤ 2 ^ 64)
    (handle : Handle) : ReadsIssued script store handle := by
  obtain ⟨hlists, hnumbered⟩ := lists_after script h
  rw [List.nil_append] at hlists
  -- A pair lies where its key says, since the keys are positions.
  have hok : ∀ content, Heap.get (after script store) handle = .ok content ↔
      (handle.folded, content) ∈ issued script store := by
    intro content
    rw [ListedHeap.get_lists hlists, TransientStore.get_eq_ok_iff (by
      rw [TransientStore.Addressable, List.length_map]
      exact hkeys)]
    constructor
    · rintro ⟨i, hobject, hmade⟩
      rw [List.getElem?_map] at hobject
      obtain ⟨⟨found, _⟩, hpair, rfl⟩ := Option.map_eq_some_iff.1 hobject
      have hfound := hnumbered i found _ hpair
      rw [List.length_nil, Nat.zero_add] at hfound
      obtain rfl : handle.folded = found := Option.some.inj (hmade.symm.trans hfound)
      exact List.mem_of_getElem? hpair
    · intro hmem
      obtain ⟨i, hi⟩ := List.getElem?_of_mem hmem
      have hmade := hnumbered i _ _ hi
      rw [List.length_nil, Nat.zero_add] at hmade
      refine ⟨i, ?_, hmade⟩
      rw [List.getElem?_map, hi]
      rfl
  refine ⟨hok, ?_, ?_⟩
  · intro hnone
    rw [ListedHeap.get_lists hlists]
    refine TransientStore.get_eq_dangling fun content hread => hnone content ?_
    rw [← hok, ListedHeap.get_lists hlists]
    exact hread
  · intro content
    constructor
    · intro hmem
      obtain ⟨i, hi⟩ := List.getElem?_of_mem hmem
      have hsmall := Handle.collection_le_of_ofKey? (hnumbered i _ _ hi)
      refine ⟨?_, hsmall⟩
      rw [hok, Handle.folded_eq hsmall]
      exact hmem
    · rintro ⟨hread, hsmall⟩
      rw [hok, Handle.folded_eq hsmall] at hread
      exact hread

end StoreCall

/-- **A handle leads to a content exactly if its folded form was issued for it**, and dangles
otherwise, after any operations on an empty store of either kind, closed and opened again
anywhere, as long as its objects have keys of 64 bits.  So among the handles with a collection
number of 32 bits exactly those that were issued lead somewhere. -/
theorem issued_handles_read (capacity : Nat) (script : List (Option StoreCall)) (handle : Handle) :
    ((StoreCall.issued script ({} : TransientStore)).length ≤ 2 ^ 64 →
      StoreCall.ReadsIssued script ({} : TransientStore) handle) ∧
    ((StoreCall.issued script (DurableStore.empty capacity)).length ≤ 2 ^ 64 →
      StoreCall.ReadsIssued script (DurableStore.empty capacity) handle) :=
  ⟨fun hkeys => StoreCall.readsIssued_of_lists script rfl hkeys handle,
    fun hkeys => StoreCall.readsIssued_of_lists script Keyed.nil hkeys handle⟩

/-- Two contents, the second one empty, put before and after closing. -/
def issuingScript : List (Option StoreCall) :=
  [some (.put [97, 98]), none, some (.allocate "T" 1), some (.put [])]

theorem issued_handles_read_twice :
    Heap.get (StoreCall.after issuingScript ({} : TransientStore)) ⟨2, 1, 0⟩ = .ok [97, 98] ∧
    Heap.get (StoreCall.after issuingScript (DurableStore.empty 1)) ⟨0, 1, 1⟩ = .ok [] ∧
    Heap.get (StoreCall.after issuingScript (DurableStore.empty 1)) ⟨1, 1, 1⟩ =
      .error (.store (.dangling ⟨1, 1, 1⟩)) := by
  have htransient : StoreCall.issued issuingScript ({} : TransientStore) =
      [(⟨2, 1, 0⟩, [97, 98]), (⟨0, 1, 1⟩, [])] := rfl
  have hdurable : StoreCall.issued issuingScript (DurableStore.empty 1) =
      [(⟨2, 1, 0⟩, [97, 98]), (⟨0, 1, 1⟩, [])] := rfl
  have hfew : [((⟨2, 1, 0⟩ : Handle), ([97, 98] : Bytes)), (⟨0, 1, 1⟩, [])].length ≤ 2 ^ 64 := by
    decide
  refine ⟨?_, ?_, ?_⟩
  · rw [((issued_handles_read 1 issuingScript _).1 (htransient ▸ hfew)).ok_iff, htransient]
    decide
  · rw [((issued_handles_read 1 issuingScript _).2 (hdurable ▸ hfew)).ok_iff, hdurable]
    decide
  · refine ((issued_handles_read 1 issuingScript _).2 (hdurable ▸ hfew)).dangling fun content => ?_
    have hfolded : Handle.folded ⟨1, 1, 1⟩ = ⟨1, 1, 1⟩ := by decide
    rw [hdurable, hfolded]
    simp

/-- A handle that differs from an issued one in the high half of its collection leads to the same
object, although it was never issued. -/
theorem unissued_handle_reads :
    (∀ content, ((⟨2, 2 ^ 32 + 1, 0⟩ : Handle), content) ∉
      StoreCall.issued [some (.put [97, 98])] ({} : TransientStore)) ∧
    Heap.get (StoreCall.after [some (.put [97, 98])] ({} : TransientStore)) ⟨2, 2 ^ 32 + 1, 0⟩ =
      .ok [97, 98] ∧
    (∀ content, ((⟨2, 2 ^ 32 + 1, 0⟩ : Handle), content) ∉
      StoreCall.issued [some (.put [97, 98])] (DurableStore.empty 1)) ∧
    Heap.get (StoreCall.after [some (.put [97, 98])] (DurableStore.empty 1)) ⟨2, 2 ^ 32 + 1, 0⟩ =
      .ok [97, 98] := by
  have htransient : StoreCall.issued [some (.put [97, 98])] ({} : TransientStore) =
      [(⟨2, 1, 0⟩, [97, 98])] := rfl
  have hdurable : StoreCall.issued [some (.put [97, 98])] (DurableStore.empty 1) =
      [(⟨2, 1, 0⟩, [97, 98])] := rfl
  rw [htransient, hdurable]
  have hother : (⟨2, 2 ^ 32 + 1, 0⟩ : Handle) ≠ ⟨2, 1, 0⟩ := by decide
  refine ⟨fun content => by simp [hother], rfl, fun content => by simp [hother], rfl⟩

end PackedRecord
