import PackedRecord.Proofs.Heaps
import PackedRecord.Proofs.StoreAgreement

/-!
# Rows stay where they are

A store in memory and a store in a file both hold the content of a store in memory, the one its
own, the other the one it mirrors.  What an operation leaves alone is stated of that content.

* `MirroredStore` — stores with the content they hold, and their operations.
* `TransientStore.Spares` — a later content with the same row; heap objects and allocations
  stay as well.
* `TransientStore.spares_answer` — every operation spares every row but the one it writes.
* `TransientStore.Reaches` — a later content that was reached by operations.
-/

namespace PackedRecord

/-! ## Stores and the content they hold -/

/-- A store that holds what a store in memory does. -/
class MirroredStore (σ : Type) [RecordStore σ] [Catalog σ] where
  /-- The store holds the content of a store in memory. -/
  Holds : σ → TransientStore → Prop
  /-- Operations are answered alike, if the allocations they use were granted. -/
  answer_holds {store : σ} {t : TransientStore} (h : Holds store t) (call : StoreCall)
    (hgranted : ∀ a, call.allocation? = some a → t.Grants a) :
    (call.answer store).1 = (call.answer t).1 ∧ Holds (call.answer store).2 (call.answer t).2
  /-- Closing and opening again loses nothing. -/
  reopen_holds {store : σ} {t : TransientStore} (h : Holds store t) :
    Holds (RecordStore.reopen store) t

instance : MirroredStore TransientStore where
  Holds := Eq
  answer_holds h call _ := by
    subst h
    exact ⟨rfl, rfl⟩
  reopen_holds h := h

instance : MirroredStore DurableStore where
  Holds := Mirrors
  answer_holds h call hgranted := StoreCall.answer_mirrors h call hgranted
  reopen_holds h := h.reopen

/-! ## Later contents -/

namespace TransientStore

variable {t t' t'' : TransientStore} {touched : String → Nat → Prop} {a : Allocation}

/-- A later content: more heap objects, otherwise the same rows and allocations. -/
structure Grows (t t' : TransientStore) : Prop where
  heap : t.heap <+: t'.heap
  tables : t'.tables = t.tables

theorem Grows.refl (t : TransientStore) : t.Grows t := ⟨List.prefix_refl _, rfl⟩

theorem Grows.trans (h : t.Grows t') (h' : t'.Grows t'') : t.Grows t'' :=
  ⟨h.heap.trans h'.heap, h'.tables.trans h.tables⟩

theorem Grows.grants (h : t.Grows t') : ∀ a, t.Grants a → t'.Grants a := by
  unfold Grants
  rw [h.tables]
  exact fun _ ha => ha

theorem grows_put {content : Bytes} {handle : Handle} (h : t.put content = .ok (handle, t')) :
    t.Grows t' := by
  obtain ⟨-, rfl⟩ := put_eq h
  exact ⟨List.prefix_append _ _, rfl⟩

/-- A new handle leads to the same answer, whatever is put on the heap later. -/
theorem get_of_put {content : Bytes} {handle : Handle} (h : t.put content = .ok (handle, t'))
    (hlater : t'.heap <+: t''.heap) : t''.get handle = t'.get handle := by
  obtain ⟨hk, rfl⟩ := put_eq h
  obtain ⟨hkey, -, -⟩ := Handle.key?_of_ofKey? hk
  have hbound : (UInt64.ofNat t.heap.length).toNat < (t.heap ++ [content]).length := by
    rw [List.length_append, List.length_singleton]
    exact Nat.lt_succ_of_le (Nat.mod_le _ _)
  obtain ⟨rest, hrest⟩ := hlater
  unfold get
  rw [hkey, Option.bind_some, Option.bind_some, ← hrest, List.getElem?_append_left hbound]

/-- A later content: heap objects and allocations stay, and so do rows that were not touched. -/
structure Spares (touched : String → Nat → Prop) (t t' : TransientStore) : Prop where
  heap : t.heap <+: t'.heap
  grants : ∀ a, t.Grants a → t'.Grants a
  row : ∀ a index, ¬touched a.name index → t.Grants a → t'.readRow a index = t.readRow a index

theorem Spares.refl (touched : String → Nat → Prop) (t : TransientStore) : Spares touched t t :=
  ⟨List.prefix_refl _, fun _ ha => ha, fun _ _ _ _ => rfl⟩

theorem Spares.trans (h : Spares touched t t') (h' : Spares touched t' t'') :
    Spares touched t t'' where
  heap := h.heap.trans h'.heap
  grants a ha := h'.grants a (h.grants a ha)
  row a index hother ha :=
    (h'.row a index hother (h.grants a ha)).trans (h.row a index hother ha)

theorem Spares.mono (h : Spares touched t t') {more : String → Nat → Prop}
    (hmore : ∀ name index, touched name index → more name index) : Spares more t t' where
  heap := h.heap
  grants := h.grants
  row a index hother := h.row a index fun htouched => hother (hmore _ _ htouched)

theorem Grows.spares (h : t.Grows t') (touched : String → Nat → Prop) : Spares touched t t' where
  heap := h.heap
  grants := h.grants
  row a _ _ _ := by
    unfold readRow
    rw [h.tables]

/-- A row is written, which is another one. -/
theorem readRow_insert {name : String} {table : Table}
    (htable : Assoc.get? name t.tables = some table) {index i : Nat} (row : Bytes)
    (hother : ¬(name = a.name ∧ i = index)) :
    readRow { t with
      tables := Assoc.insert name ⟨table.rowSize, Assoc.insert i row table.rows⟩ t.tables }
        a index = t.readRow a index := by
  unfold readRow
  dsimp only
  by_cases hname : a.name = name
  · rw [hname, Assoc.get?_insert_self, htable]
    dsimp only
    rw [Assoc.get?_insert_of_ne fun hindex => hother ⟨hname.symm, hindex.symm⟩]
  · rw [Assoc.get?_insert_of_ne hname]

end TransientStore

/-- The row of a type that an operation writes. -/
def StoreCall.Touches : StoreCall → String → Nat → Prop
  | writeRow a i _, name, index => a.name = name ∧ i = index
  | _, _, _ => False

theorem StoreCall.Touches.allocation {call : StoreCall} {name : String} {index : Nat}
    (h : call.Touches name index) : ∃ a, call.allocation? = some a := by
  cases call with
  | writeRow a i row => exact ⟨a, rfl⟩
  | _ => exact h.elim

namespace TransientStore

variable {t : TransientStore} {a : Allocation} {index : Nat}

/-- **An operation spares every row but the one it writes.** -/
theorem spares_answer (t : TransientStore) (call : StoreCall) :
    Spares call.Touches t (call.answer t).2 := by
  refine ⟨?_, fun a ha => ha.answer call, ?_⟩
  · cases call with
    | put content =>
      simp only [StoreCall.answer, Heap.put]
      rcases hput : t.put content with e | ⟨handle, t'⟩
      · exact List.prefix_refl _
      · exact (grows_put hput).heap
    | allocate name rowSize =>
      simp only [StoreCall.answer, RecordStore.allocate, TransientStore.allocate]
      split
      · split <;> exact List.prefix_refl _
      · exact List.prefix_refl _
    | writeRow b i row =>
      simp only [StoreCall.answer, RecordStore.writeRow, TransientStore.writeRow]
      split
      · split <;> exact List.prefix_refl _
      · exact List.prefix_refl _
    | register d =>
      obtain ⟨entries, hafter⟩ := t.exists_answer_register d
      exact ⟨[], by rw [List.append_nil, hafter]⟩
    | _ => exact List.prefix_refl _
  · intro a index hother ha
    cases call with
    | put content =>
      simp only [StoreCall.answer, Heap.put]
      rcases hput : t.put content with e | ⟨handle, t'⟩
      · rfl
      · exact ((grows_put hput).spares fun _ _ => False).row a index not_false ha
    | allocate name rowSize =>
      simp only [StoreCall.answer, RecordStore.allocate, TransientStore.allocate]
      cases htable : Assoc.get? name t.tables with
      | some table =>
        dsimp only
        split <;> rfl
      | none =>
        obtain ⟨table, hold, -⟩ := ha.exists_table
        have hne : a.name ≠ name := by
          rintro rfl
          cases htable.symm.trans hold
        simp only [StoreCall.settle, readRow, Assoc.get?_insert_of_ne hne]
    | writeRow b i row =>
      simp only [StoreCall.answer, RecordStore.writeRow, TransientStore.writeRow]
      cases htable : Assoc.get? b.name t.tables with
      | none => rfl
      | some table =>
        dsimp only
        split
        · exact readRow_insert htable row hother
        · rfl
    | register d =>
      obtain ⟨entries, hafter⟩ := t.exists_answer_register d
      rw [hafter]
      rfl
    | _ => rfl

/-- A later content: operations lead to it, and those that write rows write some of them only. -/
inductive Reaches (touched : String → Nat → Prop) (t : TransientStore) : TransientStore → Prop
  | refl : Reaches touched t t
  | answer {t' : TransientStore} (h : Reaches touched t t') (call : StoreCall)
      (hcall : ∀ name index, call.Touches name index → touched name index) :
      Reaches touched t (call.answer t').2

namespace Reaches

variable {touched : String → Nat → Prop} {t' t'' : TransientStore}

/-- One operation leads to the content after it. -/
theorem of_answer (t : TransientStore) (call : StoreCall) :
    Reaches call.Touches t (call.answer t).2 := refl.answer call fun _ _ h => h

theorem trans (h : Reaches touched t t') (h' : Reaches touched t' t'') : Reaches touched t t'' := by
  induction h' with
  | refl => exact h
  | answer _ call hcall ih => exact ih.answer call hcall

theorem mono (h : Reaches touched t t') {more : String → Nat → Prop}
    (hmore : ∀ name index, touched name index → more name index) : Reaches more t t' := by
  induction h with
  | refl => exact .refl
  | answer _ call hcall ih => exact ih.answer call fun name i ht => hmore name i (hcall name i ht)

/-- **Operations spare the rows that none of them writes.** -/
theorem spares (h : Reaches touched t t') : Spares touched t t' := by
  induction h with
  | refl => exact .refl touched t
  | answer _ call hcall ih => exact ih.trans ((spares_answer _ call).mono hcall)

end Reaches

theorem eq_of_answer_allocate {name : String} {rowSize : Nat}
    (h : ((StoreCall.allocate name rowSize).answer t).1 = .allocation (.ok a)) :
    a = ⟨name, rowSize⟩ := by
  simp only [StoreCall.answer, RecordStore.allocate, TransientStore.allocate] at h
  split at h
  · split at h
    · cases h
      rfl
    · cases h
  · cases h
    rfl

/-- A row is written exactly if it has the size of its allocation. -/
theorem answer_writeRow_done (ha : t.Grants a) {row : Bytes} :
    ((StoreCall.writeRow a index row).answer t).1 = .done (.ok ()) ↔ row.length = a.rowSize := by
  obtain ⟨table, htable, hsize⟩ := ha.exists_table
  simp only [StoreCall.answer, RecordStore.writeRow, TransientStore.writeRow, htable, ← hsize]
  split
  · rename_i hrow
    exact iff_of_true rfl hrow
  · rename_i hrow
    refine iff_of_false ?_ hrow
    rintro ⟨⟩

/-- A row that was written is read. -/
theorem readRow_answer_writeRow (ha : t.Grants a) {row : Bytes} (hrow : row.length = a.rowSize) :
    ((StoreCall.writeRow a index row).answer t).2.readRow a index = .ok row := by
  obtain ⟨table, htable, hsize⟩ := ha.exists_table
  simp only [StoreCall.answer, RecordStore.writeRow, TransientStore.writeRow, htable, hsize,
    if_pos hrow, Except.map, StoreCall.settle, readRow, Assoc.get?_insert_self, Option.getD_some]

end TransientStore

/-! ## Operations of a store -/

namespace MirroredStore

variable {σ : Type} [RecordStore σ] [Catalog σ] [MirroredStore σ] {store store' : σ}
  {t : TransientStore} {a : Allocation}

open TransientStore

/-- What a store puts on its heap is put on the heap of its content, under the same handle. -/
theorem put_holds (h : Holds store t) {content : Bytes} {handle : Handle}
    (hput : Heap.put store content = .ok (handle, store')) :
    ∃ t', t.put content = .ok (handle, t') ∧ Holds store' t' := by
  obtain ⟨hreply, hafter⟩ := answer_holds h (.put content) nofun
  simp only [StoreCall.answer, hput, StoreCall.settle] at hreply hafter
  rcases hput' : (Heap.put t content) with e | ⟨handle', t'⟩ <;>
    simp only [hput', StoreReply.handle.injEq] at hreply hafter
  · cases hreply
  cases hreply
  exact ⟨t', hput', hafter⟩

theorem get_holds (h : Holds store t) (handle : Handle) : Heap.get store handle = t.get handle :=
  StoreReply.bytes.inj (answer_holds h (.get handle) nofun).1

/-- An allocation that a store gives has the size asked for and is one of its content. -/
theorem allocate_holds (h : Holds store t) {name : String} {rowSize : Nat}
    (ha : RecordStore.allocate store name rowSize = .ok (a, store')) :
    a = ⟨name, rowSize⟩ ∧ Holds store' ((StoreCall.allocate name rowSize).answer t).2 ∧
      ((StoreCall.allocate name rowSize).answer t).2.Grants a := by
  obtain ⟨hreply, hafter⟩ := answer_holds h (.allocate name rowSize) nofun
  have hanswer : (StoreCall.allocate name rowSize).answer store =
      (.allocation (.ok a), store') := by
    simp only [StoreCall.answer, ha, StoreCall.settle]
  rw [hanswer] at hreply hafter
  exact ⟨eq_of_answer_allocate hreply.symm, hafter, grants_of_reply hreply.symm⟩

theorem register_holds (h : Holds store t) {d : Description}
    (hd : Catalog.register store d = .ok store') :
    Holds store' ((StoreCall.register d).answer t).2 := by
  have hafter := (answer_holds h (.register d) nofun).2
  have hanswer : (StoreCall.register d).answer store = (.done (.ok ()), store') := by
    simp only [StoreCall.answer, hd, Except.map, StoreCall.settle]
  rwa [hanswer] at hafter

theorem readRow_holds (h : Holds store t) (ha : t.Grants a) (index : Nat) :
    (RecordStore.readRow store a index).1 = t.readRow a index ∧
      Holds (RecordStore.readRow store a index).2 t := by
  obtain ⟨hreply, hafter⟩ := answer_holds h (.readRow a index) fun b hb => by
    cases hb
    exact ha
  exact ⟨StoreReply.bytes.inj hreply, hafter⟩

/-- A row of the size of its allocation is written, any other is refused. -/
theorem writeRow_holds (h : Holds store t) (ha : t.Grants a) (index : Nat) (row : Bytes) :
    (row.length ≠ a.rowSize ∧ ∃ e, RecordStore.writeRow store a index row = .error e) ∨
    (row.length = a.rowSize ∧ ∃ store', RecordStore.writeRow store a index row = .ok store' ∧
      Holds store' ((StoreCall.writeRow a index row).answer t).2) := by
  obtain ⟨hreply, hafter⟩ := answer_holds h (.writeRow a index row) fun b hb => by
    cases hb
    exact ha
  rcases hwrite : RecordStore.writeRow store a index row with e | store'
  · have hanswer : (StoreCall.writeRow a index row).answer store = (.done (.error e), store) := by
      simp only [StoreCall.answer, hwrite, Except.map, StoreCall.settle]
    rw [hanswer] at hreply
    refine .inl ⟨fun hrow => ?_, e, rfl⟩
    cases hreply.trans ((answer_writeRow_done ha).2 hrow)
  · have hanswer : (StoreCall.writeRow a index row).answer store = (.done (.ok ()), store') := by
      simp only [StoreCall.answer, hwrite, Except.map, StoreCall.settle]
    rw [hanswer] at hreply hafter
    exact .inr ⟨(answer_writeRow_done ha).1 hreply.symm, store', rfl, hafter⟩

end MirroredStore

end PackedRecord
