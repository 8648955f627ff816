import Mathlib.Data.List.ReduceOption
import Mathlib.Data.String.Basic
import Mathlib.Order.RelClasses
import PackedRecord.Proofs.SortedMaps
import PackedRecord.Store.Durable
import PackedRecord.Store.Transient

/-!
# Both stores answer alike

A store in memory and a store in a file keep their state in different ways, and the latter
remembers some rows in a cache.  `Mirrors` relates their states: heap objects lie under their
positions, row sizes and rows are those of the tables, the catalogs give the same descriptions, and
each cached row is the row itself.

* `StoreCall.answer_mirrors` — one operation is answered alike and keeps the relation, if the
  allocation it uses was granted.
* `stores_answer_alike` — all answers are alike from the empty stores on, wherever the store in
  the file is closed and opened again, and however many rows it remembers.
-/

namespace PackedRecord

/-! ## Operations as data -/

/-- An operation of a store. -/
inductive StoreCall where
  | put (content : Bytes)
  | get (handle : Handle)
  | allocate (name : String) (rowSize : Nat)
  | readRow (allocation : Allocation) (index : Nat)
  | writeRow (allocation : Allocation) (index : Nat) (row : Bytes)
  | rowCount (allocation : Allocation)
  | register (description : Description)
  | lookup (name : String)
  | typeNames

/-- What a store answers. -/
inductive StoreReply where
  | handle (result : Except Error Handle)
  | bytes (result : Except Error Bytes)
  | allocation (result : Except Error Allocation)
  | done (result : Except Error Unit)
  | count (result : Except Error Nat)
  | description (found : Option Description)
  | names (all : List String)

namespace StoreCall

/-- The allocation an operation uses. -/
def allocation? : StoreCall → Option Allocation
  | readRow a _ => some a
  | writeRow a _ _ => some a
  | rowCount a => some a
  | _ => none

variable {σ : Type} [RecordStore σ] [Catalog σ]

/-- The result of an operation and the state after it; one that fails changes nothing. -/
def settle {α : Type} (store : σ) : Except Error (α × σ) → Except Error α × σ
  | .ok (a, store) => (.ok a, store)
  | .error e => (.error e, store)

/-- Carry out an operation. -/
def answer (store : σ) : StoreCall → StoreReply × σ
  | put content =>
    let (result, store) := settle store (Heap.put store content)
    (.handle result, store)
  | get handle => (.bytes (Heap.get store handle), store)
  | allocate name rowSize =>
    let (result, store) := settle store (RecordStore.allocate store name rowSize)
    (.allocation result, store)
  | readRow a index =>
    let (result, store) := RecordStore.readRow store a index
    (.bytes result, store)
  | writeRow a index row =>
    let (result, store) := settle store ((RecordStore.writeRow store a index row).map ((), ·))
    (.done result, store)
  | rowCount a => (.count (RecordStore.rowCount store a), store)
  | register d =>
    let (result, store) := settle store ((Catalog.register store d).map ((), ·))
    (.done result, store)
  | lookup name => (.description (Catalog.lookup store name), store)
  | typeNames => (.names (Catalog.typeNames store), store)

/-- Answers to some operations in order. -/
def answers : List StoreCall → σ → List StoreReply
  | [], _ => []
  | call :: rest, store => (call.answer store).1 :: answers rest (call.answer store).2

/-- Answers to some operations in order; at each `none` the store is closed and opened again. -/
def answersReopening : List (Option StoreCall) → σ → List StoreReply
  | [], _ => []
  | none :: rest, store => answersReopening rest (RecordStore.reopen store)
  | some call :: rest, store =>
    (call.answer store).1 :: answersReopening rest (call.answer store).2

end StoreCall

/-- Every allocation an operation uses was an earlier answer. -/
def AllocationsReturned (calls : List StoreCall) (replies : List StoreReply) : Prop :=
  ∀ (i : Nat) (call : StoreCall) (a : Allocation), calls[i]? = some call →
    call.allocation? = some a → ∃ j < i, replies[j]? = some (.allocation (.ok a))

/-! ## Related states -/

/-- Heap objects under their positions. -/
structure Keyed (objects : Assoc Nat Bytes) (contents : List Bytes) : Prop where
  get : ∀ key, Assoc.get? key objects = contents[key]?
  below : ∀ e ∈ objects, e.1 < contents.length
  next : nextIndex objects = contents.length

/-- A table has the descriptions of a map without an order, in the order of their names. -/
structure Catalogued (table : Assoc String Description)
    (entries : List (String × Description)) : Prop where
  get : ∀ name, Assoc.get? name table = Assoc.get? name entries
  names : table.keys.Perm (entries.map Prod.fst)
  ascending : table.Ascending

/-- The store in a file holds what the store in memory does. -/
structure Mirrors (d : DurableStore) (t : TransientStore) : Prop where
  heap : Keyed d.heap t.heap
  allocations : ∀ name, Assoc.get? name d.allocations = (Assoc.get? name t.tables).map Table.rowSize
  rows : ∀ name, d.rowsOf name = ((Assoc.get? name t.tables).map Table.rows).getD []
  catalog : Catalogued d.catalog t.catalog
  /-- A cached row is the row. -/
  cache : ∀ e ∈ d.cache.entries, Assoc.get? e.1.2 (d.rowsOf e.1.1) = some e.2

/-- The allocation is one of the store. -/
def TransientStore.Grants (t : TransientStore) (a : Allocation) : Prop :=
  (Assoc.get? a.name t.tables).map Table.rowSize = some a.rowSize

/-! ## Heaps -/

namespace Keyed

variable {objects : Assoc Nat Bytes} {contents : List Bytes}

theorem nil : Keyed [] [] :=
  ⟨fun _ => rfl, fun _ he => absurd he List.not_mem_nil, rfl⟩

/-- The next object gets the next position. -/
theorem append (h : Keyed objects contents) (content : Bytes) :
    Keyed (Assoc.insert contents.length content objects) (contents ++ [content]) := by
  refine ⟨?_, ?_, ?_⟩
  · intro key
    by_cases hkey : key = contents.length
    · subst hkey
      rw [Assoc.get?_insert_self, List.getElem?_concat_length]
    · rw [Assoc.get?_insert_of_ne hkey, h.get]
      rcases Nat.lt_or_gt_of_ne hkey with hlt | hgt
      · rw [List.getElem?_append_left hlt]
      · rw [List.getElem?_eq_none (by omega), List.getElem?_eq_none]
        rw [List.length_append, List.length_singleton]
        omega
  · intro e he
    rw [List.length_append, List.length_singleton]
    rcases Assoc.mem_insert he with rfl | he
    · exact Nat.lt_succ_self _
    · exact Nat.lt_succ_of_lt (h.below e he)
  · rw [Assoc.insert_of_above h.below, nextIndex, List.getLast?_concat, List.length_append]
    rfl

end Keyed

/-! ## Catalogs -/

namespace Catalogued

variable {table : Assoc String Description} {entries : List (String × Description)}

theorem nil : Catalogued [] [] := ⟨fun _ => rfl, .refl _, Assoc.ascending_nil⟩

/-- A new description goes to its place in the table, and anywhere in the map. -/
theorem enter (h : Catalogued table entries) {d : Description}
    (hnew : Assoc.get? d.name entries = none) :
    Catalogued (Assoc.insert d.name d table) ((d.name, d) :: entries) := by
  refine ⟨fun name => ?_, ?_, Assoc.ascending_insert h.ascending ..⟩
  · rw [Assoc.get?]
    split
    · rename_i hname
      rw [hname, Assoc.get?_insert_self]
    · rename_i hname
      rw [Assoc.get?_insert_of_ne hname, h.get]
  · have hkey : d.name ∉ table.keys := by
      rw [← Assoc.isSome_get?_iff, h.get, hnew]
      exact Bool.false_ne_true
    have hperm := (Assoc.perm_insert hkey d).map Prod.fst
    exact hperm.trans (h.names.cons _)

/-- Names that are sorted are those of the table in order. -/
theorem keys_eq (h : Catalogued table entries) :
    table.keys = (entries.map Prod.fst).mergeSort TransientStore.nameLe := by
  have htrans : ∀ name other third : String, TransientStore.nameLe name other = true →
      TransientStore.nameLe other third = true → TransientStore.nameLe name third = true := by
    simpa [TransientStore.nameLe] using fun _ _ _ => le_trans
  have htotal : ∀ name other : String,
      (TransientStore.nameLe name other || TransientStore.nameLe other name) = true := by
    simpa [TransientStore.nameLe] using le_total
  have hpairs := List.pairwise_mergeSort htrans htotal (entries.map Prod.fst)
  have hperm := List.mergeSort_perm (entries.map Prod.fst) TransientStore.nameLe
  have hascending : table.keys.Pairwise (· ≤ ·) := h.ascending.imp le_of_lt
  exact (h.names.trans hperm.symm).eq_of_pairwise (fun _ _ _ _ => le_antisymm) hascending
    (hpairs.imp of_decide_eq_true)

end Catalogued

/-! ## Caches -/

namespace RowCache

variable {κ : Type} [DecidableEq κ]

/-- A cache keeps nothing but the new row and rows under other keys. -/
theorem mem_put {cache : RowCache κ} {key : κ} {row : Bytes} {e : κ × Bytes}
    (h : e ∈ (cache.put key row).entries) : e = (key, row) ∨ e ∈ cache.entries ∧ e.1 ≠ key := by
  rcases List.mem_cons.1 (List.mem_of_mem_take h) with h | h
  · exact .inl h
  · rw [List.mem_filter, decide_eq_true_iff] at h
    exact .inr h

/-- A row that is found is one that is kept; it moves to the front. -/
theorem get?_eq {cache later : RowCache κ} {key : κ} {row : Bytes}
    (h : cache.get? key = some (row, later)) :
    (key, row) ∈ cache.entries ∧ later = cache.put key row := by
  unfold get? at h
  cases hfind : cache.entries.find? fun e => e.1 = key with
  | none =>
    rw [hfind] at h
    cases h
  | some e =>
    obtain ⟨k, r⟩ := e
    rw [hfind] at h
    cases h
    have hk : k = key := by simpa using List.find?_some hfind
    subst hk
    exact ⟨List.mem_of_find?_eq_some hfind, rfl⟩

end RowCache

/-! ## One operation -/

namespace Mirrors

variable {d : DurableStore} {t : TransientStore}

/-- Empty stores hold the same: nothing. -/
theorem empty (capacity : Nat) : Mirrors (DurableStore.empty capacity) {} :=
  ⟨.nil, fun _ => rfl, fun _ => rfl, .nil, fun _ he => absurd he List.not_mem_nil⟩

/-- What is kept survives closing; what is remembered does not. -/
theorem reopen (h : Mirrors d t) : Mirrors (RecordStore.reopen d) t :=
  ⟨h.heap, h.allocations, h.rows, h.catalog, fun _ he => absurd he List.not_mem_nil⟩

/-- Remembering a row that is kept changes nothing else. -/
theorem remember (h : Mirrors d t) {name : String} {index : Nat} {row : Bytes}
    (hrow : Assoc.get? index (d.rowsOf name) = some row) :
    Mirrors { d with cache := d.cache.put (name, index) row } t := by
  refine ⟨h.heap, h.allocations, h.rows, h.catalog, ?_⟩
  intro e he
  rcases RowCache.mem_put he with rfl | ⟨he, -⟩
  · exact hrow
  · exact h.cache e he

/-- Content is put on both heaps under the same handle. -/
theorem put (h : Mirrors d t) (content : Bytes) :
    ((StoreCall.put content).answer d).1 = ((StoreCall.put content).answer t).1 ∧
      Mirrors ((StoreCall.put content).answer d).2 ((StoreCall.put content).answer t).2 := by
  have hkey : d.nextKey = t.heap.length := h.heap.next
  cases hof : Handle.ofKey (UInt64.ofNat t.heap.length) content.length with
  | error e =>
    simp only [StoreCall.answer, StoreCall.settle, Heap.put, DurableStore.put, TransientStore.put,
      hkey, hof, Except.map, true_and]
    exact h
  | ok handle =>
    simp only [StoreCall.answer, StoreCall.settle, Heap.put, DurableStore.put, TransientStore.put,
      hkey, hof, Except.map, true_and]
    exact ⟨h.heap.append content, h.allocations, h.rows, h.catalog, h.cache⟩

/-- A handle leads to the same content, or nowhere. -/
theorem get (h : Mirrors d t) (handle : Handle) : d.get handle = t.get handle := by
  unfold DurableStore.get TransientStore.get
  cases handle.key? with
  | none => rfl
  | some key =>
    rcases hfound : t.heap[key.toNat]? with _ | content <;>
      simp only [Option.bind_some, h.heap.get, hfound]

/-- A type gets its allocation from both stores, or conflicts with the one it has. -/
theorem allocate (h : Mirrors d t) (name : String) (rowSize : Nat) :
    ((StoreCall.allocate name rowSize).answer d).1 =
      ((StoreCall.allocate name rowSize).answer t).1 ∧
    Mirrors ((StoreCall.allocate name rowSize).answer d).2
      ((StoreCall.allocate name rowSize).answer t).2 := by
  have hallocation := h.allocations name
  cases htable : Assoc.get? name t.tables with
  | some table =>
    rw [htable, Option.map_some] at hallocation
    simp only [StoreCall.answer, RecordStore.allocate, DurableStore.allocate,
      TransientStore.allocate, hallocation, htable]
    by_cases hsize : table.rowSize = rowSize
    · rw [if_pos hsize, if_pos hsize]
      exact ⟨rfl, h⟩
    · rw [if_neg hsize, if_neg hsize]
      exact ⟨rfl, h⟩
  | none =>
    rw [htable, Option.map_none] at hallocation
    simp only [StoreCall.answer, StoreCall.settle, RecordStore.allocate, DurableStore.allocate,
      TransientStore.allocate, hallocation, htable, true_and]
    refine ⟨h.heap, ?_, ?_, h.catalog, h.cache⟩
    · intro other
      by_cases hother : other = name
      · subst hother
        rw [Assoc.get?_insert_self, Assoc.get?_insert_self]
        rfl
      · rw [Assoc.get?_insert_of_ne hother, Assoc.get?_insert_of_ne hother]
        exact h.allocations other
    · intro other
      by_cases hother : other = name
      · subst hother
        have hrows := h.rows other
        rw [htable] at hrows
        rw [Assoc.get?_insert_self]
        exact hrows
      · rw [Assoc.get?_insert_of_ne hother]
        exact h.rows other

end Mirrors

/-- Table of an allocation that was granted. -/
theorem TransientStore.Grants.exists_table {t : TransientStore} {a : Allocation}
    (h : t.Grants a) : ∃ table, Assoc.get? a.name t.tables = some table ∧
      table.rowSize = a.rowSize := Option.map_eq_some_iff.1 h

namespace Mirrors

variable {d : DurableStore} {t : TransientStore} {a : Allocation}

/-- A row is read alike, whether it is remembered, kept, or was never written. -/
theorem readRow (h : Mirrors d t) (hgranted : t.Grants a) (index : Nat) :
    (d.readRow a index).1 = t.readRow a index ∧ Mirrors (d.readRow a index).2 t := by
  obtain ⟨table, htable, hsize⟩ := hgranted.exists_table
  have hrows := h.rows a.name
  rw [htable, Option.map_some, Option.getD_some] at hrows
  have hallocation := h.allocations a.name
  rw [htable, Option.map_some] at hallocation
  simp only [TransientStore.readRow, htable]
  unfold DurableStore.readRow
  cases hcached : d.cache.get? (a.name, index) with
  | some found =>
    obtain ⟨row, later⟩ := found
    obtain ⟨hmem, rfl⟩ := RowCache.get?_eq hcached
    have hrow : Assoc.get? index (d.rowsOf a.name) = some row := h.cache _ hmem
    refine ⟨?_, h.remember hrow⟩
    rw [← hrows, hrow]
    rfl
  | none =>
    dsimp only
    rw [if_pos (by rw [hallocation]; rfl)]
    cases hrow : Assoc.get? index (d.rowsOf a.name) with
    | some row =>
      refine ⟨?_, h.remember hrow⟩
      rw [← hrows, hrow]
      rfl
    | none =>
      refine ⟨?_, h⟩
      rw [← hrows, hrow, hsize]
      rfl

/-- The rows of a type become the old ones and the new one, those of other types stay. -/
theorem written (h : Mirrors d t) {table : Table} (htable : Assoc.get? a.name t.tables = some table)
    (index : Nat) (row : Bytes) :
    Mirrors
      { d with
        rows := Assoc.insert a.name (Assoc.insert index row (d.rowsOf a.name)) d.rows
        cache := d.cache.put (a.name, index) row }
      { t with
        tables := Assoc.insert a.name ⟨table.rowSize, Assoc.insert index row table.rows⟩
          t.tables } := by
  have hrows := h.rows a.name
  rw [htable, Option.map_some, Option.getD_some] at hrows
  have hself : (Assoc.get? a.name (Assoc.insert a.name (Assoc.insert index row (d.rowsOf a.name))
      d.rows)).getD [] = Assoc.insert index row (d.rowsOf a.name) := by
    rw [Assoc.get?_insert_self, Option.getD_some]
  have hother : ∀ {name : String}, name ≠ a.name → (Assoc.get? name (Assoc.insert a.name
      (Assoc.insert index row (d.rowsOf a.name)) d.rows)).getD [] = d.rowsOf name := by
    intro name hname
    rw [Assoc.get?_insert_of_ne hname, DurableStore.rowsOf]
  refine ⟨h.heap, ?_, ?_, h.catalog, ?_⟩
  · intro name
    by_cases hname : name = a.name
    · subst hname
      rw [Assoc.get?_insert_self, h.allocations, htable]
      rfl
    · rw [Assoc.get?_insert_of_ne hname]
      exact h.allocations name
  · intro name
    by_cases hname : name = a.name
    · subst hname
      rw [Assoc.get?_insert_self, DurableStore.rowsOf, hself, hrows]
      rfl
    · rw [Assoc.get?_insert_of_ne hname, DurableStore.rowsOf, hother hname]
      exact h.rows name
  · intro e he
    rw [DurableStore.rowsOf]
    rcases RowCache.mem_put he with rfl | ⟨he, hkey⟩
    · rw [hself, Assoc.get?_insert_self]
    · by_cases hname : e.1.1 = a.name
      · have hindex : e.1.2 ≠ index := fun hi => hkey (Prod.ext hname hi)
        rw [hname, hself, Assoc.get?_insert_of_ne hindex, ← hname]
        exact h.cache e he
      · rw [hother hname]
        exact h.cache e he

/-- A row is written to both stores, or refused by both. -/
theorem writeRow (h : Mirrors d t) (a : Allocation) (index : Nat) (row : Bytes) :
    ((StoreCall.writeRow a index row).answer d).1 =
      ((StoreCall.writeRow a index row).answer t).1 ∧
    Mirrors ((StoreCall.writeRow a index row).answer d).2
      ((StoreCall.writeRow a index row).answer t).2 := by
  have hallocation := h.allocations a.name
  cases htable : Assoc.get? a.name t.tables with
  | none =>
    rw [htable, Option.map_none] at hallocation
    simp only [StoreCall.answer, RecordStore.writeRow, DurableStore.writeRow,
      TransientStore.writeRow, hallocation, htable]
    exact ⟨rfl, h⟩
  | some table =>
    rw [htable, Option.map_some] at hallocation
    simp only [StoreCall.answer, RecordStore.writeRow, DurableStore.writeRow,
      TransientStore.writeRow, hallocation, htable]
    by_cases hsize : row.length = table.rowSize
    · rw [if_pos hsize, if_pos hsize]
      exact ⟨rfl, h.written htable index row⟩
    · rw [if_neg hsize, if_neg hsize]
      exact ⟨rfl, h⟩

/-- Rows are counted alike. -/
theorem rowCount (h : Mirrors d t) (hgranted : t.Grants a) :
    RecordStore.rowCount d a = t.rowCount a := by
  obtain ⟨table, htable, -⟩ := hgranted.exists_table
  have hrows := h.rows a.name
  rw [htable, Option.map_some, Option.getD_some] at hrows
  simp only [RecordStore.rowCount, TransientStore.rowCount, htable, hrows]

/-- A description is kept in both catalogs, or conflicts with the one in both. -/
theorem register (h : Mirrors d t) (description : Description) :
    ((StoreCall.register description).answer d).1 =
      ((StoreCall.register description).answer t).1 ∧
    Mirrors ((StoreCall.register description).answer d).2
      ((StoreCall.register description).answer t).2 := by
  simp only [StoreCall.answer, Catalog.register, DurableStore.register, DurableStore.lookup,
    TransientStore.register, h.catalog.get]
  cases hfound : Assoc.get? description.name t.catalog with
  | some existing =>
    dsimp only
    cases existing.equal description <;> exact ⟨rfl, h⟩
  | none => exact ⟨rfl, h.heap, h.allocations, h.rows, h.catalog.enter hfound, h.cache⟩

end Mirrors

namespace StoreCall

/-- **An operation is answered alike by related stores, and leaves related stores**, if the
allocation it uses was granted. -/
theorem answer_mirrors {d : DurableStore} {t : TransientStore} (h : Mirrors d t)
    (call : StoreCall) (hgranted : ∀ a, call.allocation? = some a → t.Grants a) :
    (call.answer d).1 = (call.answer t).1 ∧ Mirrors (call.answer d).2 (call.answer t).2 := by
  cases call with
  | put content => exact h.put content
  | get handle => exact ⟨congrArg StoreReply.bytes (h.get handle), h⟩
  | allocate name rowSize => exact h.allocate name rowSize
  | readRow a index =>
    obtain ⟨hrow, hafter⟩ := h.readRow (hgranted a rfl) index
    exact ⟨congrArg StoreReply.bytes hrow, hafter⟩
  | writeRow a index row => exact h.writeRow a index row
  | rowCount a => exact ⟨congrArg StoreReply.count (h.rowCount (hgranted a rfl)), h⟩
  | register description => exact h.register description
  | lookup name => exact ⟨congrArg StoreReply.description (h.catalog.get name), h⟩
  | typeNames => exact ⟨congrArg StoreReply.names h.catalog.keys_eq, h⟩

end StoreCall

/-! ## Registering a type -/

/-- Registering a type changes nothing but the catalog. -/
theorem TransientStore.exists_answer_register (t : TransientStore) (description : Description) :
    ∃ entries, ((StoreCall.register description).answer t).2 = { t with catalog := entries } := by
  simp only [StoreCall.answer, Catalog.register, TransientStore.register]
  cases Assoc.get? description.name t.catalog with
  | some existing =>
    refine ⟨t.catalog, ?_⟩
    dsimp only
    cases existing.equal description <;> rfl
  | none => exact ⟨_, rfl⟩

theorem DurableStore.exists_answer_register (d : DurableStore) (description : Description) :
    ∃ table, ((StoreCall.register description).answer d).2 = { d with catalog := table } := by
  simp only [StoreCall.answer, Catalog.register, DurableStore.register]
  cases d.lookup description.name with
  | some existing =>
    refine ⟨d.catalog, ?_⟩
    dsimp only
    cases existing.equal description <;> rfl
  | none => exact ⟨_, rfl⟩

/-! ## Allocations stay granted -/

namespace TransientStore

variable {t : TransientStore} {a : Allocation}

/-- Operations change the table of no type but their own, and its row size never. -/
theorem Grants.answer (h : t.Grants a) (call : StoreCall) : (call.answer t).2.Grants a := by
  cases call with
  | put content =>
    simp only [StoreCall.answer, Heap.put, TransientStore.put]
    cases Handle.ofKey (UInt64.ofNat t.heap.length) content.length <;> exact h
  | allocate name rowSize =>
    simp only [StoreCall.answer, RecordStore.allocate, TransientStore.allocate]
    cases htable : Assoc.get? name t.tables with
    | some table =>
      by_cases hsize : table.rowSize = rowSize
      · simp only [if_pos hsize]
        exact h
      · simp only [if_neg hsize]
        exact h
    | none =>
      obtain ⟨table, hold, -⟩ := h.exists_table
      have hne : a.name ≠ name := by
        rintro rfl
        cases htable.symm.trans hold
      have hkept : Assoc.get? a.name (Assoc.insert name ⟨rowSize, []⟩ t.tables) =
          Assoc.get? a.name t.tables := Assoc.get?_insert_of_ne hne _ _
      exact (congrArg (Option.map Table.rowSize) hkept).trans h
  | writeRow b index row =>
    simp only [StoreCall.answer, RecordStore.writeRow, TransientStore.writeRow]
    cases htable : Assoc.get? b.name t.tables with
    | none => exact h
    | some table =>
      by_cases hsize : row.length = table.rowSize
      · simp only [if_pos hsize]
        by_cases hname : a.name = b.name
        · have hnew : Assoc.get? a.name (Assoc.insert b.name
              ⟨table.rowSize, Assoc.insert index row table.rows⟩ t.tables) =
                some ⟨table.rowSize, Assoc.insert index row table.rows⟩ := by
            rw [hname, Assoc.get?_insert_self]
          obtain ⟨old, hold, hsize'⟩ := h.exists_table
          rw [hname, htable] at hold
          cases hold
          exact (congrArg (Option.map Table.rowSize) hnew).trans (congrArg some hsize')
        · have hkept : Assoc.get? a.name (Assoc.insert b.name
              ⟨table.rowSize, Assoc.insert index row table.rows⟩ t.tables) =
                Assoc.get? a.name t.tables := Assoc.get?_insert_of_ne hname _ _
          exact (congrArg (Option.map Table.rowSize) hkept).trans h
      · simp only [if_neg hsize]
        exact h
  | register d =>
    obtain ⟨entries, hafter⟩ := t.exists_answer_register d
    rw [hafter]
    exact h
  | get _ => exact h
  | readRow _ _ => exact h
  | rowCount _ => exact h
  | lookup _ => exact h
  | typeNames => exact h

/-- What was answered as an allocation is one. -/
theorem grants_of_reply {call : StoreCall}
    (h : (call.answer t).1 = .allocation (.ok a)) : (call.answer t).2.Grants a := by
  cases call with
  | allocate name rowSize =>
    simp only [StoreCall.answer, RecordStore.allocate, TransientStore.allocate] at h ⊢
    cases htable : Assoc.get? name t.tables with
    | some table =>
      simp only [htable] at h ⊢
      by_cases hsize : table.rowSize = rowSize
      · simp only [if_pos hsize, StoreCall.settle] at h ⊢
        cases h
        exact (congrArg (Option.map Table.rowSize) htable).trans (congrArg some hsize)
      · simp only [if_neg hsize, StoreCall.settle] at h
        cases h
    | none =>
      simp only [htable, StoreCall.settle] at h ⊢
      cases h
      have hnew : Assoc.get? name (Assoc.insert name ⟨rowSize, []⟩ t.tables) =
          some ⟨rowSize, []⟩ := Assoc.get?_insert_self _ _ _
      exact congrArg (Option.map Table.rowSize) hnew
  | put _ => cases h
  | get _ => cases h
  | readRow _ _ => cases h
  | writeRow _ _ _ => cases h
  | rowCount _ => cases h
  | register _ => cases h
  | lookup _ => cases h
  | typeNames => cases h

end TransientStore

/-! ## Runs -/

/-- Every allocation an operation uses is one of the store, or was an earlier answer. -/
def AllocationsGranted (t : TransientStore) (calls : List StoreCall)
    (replies : List StoreReply) : Prop :=
  ∀ (i : Nat) (call : StoreCall) (a : Allocation), calls[i]? = some call →
    call.allocation? = some a → t.Grants a ∨ ∃ j < i, replies[j]? = some (.allocation (.ok a))

namespace AllocationsGranted

variable {t : TransientStore} {call : StoreCall} {calls : List StoreCall}

/-- The first operation can only use an allocation of the store. -/
theorem head {replies : List StoreReply} (h : AllocationsGranted t (call :: calls) replies)
    {a : Allocation} (ha : call.allocation? = some a) : t.Grants a := by
  rcases h 0 call a rfl ha with h | ⟨j, hj, -⟩
  · exact h
  · exact absurd hj (Nat.not_lt_zero j)

/-- After an operation the store has what it had and what it has answered. -/
theorem tail {replies : List StoreReply}
    (h : AllocationsGranted t (call :: calls) ((call.answer t).1 :: replies)) :
    AllocationsGranted (call.answer t).2 calls replies := by
  intro i later a hlater ha
  rcases h (i + 1) later a hlater ha with hgranted | ⟨j, hj, hreturned⟩
  · exact .inl (hgranted.answer call)
  · cases j with
    | zero => exact .inl (TransientStore.grants_of_reply (Option.some.inj hreturned))
    | succ j => exact .inr ⟨j, Nat.lt_of_succ_lt_succ hj, hreturned⟩

end AllocationsGranted

/-- **Related stores answer alike**, through any number of reopenings, if one of them has granted
the allocations that are used. -/
theorem StoreCall.answersReopening_eq : ∀ {script : List (Option StoreCall)} {d : DurableStore}
    {t : TransientStore} {replies : List StoreReply}, Mirrors d t →
    AllocationsGranted t script.reduceOption replies →
    replies = answers script.reduceOption t ∨ replies = answersReopening script d →
    answersReopening script d = answers script.reduceOption t
  | [], _, _, _, _, _, _ => rfl
  | none :: script, d, t, replies, h, hgranted, hreplies => by
    rw [List.reduceOption_cons_of_none] at hgranted hreplies ⊢
    rw [answersReopening] at hreplies ⊢
    exact answersReopening_eq h.reopen hgranted hreplies
  | some call :: script, d, t, replies, h, hgranted, hreplies => by
    rw [List.reduceOption_cons_of_some] at hgranted hreplies ⊢
    obtain ⟨hreply, hafter⟩ := answer_mirrors h call fun a ha => hgranted.head ha
    rw [answersReopening, answers, hreply] at hreplies ⊢
    refine congrArg (List.cons _) ?_
    rcases hreplies with rfl | rfl
    · exact answersReopening_eq hafter hgranted.tail (.inl rfl)
    · exact answersReopening_eq hafter hgranted.tail (.inr rfl)

/-- **The two stores answer alike**, however many rows the one in the file remembers and
wherever it is closed and opened again, as long as allocations are used only once either store
has answered with them. -/
theorem stores_answer_alike (capacity : Nat) (script : List (Option StoreCall))
    (h : AllocationsReturned script.reduceOption
        (StoreCall.answers script.reduceOption ({} : TransientStore)) ∨
      AllocationsReturned script.reduceOption
        (StoreCall.answersReopening script (DurableStore.empty capacity))) :
    StoreCall.answersReopening script (DurableStore.empty capacity) =
      StoreCall.answers script.reduceOption ({} : TransientStore) := by
  rcases h with h | h
  · exact StoreCall.answersReopening_eq (.empty capacity)
      (fun i call a hcall ha => .inr (h i call a hcall ha)) (.inl rfl)
  · exact StoreCall.answersReopening_eq (.empty capacity)
      (fun i call a hcall ha => .inr (h i call a hcall ha)) (.inr rfl)

/-- A row that is written, forgotten and read again. -/
def reopeningScript : List (Option StoreCall) :=
  [some (.allocate "T" 1), some (.writeRow ⟨"T", 1⟩ 2 [7]), none, some (.readRow ⟨"T", 1⟩ 2),
    some (.rowCount ⟨"T", 1⟩)]

theorem stores_answer_alike_reopening :
    StoreCall.answersReopening reopeningScript (DurableStore.empty 1) =
      [.allocation (.ok ⟨"T", 1⟩), .done (.ok ()), .bytes (.ok [7]), .count (.ok 3)] := by
  have hreplies : StoreCall.answers reopeningScript.reduceOption ({} : TransientStore) =
      [.allocation (.ok ⟨"T", 1⟩), .done (.ok ()), .bytes (.ok [7]), .count (.ok 3)] := rfl
  rw [← hreplies]
  refine stores_answer_alike 1 reopeningScript (.inl ?_)
  intro i call a hcall ha
  rw [hreplies]
  rcases i with _ | i
  · cases hcall
    cases ha
  refine ⟨0, Nat.succ_pos i, ?_⟩
  rcases i with _ | _ | _ | i <;> cases hcall <;> cases ha <;> rfl

end PackedRecord
