import Mathlib.Order.RelClasses
import PackedRecord.Proofs.SharedSchemas
import PackedRecord.Proofs.StoreAgreement

/-!
# Datasets that are refused

Creating a dataset registers its type before the rows are allocated, and opening one through a
registry caches its schema before.  Nothing is taken back when the allocation is refused then.

* `StoreCall.answers_withCatalog` — operations that do not ask the catalog are answered alike
  whatever it holds, in every run.
* `Registry.Call.gates_run` — calls on a registry let go of every gate they hold.
* `failed_dataset_keeps` — what a failure leaves as it was: everything but the type that was just
  registered, or the schema that was just cached.
* `failed_dataset_changes` — these two stay behind.
-/

namespace PackedRecord

/-! ## Catalogs -/

/-- The operation reads or changes the catalog. -/
def StoreCall.asksCatalog : StoreCall → Bool
  | register _ | lookup _ | typeNames => true
  | _ => false

/-- A store whose catalog has no part in its other operations, and which keeps the first description
of a name. -/
class SeparateCatalog (σ : Type) [RecordStore σ] [Catalog σ] where
  Entries : Type
  catalog : σ → Entries
  /-- The same store with another catalog. -/
  withCatalog : σ → Entries → σ
  withCatalog_catalog (store : σ) : withCatalog store (catalog store) = store
  withCatalog_withCatalog (store : σ) (c c' : Entries) :
    withCatalog (withCatalog store c) c' = withCatalog store c'
  register_found (store : σ) (d existing : Description)
    (h : Catalog.lookup store d.name = some existing) : Catalog.register store d =
      if existing.equal d then .ok store else .error (.conflict d.name .divergentDescription)
  register_new (store : σ) (d : Description) (h : Catalog.lookup store d.name = none) :
    ∃ c, Catalog.register store d = .ok (withCatalog store c) ∧
      ∀ name, Catalog.lookup (withCatalog store c) name =
        if name = d.name then some d else Catalog.lookup store name
  answer_withCatalog (store : σ) (c : Entries) (call : StoreCall)
    (h : call.asksCatalog = false) : call.answer (withCatalog store c) =
      ((call.answer store).1, withCatalog (call.answer store).2 c)

open SeparateCatalog

instance : SeparateCatalog TransientStore where
  Entries := List (String × Description)
  catalog := TransientStore.catalog
  withCatalog s c := { s with catalog := c }
  withCatalog_catalog _ := rfl
  withCatalog_withCatalog _ _ _ := rfl
  register_found s d existing h := by
    change Assoc.get? d.name s.catalog = some existing at h
    simp only [Catalog.register, TransientStore.register, h]
  register_new s d h := by
    change Assoc.get? d.name s.catalog = none at h
    simp only [Catalog.register, TransientStore.register, h]
    exact ⟨_, rfl, fun name => rfl⟩
  answer_withCatalog s c call h := by
    cases call with
    | put content =>
      simp only [StoreCall.answer, Heap.put, TransientStore.put]
      cases Handle.ofKey (UInt64.ofNat s.heap.length) content.length <;> rfl
    | get handle => rfl
    | allocate name rowSize =>
      simp only [StoreCall.answer, RecordStore.allocate, TransientStore.allocate]
      cases Assoc.get? name s.tables with
      | none => rfl
      | some table =>
        dsimp only
        split <;> rfl
    | readRow a index => rfl
    | writeRow a index row =>
      simp only [StoreCall.answer, RecordStore.writeRow, TransientStore.writeRow]
      cases Assoc.get? a.name s.tables with
      | none => rfl
      | some table =>
        dsimp only
        split <;> rfl
    | rowCount a => rfl
    | register _ | lookup _ | typeNames => cases h

instance : SeparateCatalog DurableStore where
  Entries := Assoc String Description
  catalog := DurableStore.catalog
  withCatalog s c := { s with catalog := c }
  withCatalog_catalog _ := rfl
  withCatalog_withCatalog _ _ _ := rfl
  register_found s d existing h := by
    change s.lookup d.name = some existing at h
    simp only [Catalog.register, DurableStore.register, h]
    cases existing.equal d <;> rfl
  register_new s d h := by
    change s.lookup d.name = none at h
    simp only [Catalog.register, DurableStore.register, h]
    refine ⟨_, rfl, fun name => ?_⟩
    change Assoc.get? name (Assoc.insert d.name d s.catalog) = _
    split
    · rename_i hname
      rw [hname, Assoc.get?_insert_self]
    · rename_i hname
      rw [Assoc.get?_insert_of_ne hname]
      rfl
  answer_withCatalog s c call h := by
    cases call with
    | put content =>
      simp only [StoreCall.answer, Heap.put, DurableStore.put, DurableStore.nextKey]
      cases Handle.ofKey (UInt64.ofNat (nextIndex s.heap)) content.length <;> rfl
    | get handle => rfl
    | allocate name rowSize =>
      simp only [StoreCall.answer, RecordStore.allocate, DurableStore.allocate]
      cases Assoc.get? name s.allocations with
      | none => rfl
      | some held =>
        dsimp only
        split <;> rfl
    | readRow a index =>
      simp only [StoreCall.answer, RecordStore.readRow, DurableStore.readRow, DurableStore.rowsOf]
      cases s.cache.get? (a.name, index) with
      | some found => rfl
      | none =>
        dsimp only
        split
        · cases Assoc.get? index ((Assoc.get? a.name s.rows).getD []) <;> rfl
        · rfl
    | writeRow a index row =>
      simp only [StoreCall.answer, RecordStore.writeRow, DurableStore.writeRow,
        DurableStore.rowsOf]
      cases Assoc.get? a.name s.allocations with
      | none => rfl
      | some held =>
        dsimp only
        split <;> rfl
    | rowCount a => rfl
    | register _ | lookup _ | typeNames => cases h

section Catalogs

variable {σ : Type} [RecordStore σ] [Catalog σ] [SeparateCatalog σ]

namespace StoreCall

/-- An operation leaves stores that differ in their catalogs only. -/
theorem exists_answer_withCatalog (store : σ) (c : Entries σ) (call : StoreCall) :
    ∃ c', (call.answer (withCatalog store c)).2 = withCatalog (call.answer store).2 c' := by
  cases hasks : call.asksCatalog with
  | false => exact ⟨c, congrArg Prod.snd (answer_withCatalog store c call hasks)⟩
  | true =>
    have hregister : ∀ (s : σ) (d : Description),
        ∃ c', ((register d).answer s).2 = withCatalog s c' := by
      intro s d
      cases hfound : Catalog.lookup s d.name with
      | some existing =>
        refine ⟨catalog s, ?_⟩
        rw [answer, register_found s d existing hfound, withCatalog_catalog]
        cases existing.equal d <;> rfl
      | none =>
        obtain ⟨c', hregister, -⟩ := register_new s d hfound
        exact ⟨c', by rw [answer, hregister]; rfl⟩
    cases call with
    | register d =>
      obtain ⟨c₁, h₁⟩ := hregister store d
      obtain ⟨c₂, h₂⟩ := hregister (withCatalog store c) d
      exact ⟨c₂, by rw [h₁, h₂, withCatalog_withCatalog, withCatalog_withCatalog]⟩
    | lookup _ | typeNames => exact ⟨c, rfl⟩
    | _ => cases hasks

/-- **Operations that do not ask the catalog are answered alike whatever it holds**, also after
some that do. -/
theorem answers_withCatalog : ∀ (calls : List StoreCall) (store : σ)
    (c : Entries σ) {i : Nat} {call : StoreCall}, calls[i]? = some call →
    call.asksCatalog = false →
    (answers calls (withCatalog store c))[i]? = (answers calls store)[i]?
  | [], _, _, _, _, hcall, _ => by cases hcall
  | first :: rest, store, c, 0, call, hcall, hasks => by
    cases hcall
    rw [answers, answers, answer_withCatalog store c first hasks]
    rfl
  | first :: rest, store, c, i + 1, call, hcall, hasks => by
    obtain ⟨c', hafter⟩ := exists_answer_withCatalog store c first
    rw [answers, answers, List.getElem?_cons_succ, List.getElem?_cons_succ, hafter]
    exact answers_withCatalog rest _ c' hcall hasks

end StoreCall

/-- What the catalog holds does not matter to an allocation. -/
theorem allocate_of_withCatalog {store : σ} {c : Entries σ} {name : String}
    {size : Nat} {e : Error} (h : RecordStore.allocate (withCatalog store c) name size = .error e) :
    RecordStore.allocate store name size = .error e := by
  have hanswer := congrArg Prod.fst (answer_withCatalog store c (.allocate name size) rfl)
  simp only [StoreCall.answer, h, StoreCall.settle, StoreReply.allocation.injEq] at hanswer
  rcases ha : RecordStore.allocate store name size with e' | ⟨a, s⟩ <;>
    simp only [ha] at hanswer
  · rw [Except.error.inj hanswer]
  · cases hanswer

end Catalogs

/-! ## Gates -/

namespace Registry

/-- Gates in order, each with a holder. -/
structure Gated (gates : Assoc String Nat) : Prop where
  ascending : Assoc.Ascending gates
  held : ∀ g ∈ gates, 0 < g.2

theorem Gated.nil : Gated [] := ⟨Assoc.ascending_nil, fun _ h => absurd h List.not_mem_nil⟩

theorem Gated.hold {r : Registry} (h : Gated r.gates) (name : String) :
    Gated (r.hold name).gates := by
  refine ⟨Assoc.ascending_insert h.ascending _ _, fun g hg => ?_⟩
  rcases Assoc.mem_insert hg with rfl | hg
  · exact Nat.succ_pos _
  · exact h.held g hg

/-- Letting go of a gate undoes holding it. -/
theorem Gated.release {r later : Registry} (h : Gated r.gates) {name : String}
    (hlater : later.gates = (r.hold name).gates) :
    later.release name = { later with gates := r.gates } := by
  cases hg : Assoc.get? name r.gates with
  | none =>
    have hheld : later.gates = Assoc.insert name 1 r.gates := by
      rw [hlater, Registry.hold, hg]
      rfl
    unfold Registry.release
    simp only [hheld, Assoc.get?_insert_self, Nat.le_refl, if_true, Assoc.erase_insert hg]
  | some holders =>
    have hpos : 0 < holders := h.held _ (Assoc.mem_of_get? hg)
    have hheld : later.gates = Assoc.insert name (holders + 1) r.gates := by
      rw [hlater, Registry.hold, hg]
      rfl
    have hmany : ¬holders + 1 ≤ 1 := by omega
    unfold Registry.release
    simp only [hheld, Assoc.get?_insert_self, if_neg hmany, Nat.add_sub_cancel,
      Assoc.insert_insert h.ascending hg]

theorem gates_enter (r : Registry) (name : String) (schema : Schema) :
    (r.enter name schema).2.gates = r.gates := by
  unfold enter
  split
  · split <;> rfl
  · rfl

mutual

/-- **A call lets go of every gate it holds**, its own and those its build holds. -/
theorem Call.gates_run : ∀ (call : Call) {r : Registry}, Gated r.gates →
    (call.run r).2.gates = r.gates
  | .get _, _, _ => rfl
  | .publish (.error _), _, _ => rfl
  | .publish (.ok schema), r, h => by
    unfold Call.run publish
    dsimp only
    rw [h.release (gates_enter _ _ _)]
  | .getOrBuild name inside result, r, h => by
    have hinside := gates_runAll inside (h.hold name)
    unfold Call.run
    cases r.get? name with
    | some cached => rfl
    | none =>
      cases result with
      | error e =>
        dsimp only
        rw [h.release hinside]
      | ok schema =>
        dsimp only
        rw [h.release ((gates_enter _ _ _).trans hinside)]
  | .remove _, _, _ => rfl
  | .clear, _, _ => rfl
  | .size, _, _ => rfl

/-- A run lets go of every gate. -/
theorem gates_runAll : ∀ (calls : List Call) {r : Registry}, Gated r.gates →
    (runAll calls r).2.gates = r.gates
  | [], _, _ => rfl
  | call :: rest, r, h => by
    have hcall := call.gates_run h
    unfold runAll
    exact (gates_runAll rest (hcall ▸ h)).trans hcall

end

end Registry

/-! ## Failures -/

namespace Dataset

variable {σ : Type} [RecordStore σ] [Catalog σ] {store store' : σ} {schema : Schema}
  {name : String} {shape : Shape} {e : Error}

omit [Catalog σ] in
theorem attach_failed (h : attach store schema = (.error e, store')) :
    store' = store ∧ RecordStore.allocate store schema.name schema.totalSize = .error e := by
  unfold attach at h
  rcases ha : RecordStore.allocate store schema.name schema.totalSize with _ | ⟨a, s⟩ <;>
    simp only [ha] at h <;> cases h
  exact ⟨rfl, rfl⟩

theorem load_failed (h : load store name shape = (.error e, store')) : store' = store := by
  unfold load at h
  rcases hs : storedSchema store name shape with _ | schema <;> simp only [hs] at h
  · cases h
    rfl
  · exact (attach_failed h).1

/-- A type that was new to the catalog stays in it when its allocation is refused. -/
theorem create_failed [SeparateCatalog σ] (h : create store schema = (.error e, store')) :
    store' = store ∨
      Catalog.lookup store schema.name = none ∧
      RecordStore.allocate store schema.name schema.totalSize = .error e ∧
      ∃ c, store' = withCatalog store c ∧ ∀ name, Catalog.lookup store' name =
        if name = schema.name then some schema.describe else Catalog.lookup store name := by
  have hname : schema.describe.name = schema.name := by
    cases schema
    rw [Schema.describe]
  unfold create at h
  cases hold : Catalog.lookup store schema.name with
  | some existing =>
    rw [register_found store schema.describe existing (hname ▸ hold)] at h
    split_ifs at h
    · exact .inl (attach_failed h).1
    · cases h
      exact .inl rfl
  | none =>
    obtain ⟨c, hregister, hlookup⟩ := register_new store schema.describe (hname ▸ hold)
    rw [hregister] at h
    obtain ⟨rfl, hrefused⟩ := attach_failed h
    rw [hname] at hlookup
    exact .inr ⟨rfl, allocate_of_withCatalog hrefused, c, rfl, hlookup⟩

/-- A schema that was new to the registry stays in it when its allocation is refused. -/
theorem loadShared_failed {registry registry' : Registry} (hgated : Registry.Gated registry.gates)
    (h : loadShared store registry name shape = (.error e, store', registry')) :
    store' = store ∧ (registry' = registry ∨
      ∃ schema, registry.get? name = none ∧ storedSchema store name shape = .ok schema ∧
        RecordStore.allocate store schema.name schema.totalSize = .error e ∧
        registry' = { registry with
          cached := Assoc.insert name ⟨registry.next, schema⟩ registry.cached
          next := registry.next + 1 }) := by
  have hrefused : ∀ {i : Instance} {result : Except Error Dataset} {s : σ},
      attach store i.schema = (result, s) → result.map (fun d => (i, d)) = .error e →
      s = store ∧ RecordStore.allocate store i.schema.name i.schema.totalSize = .error e := by
    intro i result s ha hresult
    cases result with
    | ok d => cases hresult
    | error e' =>
      cases hresult
      exact attach_failed ha
  unfold loadShared Registry.getOrBuild at h
  cases hheld : registry.get? name with
  | some cached =>
    simp only [hheld] at h
    rcases ha : attach store cached.schema with ⟨result, s⟩
    simp only [ha, Prod.mk.injEq] at h
    obtain ⟨hresult, rfl, rfl⟩ := h
    exact ⟨(hrefused ha hresult).1, .inl rfl⟩
  | none =>
    simp only [hheld] at h
    rcases hs : storedSchema store name shape with _ | schema <;> simp only [hs] at h
    · obtain ⟨-, rfl, rfl⟩ := h
      exact ⟨rfl, .inl (hgated.release rfl)⟩
    · have hheld' : (registry.hold name).get? name = none := hheld
      simp only [Registry.enter, hheld'] at h
      rcases ha : attach store schema with ⟨result, s⟩
      simp only [ha, Prod.mk.injEq] at h
      obtain ⟨hresult, rfl, rfl⟩ := h
      obtain ⟨hstore', hallocate⟩ := hrefused (i := ⟨registry.next, schema⟩) ha hresult
      exact ⟨hstore', .inr ⟨schema, rfl, rfl, hallocate, hgated.release rfl⟩⟩

end Dataset

/-- **What a dataset that is refused leaves as it was.**  Opening a type changes nothing.
Creating one changes no later answer but the catalog's about its type, and opening one through a
registry nothing but the registry's entry of its name; and this only where the type, or the name,
was new and its allocation is refused: then what was entered stays. -/
theorem failed_dataset_keeps {σ : Type} [RecordStore σ] [Catalog σ] [SeparateCatalog σ]
    (calls : List Registry.Call) (store : σ) (schema : Schema) (name : String) (shape : Shape) :
    (∀ e store', Dataset.load store name shape = (.error e, store') → store' = store) ∧
    (∀ e store', Dataset.create store schema = (.error e, store') →
      (∀ (later : List StoreCall) (i : Nat) (call : StoreCall), later[i]? = some call →
        call.asksCatalog = false →
        (StoreCall.answers later store')[i]? = (StoreCall.answers later store)[i]?) ∧
      (∀ other, other ≠ schema.name →
        Catalog.lookup store' other = Catalog.lookup store other) ∧
      (store' = store ∨ Catalog.lookup store schema.name = none ∧
        RecordStore.allocate store schema.name schema.totalSize = .error e ∧
        Catalog.lookup store' schema.name = some schema.describe)) ∧
    ∀ e store' registry, Dataset.loadShared store (Registry.runAll calls {}).2 name shape =
        (.error e, store', registry) →
      store' = store ∧ (registry = (Registry.runAll calls {}).2 ∨
        ∃ built, (Registry.runAll calls {}).2.get? name = none ∧
          Dataset.storedSchema store name shape = .ok built ∧
          RecordStore.allocate store built.name built.totalSize = .error e ∧
          registry = { (Registry.runAll calls {}).2 with
            cached := Assoc.insert name ⟨(Registry.runAll calls {}).2.next, built⟩
              (Registry.runAll calls {}).2.cached
            next := (Registry.runAll calls {}).2.next + 1 }) := by
  have hgated : Registry.Gated (Registry.runAll calls {}).2.gates := by
    rw [Registry.gates_runAll calls .nil]
    exact .nil
  refine ⟨fun e store' h => Dataset.load_failed h, ?_,
    fun e store' registry h => Dataset.loadShared_failed hgated h⟩
  intro e store' h
  rcases Dataset.create_failed h with rfl | ⟨hnew, hrefused, c, rfl, hlookup⟩
  · exact ⟨fun _ _ _ _ _ => rfl, fun _ _ => rfl, .inl rfl⟩
  · refine ⟨?_, ?_, .inr ⟨hnew, hrefused, ?_⟩⟩
    · intro later i call hcall hasks
      exact StoreCall.answers_withCatalog later store c hcall hasks
    · intro other hother
      rw [hlookup, if_neg hother]
    · rw [hlookup, if_pos rfl]

/-! ## A type whose name is taken -/

/-- A store that keeps rows of four bytes under the name of the type of two members. -/
def takenStore : TransientStore := ((StoreCall.allocate "T" 4).answer {}).2

/-- The store once the type of two members was registered. -/
def refusedStore : TransientStore := { takenStore with catalog := [("T", pairSchema.describe)] }

theorem create_takenStore : Dataset.create takenStore pairSchema =
    (.error (.conflict "T" (.allocatedSize 4 2)), refusedStore) := by cbv

theorem loadShared_refusedStore : Dataset.loadShared refusedStore {} "T" .openMap =
    (.error (.conflict "T" (.allocatedSize 4 2)), refusedStore,
      { cached := [("T", ⟨0, pairSchema⟩)], next := 1 }) := by cbv

theorem failed_dataset_keeps_refused :
    (∃ e, Dataset.load refusedStore "T" .openMap = (.error e, refusedStore)) ∧
    (StoreCall.answers [.register pairSchema.describe, .allocate "T" 4] refusedStore)[1]? =
      (StoreCall.answers [.register pairSchema.describe, .allocate "T" 4] takenStore)[1]? ∧
    Catalog.lookup refusedStore "U" = Catalog.lookup takenStore "U" ∧
    ∃ registry, Dataset.loadShared refusedStore {} "U" .openMap =
      (.error (.store (.uncatalogued "U")), refusedStore, registry) ∧ registry = {} := by
  obtain ⟨hload, -, -⟩ := failed_dataset_keeps [] refusedStore pairSchema "T" .openMap
  obtain ⟨-, hcreate, -⟩ := failed_dataset_keeps [] takenStore pairSchema "T" .openMap
  obtain ⟨-, -, hshared⟩ := failed_dataset_keeps [] refusedStore pairSchema "U" .openMap
  obtain ⟨hanswers, hlookup, -⟩ := hcreate _ _ create_takenStore
  have hfails : ∃ e s, Dataset.load refusedStore "T" .openMap = (.error e, s) := ⟨_, _, by cbv⟩
  have hmissing : ∃ s registry, Dataset.loadShared refusedStore {} "U" .openMap =
      (.error (.store (.uncatalogued "U")), s, registry) := ⟨_, _, by cbv⟩
  obtain ⟨e, s, hfailed⟩ := hfails
  obtain ⟨s', registry, hmissing⟩ := hmissing
  obtain ⟨rfl, hregistry⟩ := hshared _ _ _ hmissing
  refine ⟨⟨e, ?_⟩, hanswers _ 1 _ rfl rfl, hlookup "U" (by decide), registry, hmissing, ?_⟩
  · rw [hfailed, hload e s hfailed]
  · rcases hregistry with h | ⟨built, -, hbuilt, -⟩
    · exact h
    · cases hbuilt

/-- **A type whose name is taken is in the catalog once creating it has failed, and its schema is
in the registry once opening it has.** -/
theorem failed_dataset_changes :
    (∃ e, Dataset.create takenStore pairSchema = (.error e, refusedStore)) ∧
    Catalog.lookup takenStore "T" = none ∧
    Catalog.lookup refusedStore "T" = some pairSchema.describe ∧
    ∃ e registry, Dataset.loadShared refusedStore {} "T" .openMap =
        (.error e, refusedStore, registry) ∧
      ({} : Registry).get? "T" = none ∧ registry.get? "T" = some ⟨0, pairSchema⟩ :=
  ⟨⟨_, create_takenStore⟩, rfl, rfl, _, _, loadShared_refusedStore, rfl, rfl⟩

end PackedRecord
