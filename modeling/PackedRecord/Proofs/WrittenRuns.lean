import PackedRecord.Proofs.FailedWrites
import PackedRecord.Proofs.RecordRuns

/-!
# Records written together

Writing records together packs all of them before the first row is stored, while writing them one
by one stores each row before the next record is packed.  Packing sees nothing of a store but its
heap, and storing a row nothing but its rows, so that the order makes no difference.

* `Carries`, `Unseen.compositional` — a write gives the same bytes whatever of the state its heap
  does not see.
* `SplitStore` — a state is its rows and its heap, and either can be taken from another state.
* `Dataset.writeEach_eq_ok_iff`, `Dataset.writeAll_eq_ok_iff` — both ways of writing are packing
  the records in turn and then storing the rows.
* `written_together_as_one_by_one` — both succeed on the same records and leave the same store; a
  failed call stores no row.  Records without bytes are the exception.
* `empty_records_skipped` — written together, records without bytes are not counted.
-/

namespace PackedRecord

/-! ## Changes that the heap does not see -/

section Carries

variable {σ : Type} {change : σ → σ}

/-- A write ends alike on the changed state, and leaves the changed state of what it leaves
otherwise. -/
def Carries (change : σ → σ) (write : Option σ → Except Error Bytes × Option σ) : Prop :=
  ∀ heap, write (heap.map change) = ((write heap).1, (write heap).2.map change)

/-- One write, then another one if the first succeeds. -/
theorem Carries.andThen {write : Option σ → Except Error Bytes × Option σ}
    {next : Bytes → Option σ → Except Error Bytes × Option σ} (h : Carries change write)
    (hnext : ∀ window, Carries change (next window)) :
    Carries change fun heap =>
      match write heap with
      | (.error e, heap) => (.error e, heap)
      | (.ok window, heap) => next window heap := by
  intro heap
  dsimp only
  rw [h heap]
  rcases write heap with ⟨e | window, after⟩
  · rfl
  · exact hnext window after

variable [Heap σ]

/-- Content put on the heap of the changed state gets the same handle, and leaves the changed
state of what it leaves otherwise. -/
def Unseen (change : σ → σ) : Prop :=
  ∀ store content,
    Heap.put (change store) content = (Heap.put store content).map fun p => (p.1, change p.2)

theorem Codec.storeContent_carries (hc : Unseen change) (name : String) (order : ByteOrder)
    (content : Bytes) : Carries change (storeContent name order content) := by
  intro heap
  cases heap with
  | none => rfl
  | some store =>
    simp only [storeContent, Option.map_some, hc store content]
    rcases Heap.put store content with e | ⟨handle, later⟩ <;> rfl

/-- **No write depends on what the heap does not see.** -/
theorem Unseen.compositional (hc : Unseen change) : Compositional (Carries change) where
  pure _ _ := rfl
  store := Codec.storeContent_carries hc
  andThen := .andThen

end Carries

/-! ## Rows in turn -/

section InTurn

variable {σ α : Type} {write : α → Option σ → Except Error Bytes × Option σ} {items : List α}
  {heap after : Option σ} {windows : List Bytes}

/-- Items are written in turn on the changed state exactly if they are on the state itself. -/
theorem inTurn_map_iff {change : σ → σ} (h : ∀ a, Carries change (write a)) :
    InTurn write items (heap.map change) windows after ↔
      ∃ later, InTurn write items heap windows later ∧ after = later.map change := by
  induction items generalizing heap windows with
  | nil =>
    constructor
    · intro hturn
      cases hturn
      exact ⟨heap, .done heap, rfl⟩
    · rintro ⟨later, hturn, rfl⟩
      cases hturn
      exact .done _
  | cons a items ih =>
    constructor
    · intro hturn
      cases hturn with
      | next first rest =>
        rw [h a heap] at first
        rcases hwrite : write a heap with ⟨result, middle⟩
        rw [hwrite] at first
        cases first
        obtain ⟨later, hlater, rfl⟩ := ih.1 rest
        exact ⟨later, .next hwrite hlater, rfl⟩
    · rintro ⟨later, hturn, rfl⟩
      cases hturn with
      | next first rest =>
        refine .next ?_ (ih.2 ⟨later, rest, rfl⟩)
        rw [h a heap, first]

/-- What holds of each window that an item yields holds of all windows. -/
theorem InTurn.forall_mem {P : Bytes → Prop} (hturn : InTurn write items heap windows after)
    (h : ∀ a ∈ items, ∀ heap window later, write a heap = (.ok window, later) → P window) :
    ∀ window ∈ windows, P window := by
  induction hturn with
  | done => exact fun _ hw => absurd hw List.not_mem_nil
  | next first _ ih =>
    obtain ⟨hfirst, hrest⟩ := List.forall_mem_cons.1 h
    exact List.forall_mem_cons.2 ⟨hfirst _ _ _ first, ih hrest⟩

/-- Rows of one width that lie one behind the other are cut out again. -/
theorem Codec.runs_flatten {width : Nat} : ∀ {windows : List Bytes},
    (∀ window ∈ windows, window.length = width) →
    runs width windows.length windows.flatten = windows
  | [], _ => rfl
  | window :: windows, h => by
    obtain ⟨hfirst, hrest⟩ := List.forall_mem_cons.1 h
    rw [List.flatten_cons, List.length_cons, runs, List.take_left' hfirst, List.drop_left' hfirst,
      runs_flatten hrest]

theorem Codec.runs_length_flatten {width : Nat} (hpos : 0 < width)
    (h : ∀ window ∈ windows, window.length = width) :
    runs width (windows.flatten.length / width) windows.flatten = windows := by
  have hlen : windows.flatten.length = width * windows.length := by
    rw [List.length_flatten, List.map_congr_left h, List.map_const', List.sum_replicate,
      smul_eq_mul, Nat.mul_comm]
  rw [hlen, Nat.mul_div_cancel_left _ hpos, runs_flatten h]

end InTurn

/-! ## Rows and heap of a store -/

/-- Stores whose state is their rows and their heap: either can be taken from another state. -/
class SplitStore (σ : Type) [RecordStore σ] where
  /-- The first state with the heap of the second one. -/
  graft : σ → σ → σ
  graft_self (store : σ) : graft store store = store
  unseen (rows : σ) : Unseen (graft rows)
  writeRow_graft (rows heap : σ) (a : Allocation) (index : Nat) (row : Bytes) :
    RecordStore.writeRow (graft rows heap) a index row =
      (RecordStore.writeRow rows a index row).map fun later => graft later heap
  writeRow_again {store later : σ} {a : Allocation} {index : Nat} {row next : Bytes}
    (h : RecordStore.writeRow store a index row = .ok later) (hlen : next.length = row.length)
    (place : Nat) : ∃ last, RecordStore.writeRow later a place next = .ok last

namespace TransientStore

/-- The first content with the heap of the second one. -/
def graft (rows heap : TransientStore) : TransientStore := { rows with heap := heap.heap }

theorem unseen_graft (rows : TransientStore) : Unseen rows.graft := by
  intro store content
  simp only [Heap.put, put, graft]
  cases Handle.ofKey (UInt64.ofNat store.heap.length) content.length <;> rfl

theorem writeRow_graft (rows heap : TransientStore) (a : Allocation) (index : Nat) (row : Bytes) :
    (rows.graft heap).writeRow a index row =
      (rows.writeRow a index row).map fun later => later.graft heap := by
  simp only [writeRow, graft]
  cases Assoc.get? a.name rows.tables with
  | none => rfl
  | some table =>
    dsimp only
    split <;> rfl

theorem writeRow_again {store later : TransientStore} {a : Allocation} {index : Nat}
    {row next : Bytes} (h : store.writeRow a index row = .ok later)
    (hlen : next.length = row.length) (place : Nat) :
    ∃ last, later.writeRow a place next = .ok last := by
  unfold writeRow at h ⊢
  cases htable : Assoc.get? a.name store.tables with
  | none => simp [htable] at h
  | some table =>
    simp only [htable] at h
    split at h
    · rename_i hrow
      cases h
      simp only [Assoc.get?_insert_self, hlen, hrow, if_true]
      exact ⟨_, rfl⟩
    · cases h

instance : SplitStore TransientStore where
  graft := graft
  graft_self _ := rfl
  unseen := unseen_graft
  writeRow_graft := writeRow_graft
  writeRow_again := writeRow_again

end TransientStore

namespace DurableStore

/-- The first content with the heap of the second one. -/
def graft (rows heap : DurableStore) : DurableStore := { rows with heap := heap.heap }

theorem unseen_graft (rows : DurableStore) : Unseen rows.graft := by
  intro store content
  simp only [Heap.put, put, nextKey, graft]
  cases Handle.ofKey (UInt64.ofNat (nextIndex store.heap)) content.length <;> rfl

theorem writeRow_graft (rows heap : DurableStore) (a : Allocation) (index : Nat) (row : Bytes) :
    (rows.graft heap).writeRow a index row =
      (rows.writeRow a index row).map fun later => later.graft heap := by
  simp only [writeRow, graft]
  cases Assoc.get? a.name rows.allocations with
  | none => rfl
  | some held =>
    dsimp only
    split <;> rfl

theorem writeRow_again {store later : DurableStore} {a : Allocation} {index : Nat}
    {row next : Bytes} (h : store.writeRow a index row = .ok later)
    (hlen : next.length = row.length) (place : Nat) :
    ∃ last, later.writeRow a place next = .ok last := by
  unfold writeRow at h ⊢
  cases hheld : Assoc.get? a.name store.allocations with
  | none => simp [hheld] at h
  | some held =>
    simp only [hheld] at h
    split at h
    · rename_i hrow
      cases h
      simp only [hheld, hlen, hrow, if_true]
      exact ⟨_, rfl⟩
    · cases h

instance : SplitStore DurableStore where
  graft := graft
  graft_self _ := rfl
  unseen := unseen_graft
  writeRow_graft := writeRow_graft
  writeRow_again := writeRow_again

end DurableStore

namespace SplitStore

variable {σ : Type} [RecordStore σ] [SplitStore σ]

/-- Storing a row leaves the heap as it was. -/
theorem some_graft_of_writeRow {store later : σ} {a : Allocation} {index : Nat} {row : Bytes}
    (h : RecordStore.writeRow store a index row = .ok later) :
    (some store).map (graft later) = some later := by
  have hgraft := writeRow_graft store store a index row
  rw [graft_self, h] at hgraft
  exact congrArg some (Except.ok.inj hgraft).symm

/-- A write that is composed of puts leaves the rows as they were. -/
theorem graft_of_write {write : Option σ → Except Error Bytes × Option σ}
    (hw : ∀ {P : (Option σ → Except Error Bytes × Option σ) → Prop}, Compositional P → P write)
    {store : σ} {result : Except Error Bytes} {after : Option σ}
    (h : write (some store) = (result, after)) :
    ∃ later, after = some later ∧ graft store later = later := by
  have hkept : KeptByPut fun _ : σ => True := fun _ _ _ _ _ _ => trivial
  obtain ⟨later, hlater, -⟩ := hw hkept.compositional store trivial
  rw [h] at hlater
  obtain rfl : after = some later := hlater
  have hgraft := hw (unseen store).compositional (some store)
  rw [Option.map_some, graft_self, h] at hgraft
  exact ⟨later, rfl, (Option.some.inj (Prod.mk.inj hgraft).2).symm⟩

/-- Packing leaves the rows as they were. -/
theorem graft_of_pack {ρ : Type} [RecordAccess ρ] {s : Schema} {record : ρ} {store : σ}
    {result : Except Error Bytes} {after : Option σ}
    (h : s.pack record (some store) = (result, after)) :
    ∃ later, after = some later ∧ graft store later = later :=
  graft_of_write (fun hP => hP.pack s record) h

/-- Packing records in turn leaves the rows as they were. -/
theorem graft_of_inTurn {ρ : Type} [RecordAccess ρ] {s : Schema} {records : List ρ} {store : σ}
    {rows : List Bytes} {after : Option σ} (h : InTurn s.pack records (some store) rows after) :
    ∃ later, after = some later ∧ graft store later = later :=
  graft_of_write (fun hP => hP.inSequence (hP.pack s) records)
    (inSequence_eq_ok_iff.2 ⟨rows, h, rfl⟩)

/-- Packing does not depend on the rows. -/
theorem pack_carries (rows : σ) {ρ : Type} [RecordAccess ρ] (s : Schema) (record : ρ) :
    Carries (graft rows) (s.pack record) := (unseen rows).compositional.pack s record

end SplitStore

/-! ## Packed records of a built schema -/

namespace Schema

variable {σ : Type} [Heap σ] {ρ : Type} [RecordAccess ρ] {s : Schema} {record : ρ}
  {heap : Option σ}

theorem Built.length_of_pack (hs : s.Built) (hsize : s.totalSize < 2 ^ 63)
    (hproper : ProperValues (RecordAccess.field? record)) {row : Bytes} {later : Option σ}
    (h : s.pack record heap = (.ok row, later)) : row.length = s.totalSize := by
  obtain ⟨result, after, -, hspans, hplain⟩ := hs.writes.packInto hsize record [] heap
  cases h.symm.trans (hplain hproper)
  exact hspans row rfl

/-- A record without bytes has no members. -/
theorem Built.pack_of_empty (hs : s.Built) (h : s.totalSize = 0) :
    s.pack record heap = (.ok [], heap) := by
  cases hs with
  | intro here _ =>
    obtain ⟨b, hb⟩ := here
    have hlaid := (Blueprint.laidOut_of_build hb).1
    have hmembers : s.members = [] := by
      refine List.eq_nil_iff_forall_not_mem.2 fun m hm => ?_
      have hle := hlaid.footprint_le hm
      have hpos := (hlaid.checked m hm).footprint_pos
      omega
    rw [pack_eq, hmembers, h]
    rfl

end Schema

/-! ## Records one by one and together -/

/-- Write records at consecutive indices one by one, up to the first failure. -/
def Dataset.writeEach {σ : Type} [RecordStore σ] {ρ : Type} [RecordAccess ρ] (d : Dataset) :
    σ → Nat → List ρ → Except Error Unit × σ
  | store, _, [] => (.ok (), store)
  | store, index, record :: rest =>
    match d.write store index record with
    | (.error e, store) => (.error e, store)
    | (.ok (), store) => writeEach d store (index + 1) rest

namespace Dataset

variable {σ : Type} [RecordStore σ] [SplitStore σ] {ρ : Type} [RecordAccess ρ] {d : Dataset}
  {store store' : σ} {start index : Nat} {record : ρ} {records : List ρ}

open SplitStore

omit [SplitStore σ] in
theorem writeEach_cons_eq_ok_iff : d.writeEach store index (record :: records) = (.ok (), store') ↔
    ∃ store₁, d.write store index record = (.ok (), store₁) ∧
      d.writeEach store₁ (index + 1) records = (.ok (), store') := by
  rw [writeEach]
  rcases d.write store index record with ⟨e | ⟨⟩, store₁⟩ <;> simp

omit [SplitStore σ] in
theorem writeRows_cons_eq_ok_iff {row : Bytes} {rows : List Bytes} :
    d.writeRows store index (row :: rows) = (.ok (), store') ↔
      ∃ store₁, RecordStore.writeRow store d.allocation index row = .ok store₁ ∧
        d.writeRows store₁ (index + 1) rows = (.ok (), store') := by
  rw [writeRows]
  rcases RecordStore.writeRow store d.allocation index row with e | store₁ <;> simp

/-- A record is written exactly if it is packed and its row is stored. -/
theorem write_eq_ok_iff : d.write store index record = (.ok (), store') ↔
    ∃ row packed, d.schema.pack record (some store) = (.ok row, some packed) ∧
      RecordStore.writeRow packed d.allocation index row = .ok store' := by
  unfold write
  rcases hpack : d.schema.pack record (some store) with ⟨e | row, after⟩ <;>
    obtain ⟨packed, rfl, -⟩ := graft_of_pack hpack
  · simp
  · dsimp only [Option.getD_some]
    rcases hrow : RecordStore.writeRow packed d.allocation index row with e | store₁ <;>
      simp [hrow]

/-- **Writing records one by one is packing them in turn and then storing the rows.**  What was
packed before is not seen by a row, and what was stored before is not seen by packing. -/
theorem writeEach_eq_ok_iff : d.writeEach store start records = (.ok (), store') ↔
    ∃ rows packed, InTurn d.schema.pack records (some store) rows (some packed) ∧
      d.writeRows packed start rows = (.ok (), store') := by
  induction records generalizing store start with
  | nil =>
    constructor
    · intro h
      cases h
      exact ⟨[], _, .done _, rfl⟩
    · rintro ⟨rows, packed, hturn, hrows⟩
      cases hturn
      exact hrows
  | cons record records ih =>
    rw [writeEach_cons_eq_ok_iff]
    constructor
    · rintro ⟨store₁, hwrite, hrest⟩
      obtain ⟨row, packed₁, hpack, hrow⟩ := write_eq_ok_iff.1 hwrite
      obtain ⟨rows, packed₂, hturn₂, hrows⟩ := ih.1 hrest
      -- The state that the next record meets has the heap of the packed one and other rows.
      rw [← some_graft_of_writeRow hrow] at hturn₂
      obtain ⟨after, hturn, hafter⟩ := (inTurn_map_iff (pack_carries store₁ d.schema)).1 hturn₂
      obtain ⟨packed, rfl, hkept⟩ := graft_of_inTurn hturn
      obtain rfl : packed₂ = graft store₁ packed := Option.some.inj hafter
      refine ⟨row :: rows, packed, .next hpack hturn, writeRows_cons_eq_ok_iff.2 ?_⟩
      refine ⟨graft store₁ packed, ?_, hrows⟩
      rw [← hkept, writeRow_graft, hrow, hkept]
      rfl
    · rintro ⟨rows, packed, hturn, hrows⟩
      cases hturn with
      | @next _ _ _ later _ row rows hpack hturn =>
        obtain ⟨packed₁, rfl, -⟩ := graft_of_pack hpack
        obtain ⟨packed', hsame, hkept⟩ := graft_of_inTurn hturn
        obtain rfl := Option.some.inj hsame
        obtain ⟨store₂, hrow, hrest⟩ := writeRows_cons_eq_ok_iff.1 hrows
        rw [← hkept, writeRow_graft] at hrow
        rcases hrow₁ : RecordStore.writeRow packed₁ d.allocation start row with e | store₁
        · rw [hrow₁] at hrow
          cases hrow
        rw [hrow₁] at hrow
        obtain rfl : graft store₁ packed = store₂ := Except.ok.inj hrow
        refine ⟨store₁, write_eq_ok_iff.2 ⟨row, packed₁, hpack, hrow₁⟩, ih.2 ?_⟩
        refine ⟨rows, graft store₁ packed, ?_, hrest⟩
        rw [← some_graft_of_writeRow hrow₁]
        exact (inTurn_map_iff (pack_carries store₁ d.schema)).2 ⟨some packed, hturn, rfl⟩

/-- After a row was stored, all rows of its length are. -/
theorem exists_writeRows : ∀ {rows : List Bytes} {store later : σ} {index : Nat} {row : Bytes}
    (place : Nat), RecordStore.writeRow store d.allocation index row = .ok later →
    (∀ next ∈ rows, next.length = row.length) →
    ∃ last, d.writeRows later place rows = (.ok (), last)
  | [], _, later, _, _, _, _, _ => ⟨later, rfl⟩
  | next :: rows, store, later, index, row, place, h, hrows => by
    obtain ⟨hnext, hrows⟩ := List.forall_mem_cons.1 hrows
    obtain ⟨middle, hmiddle⟩ := writeRow_again h hnext place
    obtain ⟨last, hlast⟩ := exists_writeRows (place + 1) hmiddle fun other hother =>
      (hrows other hother).trans hnext.symm
    exact ⟨last, writeRows_cons_eq_ok_iff.2 ⟨middle, hmiddle, hlast⟩⟩

/-- Of rows of one length none is stored if one is refused. -/
theorem eq_of_writeRows_error {width : Nat} {rows : List Bytes} {e : Error}
    (hrows : ∀ row ∈ rows, row.length = width)
    (h : d.writeRows store start rows = (.error e, store')) : store' = store := by
  cases rows with
  | nil => cases h
  | cons row rows =>
    obtain ⟨hrow, hrest⟩ := List.forall_mem_cons.1 hrows
    rcases hfirst : RecordStore.writeRow store d.allocation start row with e' | later
    · rw [writeRows, hfirst] at h
      cases h
      rfl
    · obtain ⟨last, hlast⟩ := exists_writeRows (start + 1) hfirst fun next hnext =>
        (hrest next hnext).trans hrow.symm
      rw [writeRows, hfirst] at h
      cases hlast.symm.trans h

/-- **Records that are not written together leave the rows of the store as they were.** -/
theorem graft_of_writeAll_error {e : Error}
    (h : d.writeAll store start records = (.error e, store')) : graft store store' = store' := by
  rcases hpack : d.schema.packAll records (some store) with ⟨result, after⟩
  obtain ⟨packed, rfl, hkept⟩ := graft_of_write (fun hP => hP.packAll d.schema records) hpack
  unfold writeAll at h
  rw [hpack] at h
  cases result with
  | error e' =>
    cases h
    exact hkept
  | ok bytes =>
    obtain rfl := eq_of_writeRows_error
      (fun row hrow => Codec.length_of_mem_runs hrow (Nat.mul_div_le ..)) h
    exact hkept

/-- **Writing records together is packing them in turn and then storing the rows**, for records
that have bytes. -/
theorem writeAll_eq_ok_iff (hbuilt : d.schema.Built) (hsize : d.schema.totalSize < 2 ^ 63)
    (hpos : 0 < d.schema.totalSize)
    (hproper : ∀ record ∈ records, ProperValues (RecordAccess.field? record)) :
    d.writeAll store start records = (.ok (), store') ↔
      ∃ rows packed, InTurn d.schema.pack records (some store) rows (some packed) ∧
        d.writeRows packed start rows = (.ok (), store') := by
  have hcut : ∀ {rows : List Bytes} {after : Option σ},
      InTurn d.schema.pack records (some store) rows after →
      Codec.runs d.schema.totalSize (rows.flatten.length / d.schema.totalSize) rows.flatten =
        rows := by
    intro rows after hturn
    refine Codec.runs_length_flatten hpos (hturn.forall_mem ?_)
    intro record hrecord heap row later hpack
    exact hbuilt.length_of_pack hsize (hproper record hrecord) hpack
  unfold writeAll
  rw [Schema.packAll_eq_inSequence hpos]
  constructor
  · intro h
    rcases hpack : inSequence d.schema.pack records (some store) with ⟨e | bytes, after⟩ <;>
      rw [hpack] at h
    · cases h
    · obtain ⟨rows, hturn, rfl⟩ := inSequence_eq_ok_iff.1 hpack
      obtain ⟨packed, rfl, -⟩ := graft_of_inTurn hturn
      dsimp only [Option.getD_some] at h
      rw [hcut hturn] at h
      exact ⟨rows, packed, hturn, h⟩
  · rintro ⟨rows, packed, hturn, hrows⟩
    rw [inSequence_eq_ok_iff.2 ⟨rows, hturn, rfl⟩]
    dsimp only [Option.getD_some]
    rw [hcut hturn]
    exact hrows

/-! ### Records without bytes -/

omit [SplitStore σ] in
/-- Written together, records without bytes are not looked at. -/
theorem writeAll_of_empty (h : d.schema.totalSize = 0) :
    d.writeAll store start records = (.ok (), store) := by
  simp only [writeAll, Schema.packAll, if_pos h, Option.getD_some, List.length_nil, Nat.zero_div]
  rfl

omit [SplitStore σ] in
/-- Written one by one, records without bytes are empty rows. -/
theorem writeEach_of_empty (hbuilt : d.schema.Built) (h : d.schema.totalSize = 0) :
    d.writeEach store start records =
      d.writeRows store start (List.replicate records.length []) := by
  induction records generalizing store start with
  | nil => rfl
  | cons record records ih =>
    rw [writeEach, write, hbuilt.pack_of_empty h, List.length_cons, List.replicate_succ, writeRows]
    dsimp only [Option.getD_some]
    cases RecordStore.writeRow store d.allocation start [] with
    | error e => rfl
    | ok store₁ => exact ih

/-- Both ways of writing succeed on the same records, and leave the same store. -/
theorem writeAll_iff_writeEach (hbuilt : d.schema.Built) (hsize : d.schema.totalSize < 2 ^ 63)
    (hproper : ∀ record ∈ records, ProperValues (RecordAccess.field? record))
    (h : d.schema.totalSize ≠ 0 ∨ records = []) :
    d.writeAll store start records = (.ok (), store') ↔
      d.writeEach store start records = (.ok (), store') := by
  by_cases hzero : d.schema.totalSize = 0
  · obtain rfl := h.resolve_left (not_not.2 hzero)
    rw [writeAll_of_empty hzero]
    rfl
  · rw [writeAll_eq_ok_iff hbuilt hsize (Nat.pos_of_ne_zero hzero) hproper, writeEach_eq_ok_iff]

end Dataset

/-- **Writing records together is writing them one by one**, if they have bytes or there are none:
both succeed on the same records, and then leave the same store.  If records are not written
together, nothing in the store changes but its heap: no row, no row count, no allocation.  Records
without bytes are not written together at all, while one by one each of them is stored as an empty
row.  The bound on the size is that of a buffer, so that the exact sums and products of sizes are
those of machine words. -/
theorem written_together_as_one_by_one {d : Dataset} (hbuilt : d.schema.Built)
    (hsize : d.schema.totalSize < 2 ^ 63) {ρ : Type} [RecordAccess ρ] {records : List ρ}
    (hproper : ∀ record ∈ records, ProperValues (RecordAccess.field? record)) (start : Nat) :
    (∀ t t' : TransientStore,
      (d.schema.totalSize ≠ 0 ∨ records = [] →
        (d.writeAll t start records = (.ok (), t') ↔
          d.writeEach t start records = (.ok (), t'))) ∧
      ∀ e, d.writeAll t start records = (.error e, t') → t' = { t with heap := t'.heap }) ∧
    (∀ s s' : DurableStore,
      (d.schema.totalSize ≠ 0 ∨ records = [] →
        (d.writeAll s start records = (.ok (), s') ↔
          d.writeEach s start records = (.ok (), s'))) ∧
      ∀ e, d.writeAll s start records = (.error e, s') → s' = { s with heap := s'.heap }) ∧
    (d.schema.totalSize = 0 → ∀ (σ : Type) [RecordStore σ] (store : σ),
      d.writeAll store start records = (.ok (), store) ∧
      d.writeEach store start records =
        d.writeRows store start (List.replicate records.length [])) := by
  refine ⟨fun t t' => ⟨?_, fun e h => ?_⟩, fun s s' => ⟨?_, fun e h => ?_⟩, fun h σ _ store => ?_⟩
  · exact Dataset.writeAll_iff_writeEach hbuilt hsize hproper
  · exact (Dataset.graft_of_writeAll_error h).symm
  · exact Dataset.writeAll_iff_writeEach hbuilt hsize hproper
  · exact (Dataset.graft_of_writeAll_error h).symm
  · exact ⟨Dataset.writeAll_of_empty h, Dataset.writeEach_of_empty hbuilt h⟩

/-! ## Rows of records with and without bytes -/

/-- A type without members. -/
def emptySchema : Schema := ⟨"A", [], Shape.openMap.outline, 0, {}⟩

def emptyDataset : Dataset := ⟨emptySchema, ⟨"A", 0⟩⟩

theorem built_emptySchema : emptySchema.Built := by
  have hbuild : (openBlueprint "A" []).build = .ok emptySchema := by cbv
  exact .intro ⟨_, hbuild⟩ fun _ hm => absurd hm List.not_mem_nil

/-- Two records are written, a row is refused since its type has no allocation, and a record without
bytes is an empty row. -/
theorem written_together_as_one_by_one_rows :
    rowDataset.schema.Built ∧ rowDataset.schema.totalSize < 2 ^ 63 ∧
    ProperValues (RecordAccess.field? rowRecord) ∧
    emptyDataset.schema.totalSize = 0 ∧
    (∃ t t' : TransientStore, Dataset.create ({} : TransientStore) rowSchema = (.ok rowDataset, t) ∧
      rowDataset.writeAll t 5 [rowRecord, rowRecord] = (.ok (), t') ∧
      rowDataset.writeEach t 5 [rowRecord, rowRecord] = (.ok (), t')) ∧
    (∃ t' : TransientStore, ∃ e,
      rowDataset.writeAll ({} : TransientStore) 0 [rowRecord] = (.error e, t') ∧
      t' = { ({} : TransientStore) with heap := t'.heap }) ∧
    (∃ s' : DurableStore, ∃ e,
      rowDataset.writeAll (DurableStore.empty 1) 0 [rowRecord] = (.error e, s') ∧
      s' = { DurableStore.empty 1 with heap := s'.heap }) ∧
    emptyDataset.writeEach ({} : TransientStore) 0 [([] : Fields)] =
      emptyDataset.writeRows ({} : TransientStore) 0 [[]] := by
  have hbuilt : rowDataset.schema.Built := builtPlainly_rowSchema.built
  have hsize : rowDataset.schema.totalSize < 2 ^ 63 := by decide
  have hproper := properValues_rowRecord
  have hone : ∀ record ∈ [rowRecord], ProperValues (RecordAccess.field? record) := by
    simpa using hproper
  have htwo : ∀ record ∈ [rowRecord, rowRecord], ProperValues (RecordAccess.field? record) := by
    simpa using hproper
  obtain ⟨hrows, -⟩ := written_together_as_one_by_one hbuilt hsize htwo 5
  obtain ⟨hrefused, hrefused', -⟩ := written_together_as_one_by_one hbuilt hsize hone 0
  have hnone : ∀ record ∈ [([] : Fields)], ProperValues (RecordAccess.field? record) := by
    intro record hrecord name _ v hv
    obtain rfl := List.mem_singleton.1 hrecord
    cases hv
  have hnothing : emptyDataset.schema.totalSize < 2 ^ 63 := by decide
  have hbuilt' : emptyDataset.schema.Built := built_emptySchema
  obtain ⟨-, -, hempty⟩ := written_together_as_one_by_one hbuilt' hnothing hnone 0
  refine ⟨hbuilt, hsize, hproper, rfl, ?_, ?_, ?_, (hempty rfl _ _).2⟩
  · have hwrite : ∃ t', rowDataset.writeAll
        (Dataset.create ({} : TransientStore) rowSchema).2 5 [rowRecord, rowRecord] =
          (.ok (), t') := ⟨_, by cbv⟩
    obtain ⟨t', hwrite⟩ := hwrite
    exact ⟨_, t', rfl, hwrite, ((hrows _ t').1 (.inl (by decide))).1 hwrite⟩
  · have hwrite : ∃ t' e, rowDataset.writeAll ({} : TransientStore) 0 [rowRecord] =
        (.error e, t') := ⟨_, _, by cbv⟩
    obtain ⟨t', e, hwrite⟩ := hwrite
    exact ⟨t', e, hwrite, (hrefused _ t').2 e hwrite⟩
  · have hwrite : ∃ s' e, rowDataset.writeAll (DurableStore.empty 1) 0 [rowRecord] =
        (.error e, s') := ⟨_, _, by cbv⟩
    obtain ⟨s', e, hwrite⟩ := hwrite
    exact ⟨s', e, hwrite, (hrefused' _ s').2 e hwrite⟩

/-- Two records without bytes: one by one they count as two rows, together as none. -/
theorem empty_records_skipped :
    ∃ t t' : TransientStore,
      Dataset.create ({} : TransientStore) emptySchema = (.ok emptyDataset, t) ∧
      emptyDataset.writeAll t 0 [([] : Fields), []] = (.ok (), t) ∧
      emptyDataset.size t = .ok 0 ∧
      emptyDataset.writeEach t 0 [([] : Fields), []] = (.ok (), t') ∧
      emptyDataset.size t' = .ok 2 :=
  ⟨_, _, rfl, by cbv, by cbv, rfl, by cbv⟩

end PackedRecord
