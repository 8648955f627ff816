import PackedRecord.Proofs.Sessions
import PackedRecord.Proofs.ZeroRecords

/-!
# Rows that were never written

A row that nobody wrote is read as zeros, and zeros are the record that a schema reads without a
heap.  A program may do anything with a store: use its datasets, or its rows and its heap directly,
through allocations that the store has granted or never heard of.

* `TransientStore.Unwritten` — no row was written at an index of a type; an operation that does not
  write there keeps that, whether or not the type is allocated yet.
* `FollowingStore` — a store that stays with its content through any allocation.
* `Session.Sound.after`, `Session.Sound.afterAll_unwritten` — one step, and a whole program.
* `unwritten_rows_read_zero` — what is packed, unpacked and read of records that have no values.
-/

namespace PackedRecord

/-! ## Contents without a row -/

namespace TransientStore

/-- No row of a type was written at an index. -/
def Unwritten (t : TransientStore) (name : String) (index : Nat) : Prop :=
  ∀ table, Assoc.get? name t.tables = some table → Assoc.get? index table.rows = none

theorem unwritten_empty (name : String) (index : Nat) :
    ({} : TransientStore).Unwritten name index := fun _ h => nomatch h

variable {t t' : TransientStore} {name : String} {index : Nat}

/-- Only a table with rows of its own matters, whatever its name becomes. -/
theorem Unwritten.insert (h : t.Unwritten name index) {other : String} {table : Table}
    (htable : other = name → Assoc.get? index table.rows = none) :
    Unwritten { t with tables := Assoc.insert other table t.tables } name index := by
  intro found hfound
  by_cases hname : name = other
  · rw [hname, Assoc.get?_insert_self] at hfound
    cases hfound
    exact htable hname.symm
  · rw [Assoc.get?_insert_of_ne hname] at hfound
    exact h found hfound

/-- **An operation that does not write a row leaves it unwritten.** -/
theorem Unwritten.answer (h : t.Unwritten name index) {call : StoreCall}
    (hother : ¬call.Touches name index) : (call.answer t).2.Unwritten name index := by
  cases call with
  | put content =>
    simp only [StoreCall.answer, Heap.put, put]
    cases Handle.ofKey (UInt64.ofNat t.heap.length) content.length <;> exact h
  | allocate other rowSize =>
    simp only [StoreCall.answer, RecordStore.allocate, allocate]
    split
    · split <;> exact h
    · exact h.insert fun _ => rfl
  | writeRow a i row =>
    simp only [StoreCall.answer, RecordStore.writeRow, writeRow]
    split
    · rename_i table htable
      split
      · refine h.insert fun hname => ?_
        have hindex : index ≠ i := fun hi => hother ⟨hname, hi.symm⟩
        rw [Assoc.get?_insert_of_ne hindex]
        exact h table (hname ▸ htable)
      · exact h
    · exact h
  | register d =>
    obtain ⟨entries, hafter⟩ := t.exists_answer_register d
    rw [hafter]
    exact h
  | _ => exact h

theorem Reaches.unwritten {touched : String → Nat → Prop} (h : Reaches touched t t')
    (hother : ¬touched name index) (hunwritten : t.Unwritten name index) :
    t'.Unwritten name index := by
  induction h with
  | refl => exact hunwritten
  | answer _ call hcall ih => exact ih.answer fun ht => hother (hcall name index ht)

/-- **A row that was never written is read as zeros.** -/
theorem Unwritten.readRow {a : Allocation} (h : t.Unwritten a.name index) (ha : t.Grants a) :
    t.readRow a index = .ok (Codec.zeros a.rowSize) := by
  obtain ⟨table, htable, hsize⟩ := ha.exists_table
  simp only [TransientStore.readRow, htable, h table htable, Option.getD_none, hsize]
  rfl

/-- An operation writes its row if it succeeds, and nothing otherwise. -/
theorem reaches_answer (t : TransientStore) (call : StoreCall) :
    Reaches (fun name index => call.Touches name index ∧ (call.answer t).1 = .done (.ok ())) t
      (call.answer t).2 := by
  cases call with
  | writeRow a i row =>
    by_cases hdone : ((StoreCall.writeRow a i row).answer t).1 = .done (.ok ())
    · exact .answer .refl _ fun name index ht => ⟨ht, hdone⟩
    · have hsame : ((StoreCall.writeRow a i row).answer t).2 = t := by
        revert hdone
        simp only [StoreCall.answer, RecordStore.writeRow, TransientStore.writeRow]
        split
        · split
          · exact fun hdone => absurd rfl hdone
          · exact fun _ => rfl
        · exact fun _ => rfl
      rw [hsame]
      exact .refl
  | _ => exact .answer .refl _ fun _ _ ht => ht.elim

end TransientStore

/-! ## Stores that follow their content -/

/-- A store that stays with its content, whatever allocation its rows are used through. -/
class FollowingStore (σ : Type) [RecordStore σ] [Catalog σ] extends MirroredStore σ where
  readRow_follows {store : σ} {t : TransientStore} (h : Holds store t) (a : Allocation)
    (index : Nat) : Holds (RecordStore.readRow store a index).2 t
  writeRow_follows {store : σ} {t : TransientStore} (h : Holds store t) (a : Allocation)
    (index : Nat) (row : Bytes) :
    ((StoreCall.writeRow a index row).answer store).1 =
      ((StoreCall.writeRow a index row).answer t).1 ∧
    Holds ((StoreCall.writeRow a index row).answer store).2
      ((StoreCall.writeRow a index row).answer t).2

instance : FollowingStore TransientStore where
  readRow_follows h _ _ := h
  writeRow_follows h _ _ _ := by
    obtain rfl := h
    exact ⟨rfl, rfl⟩

/-- What is read through any allocation is remembered only if it is the row itself. -/
theorem Mirrors.readRow_follows {d : DurableStore} {t : TransientStore} (h : Mirrors d t)
    (a : Allocation) (index : Nat) : Mirrors (d.readRow a index).2 t := by
  unfold DurableStore.readRow
  split
  · rename_i row later hcached
    obtain ⟨hmem, rfl⟩ := RowCache.get?_eq hcached
    exact h.remember (h.cache _ hmem)
  · split
    · split
      · rename_i row hrow
        exact h.remember hrow
      · exact h
    · exact h

instance : FollowingStore DurableStore where
  readRow_follows h a index := Mirrors.readRow_follows h a index
  writeRow_follows h a index row := Mirrors.writeRow h a index row

namespace FollowingStore

variable {σ : Type} [RecordStore σ] [Catalog σ] [FollowingStore σ] {store : σ} {t : TransientStore}

open MirroredStore

/-- **Every operation keeps a store with its content.** -/
theorem answer_follows (h : Holds store t) (call : StoreCall) :
    Holds (call.answer store).2 (call.answer t).2 := by
  cases call with
  | readRow a index => exact readRow_follows h a index
  | writeRow a index row => exact (writeRow_follows h a index row).2
  | rowCount a => exact h
  | _ =>
    refine (answer_holds h _ ?_).2
    exact nofun

/-- Every operation writes the row that it says it writes, or none. -/
theorem answer_reaches (h : Holds store t) (call : StoreCall) :
    TransientStore.Reaches (fun name index =>
      call.Touches name index ∧ (call.answer store).1 = .done (.ok ())) t (call.answer t).2 := by
  refine (t.reaches_answer call).mono fun name index ⟨htouches, hdone⟩ => ⟨htouches, ?_⟩
  cases call with
  | writeRow a i row => rw [(writeRow_follows h a i row).1, hdone]
  | _ => exact htouches.elim

end FollowingStore

/-! ## Programs -/

namespace Session

/-- What a program does: it calls a session, or uses the store itself. -/
inductive Step : Type 1 where
  | call (call : Call)
  /-- Any operation, with an allocation of any origin if it uses one. -/
  | raw (call : StoreCall)

variable {σ : Type} [RecordStore σ] [Catalog σ]

/-- The session after a step, whether or not the step succeeds. -/
def after (s : Session σ) : Step → Session σ
  | .call call => s.next call
  | .raw call => { s with store := (call.answer s.store).2 }

/-- The session after some steps in order. -/
def afterAll (s : Session σ) : List Step → Session σ
  | [] => s
  | step :: rest => (s.after step).afterAll rest

/-- A step succeeds in writing the row at an index of a type. -/
def Writes (s : Session σ) (name : String) (index : Nat) : Step → Prop
  | .call call => s.Stores name index call
  | .raw call => call.Touches name index ∧ (call.answer s.store).1 = .done (.ok ())

/-- No step of some succeeds in writing the row at an index of a type. -/
def NeverWrites (s : Session σ) (name : String) (index : Nat) : List Step → Prop
  | [] => True
  | step :: rest => ¬s.Writes name index step ∧ (s.after step).NeverWrites name index rest

variable [FollowingStore σ] {s : Session σ} {t : TransientStore}

/-- **A step keeps a session sound and writes no row but that it succeeds in writing.** -/
theorem Sound.after (h : s.Sound t) (step : Step) :
    Continues t (fun name index => s.Writes name index step) (s.after step) := by
  cases step with
  | call call => exact h.next call
  | raw call =>
    exact h.keep (FollowingStore.answer_follows h.holds call)
      (FollowingStore.answer_reaches h.holds call)

/-- **A program that never writes a row leaves it unwritten.** -/
theorem Sound.afterAll_unwritten {name : String} {index : Nat} : ∀ {steps : List Step}
    {s : Session σ} {t : TransientStore}, s.Sound t → t.Unwritten name index →
    s.NeverWrites name index steps →
    ∃ t', (s.afterAll steps).Sound t' ∧ t'.Unwritten name index
  | [], _, t, h, hunwritten, _ => ⟨t, h, hunwritten⟩
  | step :: rest, s, t, h, hunwritten, hnever => by
    obtain ⟨hstep, hrest⟩ := hnever
    obtain ⟨t', h', hreaches⟩ := h.after step
    exact h'.afterAll_unwritten (hreaches.unwritten hstep hunwritten) hrest

/-- A dataset reads zeros from a row that was never written. -/
theorem Sound.read_unwritten (h : s.Sound t) {d : Dataset} (hd : d ∈ s.datasets) {index : Nat}
    (hunwritten : t.Unwritten d.schema.name index) (ρ : Type) [RecordAccess ρ] :
    (d.read ρ s.store index).1 = d.schema.unpack ρ (Codec.zeros d.schema.totalSize)
      (some (d.read ρ s.store index).2) := by
  obtain ⟨hallocation, hgranted⟩ := h.attached d hd
  have hname : t.Unwritten d.allocation.name index := by rwa [hallocation]
  rw [(Dataset.read_holds h.holds hgranted ρ index).2, hname.readRow hgranted, hallocation]
  rfl

end Session

/-- A slot that holds content of variable length is null in a zero record. -/
theorem Kind.zero_of_isVarying {kind : Kind} (h : kind.isVarying = true) (p : Placement) :
    kind.zero p = .null := by
  obtain ⟨codec | schema⟩ | element := kind
  · cases codec with
    | varyingText charset => rfl
    | varyingBytes => rfl
    | _ => cases h
  · cases h
  · cases h

/-- **Rows that were never written read as the zero record.**  For a schema built without overrides
any record whose values are all null or absent is packed into zeros; zeros are unpacked as the zero
record, which has the zero of its kind under the name of each member that the record receives, null
for one of variable length; and that record is packed into zeros again.  None of it needs a heap or
changes one.  A dataset reads this record from every row that a program has never written, whatever
else it did with the store from its first day on.  The bound on the size is that of a buffer, so
that the exact sums and products of sizes are those of machine words. -/
theorem unwritten_rows_read_zero {s : Schema} (hs : s.BuiltPlainly) (ht : s.TablesDistinct)
    (hsize : s.totalSize < 2 ^ 63) :
    (∀ {σ : Type} [Heap σ] (heap : Option σ),
      (∀ {ρ : Type} [RecordAccess ρ] (record : ρ),
        (∀ name i v, RecordAccess.field? record name i = some v → v = .null) →
        s.pack record heap = (.ok (Codec.zeros s.totalSize), heap)) ∧
      s.unpack Fields (Codec.zeros s.totalSize) heap = .ok s.zero ∧
      s.pack s.zero heap = (.ok (Codec.zeros s.totalSize), heap)) ∧
    (∀ m ∈ s.members, m.isMapped = true →
      Assoc.get? m.name s.zero = some (m.kind.zero m.placement) ∧
      (m.kind.isVarying = true → m.kind.zero m.placement = .null)) ∧
    ∀ {σ : Type} [RecordStore σ] [Catalog σ] [FollowingStore σ] (store : σ),
      MirroredStore.Holds store {} → ∀ (steps : List Session.Step) (d : Dataset) (index : Nat),
        d ∈ (Session.afterAll ⟨store, []⟩ steps).datasets → d.schema = s →
        Session.NeverWrites ⟨store, []⟩ s.name index steps →
        (d.read Fields (Session.afterAll ⟨store, []⟩ steps).store index).1 = .ok s.zero := by
  obtain ⟨b, hb⟩ : ∃ b : Blueprint, b.build = .ok s := by
    obtain ⟨⟨b, -, hb⟩, -⟩ := hs
    exact ⟨b, hb⟩
  have hl := (Blueprint.laidOut_of_build hb).1
  refine ⟨fun {σ} _ heap => ?_, fun m hm hmapped => ?_, ?_⟩
  · have hstable := hs.zeroStable (σ := σ) ht hsize
    exact ⟨fun record hnull => hl.pack_nulls hnull heap, hstable.unpack heap, hstable.pack heap⟩
  · exact ⟨Schema.get?_zero_of_isMapped hl.names hm hmapped,
      fun hvarying => Kind.zero_of_isVarying hvarying m.placement⟩
  · rintro σ _ _ _ store hstore steps d index hd rfl hnever
    have hempty := TransientStore.unwritten_empty d.schema.name index
    obtain ⟨t, h, hunwritten⟩ :=
      Session.Sound.afterAll_unwritten (s := ⟨store, []⟩) ⟨hstore, nofun⟩ hempty hnever
    rw [h.read_unwritten hd hunwritten Fields]
    exact (hs.zeroStable ht hsize).unpack _

/-! ## The row next to a written one -/

/-- Another row is written, a record and a row of the wrong size are refused, the row is read, and
the store is closed and opened again. -/
def sparingSteps : List Session.Step :=
  [.call (.create rowSchema), .call (.write 0 4 otherRecord), .call (.write 0 3 brokenRecord),
    .raw (.writeRow rowDataset.allocation 3 [1]), .raw (.readRow rowDataset.allocation 3),
    .call .reopen, .call (.load "Row" .openMap)]

theorem tablesDistinct_rowSchema : rowSchema.TablesDistinct := by
  refine Schema.hereditarily_of_two rfl rfl ?_ ?_
  · simp [rowSchema, rowPlacements, Kind.element]
  · simp [cellSchema, Kind.element]

theorem unwritten_rows_read_zero_reopening :
    rowSchema.BuiltPlainly ∧ rowSchema.TablesDistinct ∧ rowSchema.totalSize < 2 ^ 63 ∧
      MirroredStore.Holds (DurableStore.empty 1) {} ∧
      Session.NeverWrites ⟨DurableStore.empty 1, []⟩ "Row" 3 sparingSteps ∧
      (rowDataset.read Fields
        (Session.afterAll ⟨DurableStore.empty 1, []⟩ sparingSteps).store 3).1 =
        .ok [("cells", .array [2]
            [.fields [("x", .number (.int 0))], .fields [("x", .number (.int 0))]]),
          ("tag", .null)] := by
  have hempty : MirroredStore.Holds (DurableStore.empty 1) {} := Mirrors.empty 1
  have hsize : rowSchema.totalSize < 2 ^ 63 := by decide
  have hd : rowDataset ∈
      (Session.afterAll ⟨DurableStore.empty 1, []⟩ sparingSteps).datasets := by
    have hfirst : (Session.afterAll ⟨DurableStore.empty 1, []⟩ sparingSteps).datasets[0]? =
        some rowDataset := by cbv
    exact List.mem_of_getElem? hfirst
  have hnever : Session.NeverWrites ⟨DurableStore.empty 1, []⟩ "Row" 3 sparingSteps := by
    refine ⟨not_false, ?_, ?_, ?_, ?_, not_false, not_false, trivial⟩
    · rintro ⟨_, _, _, hindex, _⟩
      exact absurd hindex (by decide)
    · rintro ⟨d, hd, _, _, hdone⟩
      have hrow : (Session.afterAll ⟨DurableStore.empty 1, []⟩
          (sparingSteps.take 2)).datasets[0]? = some rowDataset := rfl
      cases hd.symm.trans hrow
      have hrefused : (rowDataset.write (Session.afterAll ⟨DurableStore.empty 1, []⟩
          (sparingSteps.take 2)).store 3 brokenRecord).1 =
            .error (Codec.mismatch "cells" "array" (.text "none")) := rfl
      cases hrefused.symm.trans hdone
    · rintro ⟨_, hdone⟩
      have hrefused : ((StoreCall.writeRow rowDataset.allocation 3 [1]).answer
          (Session.afterAll ⟨DurableStore.empty 1, []⟩ (sparingSteps.take 3)).store).1 =
            .done (.error (.bufferSize 24 1)) := rfl
      cases hrefused.symm.trans hdone
    · rintro ⟨htouches, _⟩
      exact htouches
  refine ⟨builtPlainly_rowSchema, tablesDistinct_rowSchema, hsize, hempty, hnever, ?_⟩
  have hread := (unwritten_rows_read_zero builtPlainly_rowSchema tablesDistinct_rowSchema hsize).2.2
    (DurableStore.empty 1) hempty sparingSteps rowDataset 3 hd rfl hnever
  have hzero : rowSchema.zero = [("cells", .array [2]
      [.fields [("x", .number (.int 0))], .fields [("x", .number (.int 0))]]), ("tag", .null)] := by
    cbv
  rw [hread, hzero]

end PackedRecord
