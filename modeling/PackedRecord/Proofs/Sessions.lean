import PackedRecord.Proofs.SettledRecords

/-!
# No update is lost

A session is a store with the datasets that were created or opened on it.  Whatever a program
does with them, a record that was written is read from its row as it was read right after it
was written, until a record is written to that row again.

* `Session.Sound` — the store grants the rows of every dataset of the session.
* `Session.Sound.next` — a call keeps that, and writes no row but those it stores.
* `Session.Sound.run_spares` — the calls that follow a write spare its row, by induction.
* `written_record_lasts` — the row stays, and what its handles lead to does as well.
-/

namespace PackedRecord

/-! ## Sessions -/

/-- Raw records that a write of many records stores one behind the other. -/
def Dataset.packedRows {σ ρ : Type} [RecordStore σ] [RecordAccess ρ] (d : Dataset) (store : σ)
    (records : List ρ) : List Bytes :=
  match (d.schema.packAll records (some store)).1 with
  | .error _ => []
  | .ok bytes => Codec.runs d.schema.totalSize (bytes.length / d.schema.totalSize) bytes

/-- A store and the datasets that were created or opened on it. -/
structure Session (σ : Type) where
  store : σ
  datasets : List Dataset := []

namespace Session

/-- What a program does with a store and its datasets, which go by their position. -/
inductive Call : Type 1 where
  | create (schema : Schema)
  | load (name : String) (shape : Shape)
  | loadShared (registry : Registry) (name : String) (shape : Shape)
  | write {ρ : Type} [RecordAccess ρ] (which index : Nat) (record : ρ)
  | writeAll {ρ : Type} [RecordAccess ρ] (which start : Nat) (records : List ρ)
  | read (ρ : Type) [RecordAccess ρ] (which index : Nat)
  | readRange (ρ : Type) [RecordAccess ρ] (which start count : Nat)
  /-- An operation of the store itself that uses no rows, such as a put on its heap. -/
  | direct (call : StoreCall) (rowless : call.allocation? = none)
  /-- The store is closed and opened again. -/
  | reopen

variable {σ : Type} [RecordStore σ] [Catalog σ]

omit [RecordStore σ] [Catalog σ] in
/-- The session with a dataset, if it was created or opened. -/
def opened (s : Session σ) : Except Error Dataset × σ → Session σ
  | (.ok d, store) => ⟨store, s.datasets ++ [d]⟩
  | (.error _, store) => ⟨store, s.datasets⟩

omit [RecordStore σ] [Catalog σ] in
/-- The session after something was done with one of its datasets. -/
def withDataset (s : Session σ) (which : Nat) (act : Dataset → σ) : Session σ :=
  match s.datasets[which]? with
  | some d => { s with store := act d }
  | none => s

/-- The session after a call, whether or not the call succeeds. -/
def next (s : Session σ) : Call → Session σ
  | .create schema => s.opened (Dataset.create s.store schema)
  | .load name shape => s.opened (Dataset.load s.store name shape)
  | .loadShared registry name shape =>
    let (result, store, _) := Dataset.loadShared s.store registry name shape
    s.opened (result.map Prod.snd, store)
  | @Call.write _ _ which index record =>
    s.withDataset which fun d => (d.write s.store index record).2
  | @Call.writeAll _ _ which start records =>
    s.withDataset which fun d => (d.writeAll s.store start records).2
  | @Call.read ρ _ which index => s.withDataset which fun d => (d.read ρ s.store index).2
  | @Call.readRange ρ _ which start count =>
    s.withDataset which fun d => (d.readRange ρ s.store start count).2
  | .direct call _ => { s with store := (call.answer s.store).2 }
  | .reopen => { s with store := RecordStore.reopen s.store }

/-- The session after some calls in order. -/
def run (s : Session σ) : List Call → Session σ
  | [] => s
  | call :: rest => (s.next call).run rest

/-- A call succeeds in writing the record at an index of a type. -/
def Stores (s : Session σ) (name : String) (index : Nat) : Call → Prop
  | @Call.write _ _ which i record => ∃ d, s.datasets[which]? = some d ∧ d.schema.name = name ∧
      i = index ∧ (d.write s.store i record).1 = .ok ()
  | @Call.writeAll _ _ which start records => ∃ d, s.datasets[which]? = some d ∧
      d.schema.name = name ∧ start ≤ index ∧ index < start + (d.packedRows s.store records).length ∧
      (d.writeAll s.store start records).1 = .ok ()
  | _ => False

/-- No call of some succeeds in writing the record at an index of a type. -/
def NeverStores (s : Session σ) (name : String) (index : Nat) : List Call → Prop
  | [] => True
  | call :: rest => ¬s.Stores name index call ∧ (s.next call).NeverStores name index rest

end Session

/-! ## Datasets -/

namespace Dataset

open MirroredStore

/-- The content grants the rows of a dataset, under the name and with the size of its schema. -/
structure Attached (d : Dataset) (t : TransientStore) : Prop where
  allocation : d.allocation = ⟨d.schema.name, d.schema.totalSize⟩
  granted : t.Grants d.allocation

variable {σ : Type} [RecordStore σ] [Catalog σ] [MirroredStore σ] {store : σ}
  {t t' : TransientStore} {d : Dataset}

theorem Attached.mono (hd : d.Attached t) (hgrants : ∀ a, t.Grants a → t'.Grants a) :
    d.Attached t' := ⟨hd.allocation, hgrants _ hd.granted⟩

/-- A dataset was created or opened, if it was, without touching a row. -/
def Opens (t : TransientStore) (result : Except Error Dataset × σ) : Prop :=
  ∃ t', Holds result.2 t' ∧ TransientStore.Reaches (fun _ _ => False) t t' ∧
    ∀ d, result.1 = .ok d → d.Attached t'

theorem opens_error (h : Holds store t) (e : Error) : Opens t (.error e, store) :=
  ⟨t, h, .refl, nofun⟩

theorem attach_opens (h : Holds store t) (schema : Schema) : Opens t (attach store schema) := by
  unfold attach
  rcases ha : RecordStore.allocate store schema.name schema.totalSize with e | ⟨a, store'⟩
  · exact opens_error h e
  obtain ⟨hname, hstore', hgranted⟩ := allocate_holds h ha
  refine ⟨_, hstore', .of_answer t (.allocate schema.name schema.totalSize), ?_⟩
  rintro d ⟨⟩
  exact ⟨hname, hgranted⟩

theorem create_opens (h : Holds store t) (schema : Schema) : Opens t (create store schema) := by
  unfold create
  rcases hd : Catalog.register store schema.describe with e | store₁
  · exact opens_error h e
  obtain ⟨t', hstore', hreaches, hattached⟩ := attach_opens (register_holds h hd) schema
  have hregistered := TransientStore.Reaches.of_answer t (.register schema.describe)
  exact ⟨t', hstore', hregistered.trans hreaches, hattached⟩

theorem load_opens (h : Holds store t) (name : String) (shape : Shape) :
    Opens t (load store name shape) := by
  unfold load
  cases storedSchema store name shape with
  | error e => exact opens_error h e
  | ok schema => exact attach_opens h schema

theorem loadShared_opens (h : Holds store t) (registry : Registry) (name : String)
    (shape : Shape) : Opens t
      ((loadShared store registry name shape).1.map Prod.snd,
        (loadShared store registry name shape).2.1) := by
  unfold loadShared
  rcases registry.getOrBuild name fun r => (storedSchema store name shape, r) with
    ⟨e | shared, registry'⟩
  · exact opens_error h e
  obtain ⟨t', hstore', hreaches, hattached⟩ := attach_opens h shared.schema
  refine ⟨t', hstore', hreaches, fun d hd => hattached d ?_⟩
  dsimp only at hd
  rcases hresult : (attach store shared.schema).1 with e | d' <;> rw [hresult] at hd
  · cases hd
  · exact hd

variable {ρ : Type} [RecordAccess ρ]

theorem keptByPut_reaches (t : TransientStore) : KeptByPut fun store : σ =>
    ∃ t', Holds store t' ∧ TransientStore.Reaches (fun _ _ => False) t t' := by
  rintro store store' content handle ⟨t₁, hstore, hreaches⟩ hput
  obtain ⟨t₂, hput', hstore'⟩ := put_holds hstore hput
  have hanswer : ((StoreCall.put content).answer t₁).2 = t₂ := by
    simp only [StoreCall.answer, Heap.put, hput', StoreCall.settle]
  exact ⟨t₂, hstore', hanswer ▸ hreaches.answer (.put content) fun _ _ htouches => htouches⟩

/-- Once a record is packed, either nothing else happens or its row is written. -/
theorem Attached.write_cases {store₁ : σ} {t₁ : TransientStore} (hd : d.Attached t₁)
    (h : Holds store₁ t₁) {record : ρ}
    (hheap : (d.schema.pack record (some store)).2 = some store₁) (index : Nat) :
    (∃ e, d.write store index record = (.error e, store₁)) ∨
    ∃ row store₂, d.schema.pack record (some store) = (.ok row, some store₁) ∧
      row.length = d.allocation.rowSize ∧ d.write store index record = (.ok (), store₂) ∧
      Holds store₂ ((StoreCall.writeRow d.allocation index row).answer t₁).2 := by
  unfold Dataset.write
  rcases hpack : d.schema.pack record (some store) with ⟨e | row, heap⟩ <;> rw [hpack] at hheap <;>
    dsimp only at hheap <;> subst hheap
  · exact .inl ⟨e, rfl⟩
  rcases writeRow_holds h hd.granted index row with
    ⟨-, e, hwrite⟩ | ⟨hlen, store₂, hwrite, hstore₂⟩
  · exact .inl ⟨e, by simp only [Option.getD_some, hwrite]⟩
  · exact .inr ⟨row, store₂, rfl, hlen, by simp only [Option.getD_some, hwrite], hstore₂⟩

/-- Writing a record writes no row but its own, and that if it succeeds. -/
theorem Attached.write (hd : d.Attached t) (h : Holds store t) (index : Nat) (record : ρ) :
    ∃ t', Holds (d.write store index record).2 t' ∧ TransientStore.Reaches (fun name i =>
      d.schema.name = name ∧ index = i ∧ (d.write store index record).1 = .ok ()) t t' := by
  obtain ⟨store₁, hheap, t₁, hstore₁, hreaches⟩ :=
    d.schema.write_preserves (keptByPut_reaches t) d.schema.totalSize
      (RecordAccess.field? record) store ⟨t, h, .refl⟩
  obtain ⟨e, hwrite⟩ | ⟨row, store₂, -, -, hwrite, hstore₂⟩ :=
    (hd.mono hreaches.spares.grants).write_cases hstore₁ hheap index
  · rw [hwrite]
    exact ⟨t₁, hstore₁, hreaches.mono nofun⟩
  · rw [hwrite]
    refine ⟨_, hstore₂, (hreaches.mono nofun).answer (.writeRow d.allocation index row) ?_⟩
    rintro name i ⟨hname, hindex⟩
    rw [hd.allocation] at hname
    exact ⟨hname, hindex, rfl⟩

/-- A record that was written is settled in its row. -/
theorem Attached.write_settles (hd : d.Attached t) (h : Holds store t) (hbuilt : d.schema.Built)
    (hsize : d.schema.totalSize < 2 ^ 63) {index : Nat} {record : ρ}
    (hproper : ProperValues (RecordAccess.field? record))
    (hwritten : (d.write store index record).1 = .ok ()) :
    ∃ t' row, Holds (d.write store index record).2 t' ∧ (∀ a, t.Grants a → t'.Grants a) ∧
      t'.readRow d.allocation index = .ok row ∧
      Steady (σ := σ) t'.heap (d.schema.contents row) := by
  obtain ⟨row, heap, hpack⟩ : ∃ row heap, d.schema.pack record (some store) = (.ok row, heap) := by
    unfold Dataset.write at hwritten
    rcases hpack : d.schema.pack record (some store) with ⟨e | row, heap⟩
    · rw [hpack] at hwritten
      cases hwritten
    · exact ⟨row, heap, rfl⟩
  obtain ⟨store₁, t₁, rfl, hstore₁, hgrows, -, hsteady⟩ :=
    hbuilt.settled _ _ hsize hproper store t row heap h hpack
  have hd₁ := hd.mono hgrows.grants
  obtain ⟨e, hwrite⟩ | ⟨row', store₂, hpack', hlen, hwrite, hstore₂⟩ :=
    hd₁.write_cases hstore₁ (congrArg Prod.snd hpack) index
  · rw [hwrite] at hwritten
    cases hwritten
  · cases hpack.symm.trans hpack'
    have hspares := t₁.spares_answer (.writeRow d.allocation index row)
    rw [hwrite]
    exact ⟨_, row, hstore₂, fun a ha => hspares.grants a (hgrows.grants a ha),
      TransientStore.readRow_answer_writeRow hd₁.granted hlen, hsteady.mono hspares.heap⟩

/-- Rows of the right size are all written. -/
theorem Attached.writeRows : ∀ {rows : List Bytes} {store : σ} {t : TransientStore} (start : Nat),
    d.Attached t → Holds store t → (∀ row ∈ rows, row.length = d.schema.totalSize) →
    ∃ store' t', d.writeRows store start rows = (.ok (), store') ∧ Holds store' t' ∧
      TransientStore.Reaches (fun name i => d.schema.name = name ∧ start ≤ i ∧
        i < start + rows.length) t t'
  | [], store, t, _, _, h, _ => ⟨store, t, rfl, h, .refl⟩
  | row :: rest, store, t, start, hd, h, hrows => by
    obtain ⟨hrow, hrows⟩ := List.forall_mem_cons.1 hrows
    have hsize : row.length = d.allocation.rowSize := by
      rw [hd.allocation]
      exact hrow
    obtain ⟨hother, -⟩ | ⟨-, store₁, hwrite, hstore₁⟩ := writeRow_holds h hd.granted start row
    · exact absurd hsize hother
    have hreaches := TransientStore.Reaches.of_answer t (.writeRow d.allocation start row)
    obtain ⟨store', t', hrest, hstore', hreaches'⟩ :=
      Attached.writeRows (start + 1) (hd.mono hreaches.spares.grants) hstore₁ hrows
    refine ⟨store', t', ?_, hstore', (hreaches.mono ?_).trans (hreaches'.mono ?_)⟩
    · unfold Dataset.writeRows
      rw [hwrite]
      exact hrest
    · rintro name i ⟨hname, rfl⟩
      rw [hd.allocation] at hname
      exact ⟨hname, Nat.le_refl _, by simp⟩
    · rintro name i ⟨hname, hstart, hstop⟩
      rw [List.length_cons]
      exact ⟨hname, by omega, by omega⟩

omit [Catalog σ] [MirroredStore σ] in
theorem length_of_mem_packedRows {records : List ρ} {row : Bytes}
    (h : row ∈ d.packedRows store records) : row.length = d.schema.totalSize := by
  unfold packedRows at h
  split at h
  · cases h
  · exact Codec.length_of_mem_runs h (Nat.mul_div_le ..)

/-- Writing records writes no rows but those it stores, and these if it succeeds. -/
theorem Attached.writeAll (hd : d.Attached t) (h : Holds store t) (start : Nat)
    (records : List ρ) : ∃ t', Holds (d.writeAll store start records).2 t' ∧
      TransientStore.Reaches (fun name i => d.schema.name = name ∧ start ≤ i ∧
        i < start + (d.packedRows store records).length ∧
        (d.writeAll store start records).1 = .ok ()) t t' := by
  obtain ⟨store₁, hheap, t₁, hstore₁, hreaches⟩ :=
    d.schema.packAll_preserves (keptByPut_reaches t) records store ⟨t, h, .refl⟩
  have hd₁ := hd.mono hreaches.spares.grants
  have hsizes : ∀ row ∈ d.packedRows store records, row.length = d.schema.totalSize :=
    fun row hrow => length_of_mem_packedRows hrow
  unfold Dataset.writeAll
  unfold packedRows at hsizes ⊢
  rcases hpack : d.schema.packAll records (some store) with ⟨e | bytes, heap⟩ <;>
    rw [hpack] at hheap hsizes <;> dsimp only at hheap hsizes ⊢ <;> subst hheap
  · exact ⟨t₁, hstore₁, hreaches.mono nofun⟩
  obtain ⟨store', t', hwrite, hstore', hreaches'⟩ := hd₁.writeRows start hstore₁ hsizes
  simp only [Option.getD_some, hwrite]
  refine ⟨t', hstore', (hreaches.mono nofun).trans (hreaches'.mono ?_)⟩
  exact fun name i ⟨hname, hstart, hstop⟩ => ⟨hname, hstart, hstop, trivial⟩

/-- Reading a record changes nothing that is held, and decodes the row with what is held. -/
theorem read_holds (h : Holds store t) (hgranted : t.Grants d.allocation) (ρ : Type)
    [RecordAccess ρ] (index : Nat) : Holds (d.read ρ store index).2 t ∧
      (d.read ρ store index).1 = (t.readRow d.allocation index).bind fun row =>
        d.schema.unpack ρ row (some (d.read ρ store index).2) := by
  obtain ⟨hrow, hstore'⟩ := readRow_holds h hgranted index
  refine ⟨hstore', ?_⟩
  rw [← hrow]
  rfl

theorem readRange_holds (ρ : Type) [RecordAccess ρ] (hgranted : t.Grants d.allocation) :
    ∀ {store : σ} (start count : Nat), Holds store t →
      Holds (d.readRange ρ store start count).2 t
  | _, _, 0, h => h
  | store, start, count + 1, h => by
    have hread := (read_holds h hgranted ρ start).1
    unfold Dataset.readRange
    rcases hresult : d.read ρ store start with ⟨e | record, store'⟩ <;> rw [hresult] at hread
    · exact hread
    · exact readRange_holds ρ hgranted (start + 1) count hread

end Dataset

/-! ## Runs -/

namespace Session

open MirroredStore

variable {σ : Type} [RecordStore σ] [Catalog σ] [MirroredStore σ] {s : Session σ}
  {t : TransientStore}

/-- The store of a session holds some content, which grants the rows of all its datasets. -/
structure Sound (s : Session σ) (t : TransientStore) : Prop where
  holds : Holds s.store t
  attached : ∀ d ∈ s.datasets, d.Attached t

/-- A session that continues another one: it is sound, and its content was reached without a write
to rows that were not touched. -/
def Continues (t : TransientStore) (touched : String → Nat → Prop) (s : Session σ) : Prop :=
  ∃ t', s.Sound t' ∧ TransientStore.Reaches touched t t'

theorem Sound.keep (h : s.Sound t) {store : σ} {t' : TransientStore} (hstore : Holds store t')
    {touched : String → Nat → Prop} (hreaches : TransientStore.Reaches touched t t') :
    Continues t touched { s with store := store } :=
  ⟨t', ⟨hstore, fun d hd => (h.attached d hd).mono hreaches.spares.grants⟩, hreaches⟩

theorem Sound.opened (h : s.Sound t) {result : Except Error Dataset × σ}
    (hopens : Dataset.Opens t result) (touched : String → Nat → Prop) :
    Continues t touched (s.opened result) := by
  obtain ⟨t', hstore, hreaches, hattached⟩ := hopens
  have hreaches : TransientStore.Reaches touched t t' := hreaches.mono nofun
  rcases result with ⟨e | d, store⟩
  · exact h.keep hstore hreaches
  · refine ⟨t', ⟨hstore, fun e he => ?_⟩, hreaches⟩
    rcases List.mem_append.1 he with he | he
    · exact (h.attached e he).mono hreaches.spares.grants
    · rw [List.mem_singleton.1 he]
      exact hattached d rfl

theorem Sound.withDataset (h : s.Sound t) {which : Nat} {act : Dataset → σ}
    {touched : String → Nat → Prop} (hact : ∀ d, s.datasets[which]? = some d → d.Attached t →
      ∃ t', Holds (act d) t' ∧ TransientStore.Reaches touched t t') :
    Continues t touched (s.withDataset which act) := by
  unfold Session.withDataset
  split
  · rename_i d hd
    obtain ⟨t', hstore, hreaches⟩ := hact d hd (h.attached d (List.mem_of_getElem? hd))
    exact h.keep hstore hreaches
  · exact ⟨t, h, .refl⟩

/-- **A call keeps a session sound and writes no row but those it stores**, whether or not it
succeeds. -/
theorem Sound.next (h : s.Sound t) (call : Call) :
    Continues t (fun name index => s.Stores name index call) (s.next call) := by
  cases call with
  | create schema => exact h.opened (Dataset.create_opens h.holds schema) _
  | load name shape => exact h.opened (Dataset.load_opens h.holds name shape) _
  | loadShared registry name shape =>
    exact h.opened (Dataset.loadShared_opens h.holds registry name shape) _
  | write which index record =>
    refine h.withDataset fun d hd hattached => ?_
    obtain ⟨t', hstore, hreaches⟩ := hattached.write h.holds index record
    exact ⟨t', hstore, hreaches.mono fun name i hstored => ⟨d, hd, hstored⟩⟩
  | writeAll which start records =>
    refine h.withDataset fun d hd hattached => ?_
    obtain ⟨t', hstore, hreaches⟩ := hattached.writeAll h.holds start records
    exact ⟨t', hstore, hreaches.mono fun name i hstored => ⟨d, hd, hstored⟩⟩
  | read ρ which index =>
    refine h.withDataset fun d hd hattached => ⟨t, ?_, .refl⟩
    exact (Dataset.read_holds h.holds hattached.granted ρ index).1
  | readRange ρ which start count =>
    refine h.withDataset fun d hd hattached => ⟨t, ?_, .refl⟩
    exact Dataset.readRange_holds ρ hattached.granted start count h.holds
  | direct call rowless =>
    have hgranted : ∀ a, call.allocation? = some a → t.Grants a := by
      rw [rowless]
      exact nofun
    refine h.keep (answer_holds h.holds call hgranted).2 (.answer .refl call ?_)
    intro name index htouched
    obtain ⟨a, ha⟩ := htouched.allocation
    cases ha.symm.trans rowless
  | reopen => exact h.keep (reopen_holds h.holds) .refl

/-- A run keeps a session sound. -/
theorem Sound.run : ∀ {calls : List Call} {s : Session σ} {t : TransientStore}, s.Sound t →
    ∃ t', (s.run calls).Sound t'
  | [], _, t, h => ⟨t, h⟩
  | call :: rest, _, _, h => by
    obtain ⟨t', h', -⟩ := h.next call
    exact h'.run

/-- **A run spares a row that none of its calls stores.** -/
theorem Sound.run_spares {name : String} {index : Nat} : ∀ {calls : List Call} {s : Session σ}
    {t : TransientStore}, s.Sound t → s.NeverStores name index calls →
    ∃ t', (s.run calls).Sound t' ∧ TransientStore.Spares (fun n i => ¬(n = name ∧ i = index)) t t'
  | [], _, t, h, _ => ⟨t, h, .refl _ t⟩
  | call :: rest, s, t, h, hnever => by
    obtain ⟨hcall, hrest⟩ := hnever
    obtain ⟨t₁, h₁, hreaches⟩ := h.next call
    obtain ⟨t', h', hspares⟩ := h₁.run_spares hrest
    refine ⟨t', h', (hreaches.spares.mono ?_).trans hspares⟩
    rintro n i hstored ⟨rfl, rfl⟩
    exact hcall hstored

end Session

/-- **No update is lost**: a record that was written to a store with whatever it held, after
whatever was done with it, is read as it was right after the write for as long as no later call
stores a record in its row.  The bound on the size is that of a buffer, so that the exact sums and
products of sizes are those of machine words. -/
theorem written_record_lasts {σ : Type} [RecordStore σ] [Catalog σ] [MirroredStore σ] {store : σ}
    {t : TransientStore} (hstore : MirroredStore.Holds store t) {earlier later : List Session.Call}
    {before now : Session σ} {d : Dataset} {which index : Nat} {ρ : Type} [RecordAccess ρ]
    {record : ρ} (hbefore : Session.run ⟨store, []⟩ earlier = before)
    (hd : before.datasets[which]? = some d) (hbuilt : d.schema.Built)
    (hsize : d.schema.totalSize < 2 ^ 63) (hproper : ProperValues (RecordAccess.field? record))
    (hwrite : (d.write before.store index record).1 = .ok ())
    (hnow : before.next (.write which index record) = now)
    (hnever : now.NeverStores d.schema.name index later) {e : Dataset}
    (he : e.schema.Overlays d.schema) (hrows : e.allocation = d.allocation) (ρ' : Type)
    [RecordAccess ρ'] :
    (e.read ρ' (now.run later).store index).1 = (e.read ρ' now.store index).1 := by
  subst hbefore
  -- What the store holds before the write, right after it, and after the calls that follow.
  obtain ⟨t₀, h₀⟩ := Session.Sound.run (s := ⟨store, []⟩) ⟨hstore, nofun⟩
  have hattached := h₀.attached d (List.mem_of_getElem? hd)
  obtain ⟨t₁, row, hstore₁, hgrants, hrow, hsteady⟩ :=
    hattached.write_settles h₀.holds hbuilt hsize hproper hwrite
  have h₁ : now.Sound t₁ := by
    rw [← hnow, Session.next, Session.withDataset, hd]
    exact ⟨hstore₁, fun other hother => (h₀.attached other hother).mono hgrants⟩
  obtain ⟨t₂, h₂, hspares⟩ := h₁.run_spares hnever
  -- The row is the same, and its handles lead to objects that were there right after the write.
  have hgranted : t₁.Grants e.allocation := hrows ▸ hgrants _ hattached.granted
  have hrow₁ : t₁.readRow e.allocation index = .ok row := hrows ▸ hrow
  have hrow₂ : t₂.readRow e.allocation index = .ok row := by
    refine (hspares.row e.allocation index (not_not.2 ⟨?_, rfl⟩) hgranted).trans hrow₁
    rw [hrows, hattached.allocation]
  obtain ⟨hearly, hread₁⟩ := Dataset.read_holds h₁.holds hgranted ρ' index
  obtain ⟨hlate, hread₂⟩ := Dataset.read_holds h₂.holds (hspares.grants _ hgranted) ρ' index
  rw [hread₁, hread₂, hrow₁, hrow₂]
  exact he.unpack_steady hsteady ρ' _ _ ⟨t₂, hlate, hspares.heap⟩ ⟨t₁, hearly, List.prefix_refl _⟩

/-! ## A store in a file that remembers one row -/

/-- A new store with the rows of two cells and a text. -/
def rowSession : Session DurableStore := Session.run ⟨DurableStore.empty 1, []⟩ [.create rowSchema]

def rowDataset : Dataset := ⟨rowSchema, ⟨"Row", 24⟩⟩

def otherRecord : Fields := [("tag", .text "other")]

/-- A record that is refused when its text already lies on the heap. -/
def brokenRecord : Fields := [("cells", .text "none"), ("tag", .text "lost")]

/-- Other rows are written, a record is refused, and the store is closed and opened again. -/
def laterCalls : List Session.Call :=
  [.write 0 4 otherRecord, .write 0 3 brokenRecord, .direct (.put [1, 2, 3]) rfl, .reopen,
    .writeAll 0 5 [rowRecord, rowRecord], .load "Row" .openMap, .readRange Fields 1 3 4]

/-- Maps that receive the tag only. -/
def tagShape : Shape := .map [⟨"tag", .varyingString none⟩]

theorem properValues_rowRecord : ProperValues (RecordAccess.field? rowRecord) := by
  have hentries : Value.WellFormedFields rowRecord := by
    refine ⟨⟨by decide, rfl, ?_, ?_, trivial⟩, trivial, trivial⟩ <;>
      exact ⟨List.pairwise_singleton _ _, trivial, trivial⟩
  exact fun name _ v hv => wellFormed_of_get? hentries hv

theorem written_record_lasts_reopening :
    Mirrors (DurableStore.empty 1) {} ∧ rowSession.datasets[0]? = some rowDataset ∧
      rowSchema.Built ∧ rowSchema.totalSize < 2 ^ 63 ∧
      ProperValues (RecordAccess.field? rowRecord) ∧
      (rowDataset.write rowSession.store 3 rowRecord).1 = .ok () ∧
      (rowSession.next (.write 0 3 rowRecord)).NeverStores "Row" 3 laterCalls ∧
      (rowDataset.read Fields ((rowSession.next (.write 0 3 rowRecord)).run laterCalls).store 3).1 =
        .ok rowRecord ∧
      ∃ e, (Dataset.load rowSession.store "Row" tagShape).1 = .ok e ∧
        (e.read Fields ((rowSession.next (.write 0 3 rowRecord)).run laterCalls).store 3).1 =
          .ok [("tag", .text "ok")] := by
  have hempty := Mirrors.empty 1
  have hd : rowSession.datasets[0]? = some rowDataset := rfl
  have hbuilt := builtPlainly_rowSchema.built
  have hsize : rowSchema.totalSize < 2 ^ 63 := by decide
  have hwrite : (rowDataset.write rowSession.store 3 rowRecord).1 = .ok () := rfl
  generalize hnow : rowSession.next (.write 0 3 rowRecord) = now
  have hread : (rowDataset.read Fields now.store 3).1 = .ok rowRecord := by
    subst hnow
    rfl
  have hnever : now.NeverStores "Row" 3 laterCalls := by
    refine ⟨?_, ?_, not_false, not_false, ?_, not_false, not_false, trivial⟩
    · rintro ⟨_, _, _, hindex, _⟩
      exact absurd hindex (by decide)
    · rintro ⟨d, hd, _, _, hdone⟩
      subst hnow
      have hrow : ((rowSession.next (.write 0 3 rowRecord)).next
          (.write 0 4 otherRecord)).datasets[0]? = some rowDataset := rfl
      cases hd.symm.trans hrow
      have hrefused : (rowDataset.write ((rowSession.next (.write 0 3 rowRecord)).next
          (.write 0 4 otherRecord)).store 3 brokenRecord).1 =
            .error (Codec.mismatch "cells" "array" (.text "none")) := rfl
      cases hrefused.symm.trans hdone
    · rintro ⟨_, _, _, hstart, _⟩
      exact absurd hstart (by decide)
  obtain ⟨e, hload, hschema, hallocation, htag⟩ : ∃ e : Dataset,
      (Dataset.load rowSession.store "Row" tagShape).1 = .ok e ∧
      rowSchema.describe.toSchema tagShape = .ok e.schema ∧
      e.allocation = rowDataset.allocation ∧
      (e.read Fields now.store 3).1 = .ok [("tag", .text "ok")] := by
    subst hnow
    refine ⟨_, by cbv, ?_, ?_, ?_⟩
    · cbv
    · rfl
    · rfl
  have hdescribed : rowSchema.describe.toSchema .openMap = .ok rowSchema := by cbv
  refine ⟨hempty, hd, hbuilt, hsize, properValues_rowRecord, hwrite, hnever, ?_, e, hload, ?_⟩
  · rw [← hread]
    exact written_record_lasts hempty rfl hd hbuilt hsize properValues_rowRecord hwrite hnow hnever
      (.refl rowSchema) rfl Fields
  · rw [← htag]
    exact written_record_lasts hempty rfl hd hbuilt hsize properValues_rowRecord hwrite hnow hnever
      (Description.overlays hschema hdescribed) hallocation Fields

end PackedRecord
