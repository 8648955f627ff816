import PackedRecord.Proofs.NoFaults

/-!
# Runs of records

Packing records to one buffer is packing them one after another, each on the heap that the ones
before it left, and putting the rows one behind the other.  Unpacking a buffer is unpacking its
rows.  Either ends with the first failure.

* `InTurn` — items written one after another.
* `inSequence_eq_ok_iff`, `inSequence_eq_error_iff` — both outcomes of a run that writes.
* `inOrder_eq_ok_iff`, `inOrder_eq_error_iff` — both outcomes of a run that reads.
* `Codec.runs_eq_map` — where the rows of a buffer lie.
* `record_runs_in_turn` — the calls for many records in terms of those for one.
-/

namespace PackedRecord

variable {σ : Type}

/-! ## Writing in turn -/

/-- The items are written one after another, each on the heap that the one before it left. -/
inductive InTurn {α : Type} (write : α → Option σ → Except Error Bytes × Option σ) :
    List α → Option σ → List Bytes → Option σ → Prop
  | done (heap : Option σ) : InTurn write [] heap [] heap
  | next {item : α} {items : List α} {heap later after : Option σ} {window : Bytes}
      {windows : List Bytes} (first : write item heap = (.ok window, later))
      (rest : InTurn write items later windows after) :
      InTurn write (item :: items) heap (window :: windows) after

section Writing

variable {α : Type} {write : α → Option σ → Except Error Bytes × Option σ} {item : α}
  {items : List α} {heap later after : Option σ} {window bytes : Bytes} {e : Error}

theorem inSequence_cons_of_ok (h : write item heap = (.ok window, later)) :
    inSequence write (item :: items) heap =
      match inSequence write items later with
      | (.error e, last) => (.error e, last)
      | (.ok windows, last) => (.ok (window ++ windows), last) := by
  rcases hrest : inSequence write items later with ⟨e | windows, last⟩ <;>
    simp only [inSequence, h, hrest]

theorem inSequence_cons_of_error (h : write item heap = (.error e, later)) :
    inSequence write (item :: items) heap = (.error e, later) := by
  rw [inSequence, h]

/-- **A run succeeds exactly if its items are written in turn**, and yields their windows one
behind the other. -/
theorem inSequence_eq_ok_iff : inSequence write items heap = (.ok bytes, after) ↔
    ∃ windows, InTurn write items heap windows after ∧ bytes = windows.flatten := by
  induction items generalizing heap bytes with
  | nil =>
    constructor
    · intro h
      cases h
      exact ⟨[], .done _, rfl⟩
    · rintro ⟨windows, hturn, rfl⟩
      cases hturn
      rfl
  | cons item items ih =>
    constructor
    · intro h
      rcases hitem : write item heap with ⟨e | window, later⟩
      · rw [inSequence_cons_of_error hitem] at h
        cases h
      · rw [inSequence_cons_of_ok hitem] at h
        rcases hrest : inSequence write items later with ⟨e | rest, last⟩
        · rw [hrest] at h
          cases h
        · rw [hrest] at h
          cases h
          obtain ⟨windows, hturn, rfl⟩ := ih.1 hrest
          exact ⟨window :: windows, .next hitem hturn, rfl⟩
    · rintro ⟨windows, hturn, rfl⟩
      cases hturn with
      | next first rest =>
        rw [inSequence_cons_of_ok first, ih.2 ⟨_, rest, rfl⟩]
        rfl

/-- **A run fails exactly if an item does**, all items before it having been written in turn, and
leaves the heap as that item left it. -/
theorem inSequence_eq_error_iff : inSequence write items heap = (.error e, after) ↔
    ∃ before item rest windows later, items = before ++ item :: rest ∧
      InTurn write before heap windows later ∧ write item later = (.error e, after) := by
  induction items generalizing heap with
  | nil =>
    refine iff_of_false nofun ?_
    rintro ⟨before, item, rest, windows, later, h, -⟩
    cases before <;> cases h
  | cons item items ih =>
    constructor
    · intro h
      rcases hitem : write item heap with ⟨e' | window, later⟩
      · rw [inSequence_cons_of_error hitem] at h
        cases h
        exact ⟨[], item, items, [], _, rfl, .done _, hitem⟩
      · rw [inSequence_cons_of_ok hitem] at h
        rcases hrest : inSequence write items later with ⟨e' | rest, last⟩
        · rw [hrest] at h
          cases h
          obtain ⟨before, failed, rest, windows, last', rfl, hturn, hfailed⟩ := ih.1 hrest
          exact ⟨item :: before, failed, rest, window :: windows, last', rfl, .next hitem hturn,
            hfailed⟩
        · rw [hrest] at h
          cases h
    · rintro ⟨before, failed, rest, windows, last, hsplit, hturn, hfailed⟩
      cases hturn with
      | done =>
        cases hsplit
        exact inSequence_cons_of_error hfailed
      | next first hturn =>
        cases hsplit
        rw [inSequence_cons_of_ok first, ih.2 ⟨_, failed, rest, _, last, rfl, hturn, hfailed⟩]

end Writing

/-! ## Reading in order -/

section Reading

variable {α : Type} {read : Bytes → Except Error α} {windows : List Bytes} {values : List α}
  {e : Error}

/-- A run of windows is read exactly if each of them is. -/
theorem inOrder_eq_ok_iff : inOrder read windows = .ok values ↔
    List.Forall₂ (fun window a => read window = .ok a) windows values := by
  rw [inOrder_eq_mapM, mapM_eq_ok_iff]

/-- A run of windows is refused with the error of the first one that is. -/
theorem inOrder_eq_error_iff : inOrder read windows = .error e ↔
    ∃ (i : Nat) (window : Bytes), windows[i]? = some window ∧ read window = .error e ∧
      ∀ j < i, ∀ earlier, windows[j]? = some earlier → ∃ a, read earlier = .ok a := by
  induction windows with
  | nil => simp [inOrder]
  | cons first windows ih =>
    rw [inOrder]
    cases hfirst : read first with
    | error e' =>
      dsimp only
      constructor
      · intro h
        cases h
        exact ⟨0, first, rfl, hfirst, fun j hj => absurd hj (Nat.not_lt_zero j)⟩
      · rintro ⟨i, window, hwindow, hread, hearlier⟩
        cases i with
        | zero =>
          cases hwindow
          rw [hfirst] at hread
          cases hread
          rfl
        | succ i =>
          obtain ⟨a, ha⟩ := hearlier 0 (Nat.succ_pos i) first rfl
          rw [hfirst] at ha
          cases ha
    | ok a =>
      have hmap : (inOrder read windows).map (a :: ·) = .error e ↔
          inOrder read windows = .error e := by
        cases inOrder read windows <;> simp [Except.map]
      dsimp only
      rw [hmap, ih]
      constructor
      · rintro ⟨i, window, hwindow, hread, hearlier⟩
        refine ⟨i + 1, window, hwindow, hread, fun j hj earlier hj' => ?_⟩
        cases j with
        | zero =>
          cases hj'
          exact ⟨a, hfirst⟩
        | succ j => exact hearlier j (Nat.lt_of_succ_lt_succ hj) earlier hj'
      · rintro ⟨i, window, hwindow, hread, hearlier⟩
        cases i with
        | zero =>
          cases hwindow
          rw [hfirst] at hread
          cases hread
        | succ i =>
          exact ⟨i, window, hwindow, hread,
            fun j hj earlier hj' => hearlier (j + 1) (Nat.succ_lt_succ hj) earlier hj'⟩

end Reading

/-- The rows of a buffer lie at the multiples of their width. -/
theorem Codec.runs_eq_map (width : Nat) : ∀ (count : Nat) (bytes : Bytes),
    runs width count bytes =
      (List.range count).map fun i => (bytes.drop (width * i)).take width
  | 0, _ => rfl
  | count + 1, bytes => by
    rw [runs, runs_eq_map width count, List.range_succ_eq_map, List.map_cons, List.map_map]
    refine congrArg _ (List.map_congr_left fun i _ => ?_)
    rw [List.drop_drop, Function.comp_apply, Nat.mul_succ, Nat.add_comm]

/-! ## Records -/

namespace Schema

variable [Heap σ] {ρ : Type} [RecordAccess ρ] {s : Schema}

/-- One of the rows that lie one behind the other in a buffer. -/
def row (s : Schema) (bytes : Bytes) (i : Nat) : Bytes :=
  (bytes.drop (s.totalSize * i)).take s.totalSize

theorem packAll_eq_inSequence (hpos : 0 < s.totalSize) (records : List ρ) (heap : Option σ) :
    s.packAll records heap = inSequence s.pack records heap := by
  rw [packAll, if_neg hpos.ne', packEach_eq_inSequence]

theorem unpackAll_eq_inOrder (hpos : 0 < s.totalSize) {bytes : Bytes}
    (h : bytes.length % s.totalSize = 0) (heap : Option σ) :
    s.unpackAll ρ bytes heap = inOrder (fun row => s.unpack ρ row heap)
      ((List.range (bytes.length / s.totalSize)).map (s.row bytes)) := by
  simp only [unpackAll, if_neg hpos.ne', h, if_true, unpackEach_eq_inOrder, Codec.runs_eq_map]
  rfl

/-- A buffer that holds no whole number of rows is refused. -/
theorem unpackAll_of_ragged (hpos : 0 < s.totalSize) {bytes : Bytes}
    (h : bytes.length % s.totalSize ≠ 0) (heap : Option σ) :
    s.unpackAll ρ bytes heap =
      .error (.bufferSize (bytes.length - bytes.length % s.totalSize) bytes.length) := by
  simp only [unpackAll, if_neg hpos.ne', if_neg h]

/-- A buffer of rows is unpacked exactly if each row is. -/
theorem unpackAll_eq_ok_iff (hpos : 0 < s.totalSize) {bytes : Bytes}
    (h : bytes.length % s.totalSize = 0) {heap : Option σ} {records : List ρ} :
    s.unpackAll ρ bytes heap = .ok records ↔
      List.Forall₂ (fun i record => s.unpack ρ (s.row bytes i) heap = .ok record)
        (List.range (bytes.length / s.totalSize)) records := by
  rw [unpackAll_eq_inOrder hpos h, inOrder_eq_ok_iff, List.forall₂_map_left_iff]

/-- A buffer of rows is refused with the error of the first row that is. -/
theorem unpackAll_eq_error_iff (hpos : 0 < s.totalSize) {bytes : Bytes}
    (h : bytes.length % s.totalSize = 0) {heap : Option σ} {e : Error} :
    s.unpackAll ρ bytes heap = .error e ↔
      ∃ i < bytes.length / s.totalSize, s.unpack ρ (s.row bytes i) heap = .error e ∧
        ∀ j < i, ∃ record, s.unpack ρ (s.row bytes j) heap = .ok record := by
  have hrow : ∀ {i : Nat} {row : Bytes},
      ((List.range (bytes.length / s.totalSize)).map (s.row bytes))[i]? = some row ↔
        i < bytes.length / s.totalSize ∧ s.row bytes i = row := by
    intro i row
    simp only [List.getElem?_eq_some_iff, List.getElem_map, List.getElem_range, List.length_map,
      List.length_range, exists_prop]
  rw [unpackAll_eq_inOrder hpos h, inOrder_eq_error_iff]
  simp only [hrow]
  constructor
  · rintro ⟨i, _, ⟨hi, rfl⟩, hread, hearlier⟩
    exact ⟨i, hi, hread, fun j hj => hearlier j hj _ ⟨hj.trans hi, rfl⟩⟩
  · rintro ⟨i, hi, hread, hearlier⟩
    refine ⟨i, _, ⟨hi, rfl⟩, hread, ?_⟩
    rintro j hj _ ⟨-, rfl⟩
    exact hearlier j hj

end Schema

/-- **The codec of many records is the codec of one, in turn.**  For a schema whose records have
bytes, packing records succeeds exactly if packing them one after another does, each on the heap
that the one before it left, and then yields their rows one behind the other and the last heap;
otherwise it ends like the first record that is refused.  Unpacking refuses a buffer that holds no
whole number of rows, yields the records of its rows, or ends with the error of the first row that
is refused.  Of a built schema the codecs that work in place, on windows of one buffer, do the same
as those that yield rows.  The bound on the size of a built one is that of a buffer, so that the
exact sums and products of sizes are those of machine words. -/
theorem record_runs_in_turn {s : Schema} (hpos : 0 < s.totalSize) {σ : Type} [Heap σ]
    {ρ : Type} [RecordAccess ρ] :
    (∀ (records : List ρ) (heap : Option σ) (bytes : Bytes) (after : Option σ),
      s.packAll records heap = (.ok bytes, after) ↔
        ∃ rows, InTurn s.pack records heap rows after ∧ bytes = rows.flatten) ∧
    (∀ (records : List ρ) (heap : Option σ) (e : Error) (after : Option σ),
      s.packAll records heap = (.error e, after) ↔
        ∃ before record rest rows later, records = before ++ record :: rest ∧
          InTurn s.pack before heap rows later ∧ s.pack record later = (.error e, after)) ∧
    (∀ (bytes : Bytes) (heap : Option σ),
      (bytes.length % s.totalSize ≠ 0 → s.unpackAll ρ bytes heap =
        .error (.bufferSize (bytes.length - bytes.length % s.totalSize) bytes.length)) ∧
      (bytes.length % s.totalSize = 0 →
        (∀ records, s.unpackAll ρ bytes heap = .ok records ↔
          List.Forall₂ (fun i record => s.unpack ρ (s.row bytes i) heap = .ok record)
            (List.range (bytes.length / s.totalSize)) records) ∧
        ∀ e, s.unpackAll ρ bytes heap = .error e ↔
          ∃ i < bytes.length / s.totalSize, s.unpack ρ (s.row bytes i) heap = .error e ∧
            ∀ j < i, ∃ record, s.unpack ρ (s.row bytes j) heap = .ok record)) ∧
    (s.Built → s.totalSize < 2 ^ 63 →
      (∀ (records : List ρ) (heap : Option σ),
        (∀ record ∈ records, ProperValues (RecordAccess.field? record)) →
        s.guardedPackAll records heap = .ok (s.packAll records heap) ∧
        ∀ record ∈ records, ∀ later : Option σ,
          s.guardedPack record later = .ok (s.pack record later)) ∧
      ∀ (bytes : Bytes) (heap : Option σ),
        s.guardedUnpackAll ρ bytes heap = .ok (s.unpackAll ρ bytes heap) ∧
        s.guardedUnpack ρ bytes heap = .ok (s.unpack ρ bytes heap)) := by
  refine ⟨fun records heap bytes after => ?_, fun records heap e after => ?_,
    fun bytes heap => ⟨fun h => Schema.unpackAll_of_ragged hpos h heap, fun h =>
      ⟨fun _ => Schema.unpackAll_eq_ok_iff hpos h, fun _ => Schema.unpackAll_eq_error_iff hpos h⟩⟩,
    fun hs hsize => ⟨fun records heap hproper => ⟨?_, fun record hrecord later => ?_⟩,
      fun bytes heap => ⟨hs.reads.unpackAll hsize bytes heap, hs.reads.unpack hsize bytes heap⟩⟩⟩
  · rw [Schema.packAll_eq_inSequence hpos, inSequence_eq_ok_iff]
  · rw [Schema.packAll_eq_inSequence hpos, inSequence_eq_error_iff]
  · obtain ⟨result, after, hguarded, -, hplain⟩ := hs.writes.packAll hsize records heap
    rw [hguarded, hplain hproper]
  · obtain ⟨result, after, hguarded, -, hplain⟩ := hs.writes.packInto hsize record [] later
    exact hguarded.trans (congrArg Except.ok (hplain (hproper record hrecord)).symm)

/-- A record whose text goes to the heap, and whose cells are absent. -/
def tagRecord : Fields := [("tag", .text "ok")]

/-- Two records put two texts on the heap, one after the other. -/
theorem record_runs_in_turn_tags :
    0 < rowSchema.totalSize ∧ rowSchema.Built ∧ rowSchema.totalSize < 2 ^ 63 ∧
    (∃ rows, InTurn rowSchema.pack [tagRecord, tagRecord] (some ({} : TransientStore)) rows
      (some { heap := [[111, 107], [111, 107]] })) ∧
    rowSchema.guardedPackAll [tagRecord, tagRecord] (some ({} : TransientStore)) =
      .ok (rowSchema.packAll [tagRecord, tagRecord] (some ({} : TransientStore))) ∧
    rowSchema.unpackAll Fields (Codec.zeros 25) (none : Option TransientStore) =
      .error (.bufferSize 24 25) ∧
    ∃ record, rowSchema.unpack Fields (rowSchema.row (Codec.zeros 48) 1)
      (none : Option TransientStore) = .ok record := by
  have hpos : 0 < rowSchema.totalSize := by decide
  have hbuilt := builtPlainly_rowSchema.built
  have hsize : rowSchema.totalSize < 2 ^ 63 := by decide
  have hentries : Value.WellFormedFields tagRecord := ⟨trivial, trivial⟩
  have hproper : ProperValues (RecordAccess.field? tagRecord) :=
    fun _ _ _ hv => wellFormed_of_get? hentries hv
  obtain ⟨hpack, -, hunpack, hinPlace⟩ :=
    record_runs_in_turn hpos (σ := TransientStore) (ρ := Fields)
  have hbytes : ∃ bytes, rowSchema.packAll [tagRecord, tagRecord] (some ({} : TransientStore)) =
      (.ok bytes, some { heap := [[111, 107], [111, 107]] }) := ⟨_, by cbv⟩
  have hrecords : ∃ records, rowSchema.unpackAll Fields (Codec.zeros 48)
      (none : Option TransientStore) = .ok records := ⟨_, by cbv⟩
  obtain ⟨bytes, hbytes⟩ := hbytes
  obtain ⟨records, hrecords⟩ := hrecords
  obtain ⟨rows, hturn, -⟩ := (hpack _ _ _ _).1 hbytes
  refine ⟨hpos, hbuilt, hsize, ⟨rows, hturn⟩, ?_, (hunpack _ _).1 (by decide), ?_⟩
  · exact ((hinPlace hbuilt hsize).1 _ _ (by simp [hproper])).1
  · have hrows := (((hunpack (Codec.zeros 48) none).2 (by decide)).1 records).1 hrecords
    cases hrows with
    | cons _ hrest =>
      cases hrest with
      | cons hlast _ => exact ⟨_, hlast⟩

end PackedRecord
