import PackedRecord.Proofs.RebuiltSchemas
import PackedRecord.Proofs.TypedRecords

/-!
# Records by name and by position

A map is addressed by the names of the members, a row by their positions.  Schemas for the two are
built alike from the same blueprint, and both kinds of records are written from and filled with
one list of values.

* `Blueprint.build_positional` — the two builds differ in the kind of record alone.
* `writeMembers_eq_of_values` — members only ask for their own values.
* `fill_map`, `fill_row` — a map and a row filled with the values `readEach` has found.
* `rows_agree_with_maps` — rows and maps are written and read alike.
-/

namespace PackedRecord

/-! ## Building for either kind -/

namespace Blueprint

/-- Blueprints that make each member alike make all members alike. -/
theorem members_congr {a b : Blueprint} (h : a.member = b.member) : a.members = b.members := by
  funext ps
  induction ps with
  | nil => rfl
  | cons p rest ih =>
    unfold members
    rw [h, ih]

/-- Blueprints with the same stages yield the same schema up to the outline of the record. -/
theorem build_congr {a b : Blueprint} (hfields : a.shape.fields = b.shape.fields)
    (hname : a.typeName = b.typeName) (hlay : a.layOut = b.layOut) (hsize : a.sizeFor = b.sizeFor)
    (hmembers : a.members = b.members) (hsettings : a.settings = b.settings) :
    a.build = b.build.map fun s => { s with outline := a.shape.outline } := by
  simp only [build, hfields, hname, hlay, hsize, hmembers, hsettings]
  cases firstRepeated [] (b.shape.fields.map Field.name) with
  | some name => rfl
  | none =>
    simp only [bind, Except.bind]
    cases b.layOut with
    | error e => rfl
    | ok ps =>
      dsimp only
      cases checkPlacements b.typeName [] ps with
      | error e => rfl
      | ok _ =>
        dsimp only
        cases checkDisjoint b.typeName ps with
        | error e => rfl
        | ok _ =>
          dsimp only
          cases b.sizeFor (extentOf ps) with
          | error e => rfl
          | ok size =>
            dsimp only
            cases b.members ps <;> rfl

variable (b : Blueprint) (fs : List Field)

/-- The blueprint for maps with some declared fields. -/
def forMap : Blueprint := { b with shape := .map fs }

/-- The blueprint for rows with some declared fields. -/
def forRow : Blueprint := { b with shape := .positional fs }

/-- **A build for rows is the build for maps**, with the same error if it fails, up to the outline
of the record. -/
theorem build_forRow : (b.forRow fs).build =
    (b.forMap fs).build.map fun s => { s with outline := (Shape.positional fs).outline } :=
  build_congr rfl rfl rfl rfl (members_congr rfl) rfl

end Blueprint

/-! ## Writing -/

/-- Paired with other values, the first components are some of those there were. -/
theorem map_fst_zip_sublist {α β : Type} : ∀ (as : List α) (bs : List β),
    ((as.zip bs).map Prod.fst).Sublist as
  | [], _ => List.Sublist.slnil
  | _ :: _, [] => List.nil_sublist _
  | a :: as, _ :: bs => (map_fst_zip_sublist as bs).cons_cons a

section Heap

variable {σ : Type} [Heap σ]

/-- **Members only ask for their own values.** -/
theorem writeMembers_eq_of_values (order : ByteOrder)
    {value? value'? : String → Nat → Option Value} : ∀ {ms : List Member} {position : Nat},
    (∀ x ∈ ms.zipIdx position, value? x.1.name x.2 = value'? x.1.name x.2) →
    ∀ (buffer : Bytes) (heap : Option σ),
      writeMembers order ms value? position buffer heap =
        writeMembers order ms value'? position buffer heap
  | [], _, _, _, _ => rfl
  | ⟨p, kind, binding⟩ :: rest, position, h, buffer, heap => by
    rw [List.zipIdx_cons] at h
    obtain ⟨hhead, hrest⟩ := List.forall_mem_cons.1 h
    have ih := writeMembers_eq_of_values order hrest
    unfold writeMembers
    dsimp only [Member.name] at hhead
    simp only [hhead, ih]

namespace Schema

/-- The map that has the values of a row under the names of the members. -/
def fieldsOfRow (s : Schema) (vs : List Value) : Fields :=
  Assoc.ofList ((s.members.map Member.name).zip vs)

/-- Under distinct names the map has the values of the row. -/
theorem get?_fieldsOfRow {s : Schema} (hnames : (s.members.map Member.name).Nodup)
    (vs : List Value) {i : Nat} {m : Member} (hm : s.members[i]? = some m) :
    Assoc.get? m.name (s.fieldsOfRow vs) = vs[i]? := by
  have hname : (s.members.map Member.name)[i]? = some m.name := by
    rw [List.getElem?_map, hm, Option.map_some]
  have hkeys := (map_fst_zip_sublist (s.members.map Member.name) vs).nodup hnames
  cases hv : vs[i]? with
  | some v =>
    refine Assoc.get?_insertAll_of_mem hkeys ?_
    exact List.mem_of_getElem? (List.getElem?_zip_eq_some.2 ⟨hname, hv⟩)
  | none =>
    refine (Assoc.get?_insertAll_of_notMem fun hmem => ?_).trans rfl
    -- A value under this name would stand at this position.
    obtain ⟨⟨name, v⟩, hpair, rfl⟩ := List.mem_map.1 hmem
    obtain ⟨j, hj⟩ := List.mem_iff_getElem?.1 hpair
    obtain ⟨hj, hvalue⟩ := List.getElem?_zip_eq_some.1 hj
    rw [EnumTable.ordinal_inj hnames hj hname, hv] at hvalue
    cases hvalue

/-- **A row is written like the map of its values.** -/
theorem pack_row {m p : Schema} (hnames : (m.members.map Member.name).Nodup)
    (hmembers : p.members = m.members) (hsize : p.totalSize = m.totalSize)
    (hsettings : p.settings = m.settings) (vs : List Value) (heap : Option σ) :
    p.pack (Row.mk vs) heap = m.pack (m.fieldsOfRow vs) heap := by
  rw [pack_eq, pack_eq, hmembers, hsize, hsettings]
  refine writeMembers_eq_of_values _ (fun x hx => ?_) _ heap
  exact (get?_fieldsOfRow hnames vs (List.mem_zipIdx_iff_getElem?.1 hx)).symm

end Schema

/-! ## Reading -/

/-- Value of a member as its window holds it, or null if no field receives the member. -/
def Member.readOrNull (order : ByteOrder) (buffer : Bytes) (heap : Option σ) (m : Member) :
    Except Error Value :=
  if m.isMapped then m.kind.read m.placement order (m.placement.window buffer) heap else .ok .null

/-- Values of some members in order, up to the first failure. -/
def readEach (order : ByteOrder) (buffer : Bytes) (heap : Option σ) (ms : List Member) :
    Except Error (List Value) :=
  ms.mapM (Member.readOrNull order buffer heap)

section Values

variable {order : ByteOrder} {buffer : Bytes} {heap : Option σ}

theorem readEach_cons (m : Member) (rest : List Member) :
    readEach order buffer heap (m :: rest) =
      match m.readOrNull order buffer heap with
      | .error e => .error e
      | .ok v => (readEach order buffer heap rest).map (v :: ·) := by
  unfold readEach
  rw [mapM_cons_eq]
  cases m.readOrNull order buffer heap <;> rfl

end Values

section Filling

variable (order : ByteOrder) (buffer : Bytes) (heap : Option σ)

/-- Entries of the mapped members in a map. -/
def mappedEntries (ms : List Member) (vs : List Value) : List (String × Value) :=
  ((ms.zip vs).filter fun x => x.1.isMapped).map fun x => (x.1.name, x.2)

/-- **A map is filled with the values of the mapped members.** -/
theorem fill_map : ∀ (ms : List Member) (position : Nat) (acc : Fields),
    fill (readMembers false order buffer heap ms position) acc =
      (readEach order buffer heap ms).map fun vs => Assoc.insertAll (mappedEntries ms vs) acc
  | [], _, _ => rfl
  | ⟨p, kind, binding⟩ :: rest, position, acc => by
    rw [readEach_cons]
    unfold readMembers Member.readOrNull Member.isMapped
    cases hb : binding.isBound with
    | false =>
      simp only [Bool.false_eq_true, if_false]
      rw [fill_map rest (position + 1) acc]
      cases readEach order buffer heap rest with
      | error e => rfl
      | ok vs => simp [Except.map, mappedEntries, Member.isMapped, hb]
    | true =>
      simp only [if_true, fill]
      cases kind.read p order (p.window buffer) heap with
      | error e => rfl
      | ok v =>
        have ih := fill_map rest (position + 1) (Assoc.insert p.name v acc)
        simp only [RecordAccess.setField]
        rw [ih]
        cases readEach order buffer heap rest with
        | error e => rfl
        | ok vs => simp [Except.map, mappedEntries, Member.isMapped, Member.name, hb]

/-- **A row is filled with the values of all members.** -/
theorem fill_row : ∀ (ms : List Member) (done : List Value),
    fill (readMembers true order buffer heap ms done.length)
        (Row.mk (done ++ List.replicate ms.length .null)) =
      (readEach order buffer heap ms).map fun vs => Row.mk (done ++ vs)
  | [], done => rfl
  | ⟨p, kind, binding⟩ :: rest, done => by
    have hset : ∀ v, (Row.mk (done ++ List.replicate (rest.length + 1) .null)).set done.length v =
        Row.mk ((done ++ [v]) ++ List.replicate rest.length .null) := by
      intro v
      simp [Row.set, List.replicate_succ]
    have ih := fun v => fill_row rest (done ++ [v])
    simp only [List.length_append, List.length_singleton] at ih
    rw [readEach_cons]
    unfold readMembers Member.readOrNull Member.isMapped
    cases hb : binding.isBound with
    | false =>
      simp only [Bool.false_eq_true, if_false, if_true, fill, RecordAccess.setField,
        List.length_cons, hset, ih]
      cases readEach order buffer heap rest with
      | error e => rfl
      | ok vs => simp [Except.map]
    | true =>
      simp only [if_true, fill]
      cases kind.read p order (p.window buffer) heap with
      | error e => rfl
      | ok v =>
        simp only [RecordAccess.setField, List.length_cons, hset, ih]
        cases readEach order buffer heap rest with
        | error e => rfl
        | ok vs => simp [Except.map]

end Filling

/-! ## Rows and maps -/

/-- A row has one value for each member: the one that a map has under its name if the map's fields
receive it, else null.  The map has no other entries. -/
structure Row.Mirrors (ms : List Member) (row : Row) (r : Fields) : Prop where
  length : row.values.length = ms.length
  keys : ∀ name, name ∈ Assoc.keys r ↔ ∃ m ∈ ms, m.isMapped = true ∧ m.name = name
  mapped : ∀ (i : Nat) (m : Member), ms[i]? = some m → m.isMapped = true →
    row.values[i]? = Assoc.get? m.name r
  unmapped : ∀ (i : Nat) (m : Member), ms[i]? = some m → m.isMapped = false →
    row.values[i]? = some .null

section Entries

variable {ms : List Member} {vs : List Value}

omit [Heap σ] in
theorem mem_mappedEntries {name : String} {v : Value} : (name, v) ∈ mappedEntries ms vs ↔
    ∃ m, (m, v) ∈ ms.zip vs ∧ m.isMapped = true ∧ m.name = name := by
  simp only [mappedEntries, List.mem_map, List.mem_filter, Prod.exists, Prod.mk.injEq]
  constructor
  · rintro ⟨m, w, ⟨hmem, hmapped⟩, hname, rfl⟩
    exact ⟨m, hmem, hmapped, hname⟩
  · rintro ⟨m, hmem, hmapped, hname⟩
    exact ⟨m, v, ⟨hmem, hmapped⟩, hname, rfl⟩

omit [Heap σ] in
theorem mappedEntries_sublist (ms : List Member) (vs : List Value) :
    ((mappedEntries ms vs).map Prod.fst).Sublist (ms.map Member.name) := by
  have hfst : (mappedEntries ms vs).map Prod.fst =
      (((ms.zip vs).filter fun x => x.1.isMapped).map Prod.fst).map Member.name := by
    simp [mappedEntries, Function.comp_def]
  rw [hfst]
  exact ((List.filter_sublist.map Prod.fst).trans (map_fst_zip_sublist ms vs)).map Member.name

omit [Heap σ] in
/-- The map has the value of each mapped member under its name. -/
theorem get?_mappedEntries (hnames : (ms.map Member.name).Nodup) {i : Nat} {m : Member} {v : Value}
    (hm : ms[i]? = some m) (hv : vs[i]? = some v) (hmapped : m.isMapped = true) :
    Assoc.get? m.name (Assoc.insertAll (mappedEntries ms vs) []) = some v := by
  apply Assoc.get?_insertAll_of_mem ((mappedEntries_sublist ms vs).nodup hnames)
  have hpair : (m, v) ∈ ms.zip vs := List.mem_of_getElem? (List.getElem?_zip_eq_some.2 ⟨hm, hv⟩)
  exact mem_mappedEntries.2 ⟨m, hpair, hmapped, rfl⟩

omit [Heap σ] in
/-- The map has no value under any other name. -/
theorem exists_of_mem_keys_mappedEntries {name : String}
    (h : name ∈ Assoc.keys (Assoc.insertAll (mappedEntries ms vs) [])) :
    ∃ m ∈ ms, m.isMapped = true ∧ m.name = name := by
  by_contra hnone
  have hnot : name ∉ (mappedEntries ms vs).map Prod.fst := by
    intro hmem
    obtain ⟨⟨key, v⟩, hentry, rfl⟩ := List.mem_map.1 hmem
    obtain ⟨m, hpair, hmapped, hname⟩ := mem_mappedEntries.1 hentry
    exact hnone ⟨m, (List.of_mem_zip hpair).1, hmapped, hname⟩
  rw [← Assoc.isSome_get?_iff, Assoc.get?_insertAll_of_notMem hnot] at h
  cases h

end Entries

section Values

variable {order : ByteOrder} {buffer : Bytes} {heap : Option σ} {ms : List Member}
  {vs : List Value}

theorem exists_of_readEach (h : readEach order buffer heap ms = .ok vs) {i : Nat} {m : Member}
    (hm : ms[i]? = some m) : ∃ v, vs[i]? = some v ∧ m.readOrNull order buffer heap = .ok v := by
  have hrel := getElem?_rel (mapM_eq_ok_iff.1 h) i
  rw [hm] at hrel
  cases hv : vs[i]? with
  | none =>
    rw [hv] at hrel
    cases hrel
  | some v =>
    rw [hv, Option.rel_some_some] at hrel
    exact ⟨v, rfl, hrel⟩

/-- **The values that were read, as a row and as a map.** -/
theorem mirrors_of_readEach (hnames : (ms.map Member.name).Nodup)
    (h : readEach order buffer heap ms = .ok vs) :
    Row.Mirrors ms (Row.mk vs) (Assoc.insertAll (mappedEntries ms vs) []) where
  length := (mapM_eq_ok_iff.1 h).length_eq.symm
  keys name := by
    refine ⟨exists_of_mem_keys_mappedEntries, ?_⟩
    rintro ⟨m, hm, hmapped, rfl⟩
    obtain ⟨i, hi⟩ := List.mem_iff_getElem?.1 hm
    obtain ⟨v, hv, -⟩ := exists_of_readEach h hi
    rw [← Assoc.isSome_get?_iff, get?_mappedEntries hnames hi hv hmapped]
    rfl
  mapped i m hm hmapped := by
    obtain ⟨v, hv, -⟩ := exists_of_readEach h hm
    rw [get?_mappedEntries hnames hm hv hmapped]
    exact hv
  unmapped i m hm hmapped := by
    obtain ⟨v, hv, hread⟩ := exists_of_readEach h hm
    rw [Member.readOrNull, if_neg (by simp [hmapped])] at hread
    cases hread
    exact hv

end Values

/-- **A raw record is read as a row where it is read as a map**, with the same error or with the
same values. -/
theorem Schema.unpack_row {m p : Schema} (hnames : (m.members.map Member.name).Nodup)
    (hmembers : p.members = m.members) (hsize : p.totalSize = m.totalSize)
    (hsettings : p.settings = m.settings) (hmap : m.isPositional = false)
    (hrow : p.isPositional = true) (bytes : Bytes) (heap : Option σ) :
    (∃ e, m.unpack Fields bytes heap = .error e ∧ p.unpack Row bytes heap = .error e) ∨
    ∃ r row, m.unpack Fields bytes heap = .ok r ∧ p.unpack Row bytes heap = .ok row ∧
      Row.Mirrors p.members row r := by
  have hstart : RecordAccess.empty (ρ := Row) p.length =
      Row.mk ([] ++ List.replicate m.members.length .null) := by
    rw [← hmembers]
    rfl
  simp only [unpack, readings_eq, hsize, hmembers, hsettings, hmap, hrow]
  by_cases hlen : bytes.length = m.totalSize
  · have hfields := fill_map m.settings.byteOrder bytes heap m.members 0 []
    have hvalues := fill_row m.settings.byteOrder bytes heap m.members []
    rw [List.length_nil, ← hstart] at hvalues
    simp only [if_pos hlen]
    cases heach : readEach m.settings.byteOrder bytes heap m.members with
    | error e =>
      rw [heach] at hfields hvalues
      exact .inl ⟨e, hfields, hvalues⟩
    | ok vs =>
      rw [heach] at hfields hvalues
      exact .inr ⟨_, _, hfields, hvalues, mirrors_of_readEach hnames heach⟩
  · simp only [if_neg hlen]
    exact .inl ⟨_, rfl, rfl⟩

end Heap

/-- **Rows and maps agree.**  For any layout and any declared fields a schema for maps is built
exactly if one for rows is, with the same error otherwise.  A row of any length is written like the
map that has its values under the names of the members, with the same result and the same heap;
and any buffer is read as a row exactly if it is read as a map, with the same error otherwise.  The
row then has one value for each member: that of the map where a field receives the member, and null
elsewhere. -/
theorem rows_agree_with_maps (b : Blueprint) (fs : List Field) :
    (∀ e, (b.forMap fs).build = .error e ↔ (b.forRow fs).build = .error e) ∧
    ∀ m p, (b.forMap fs).build = .ok m → (b.forRow fs).build = .ok p →
      m.members = p.members ∧
      ∀ (σ : Type) [Heap σ] (heap : Option σ),
        (∀ vs : List Value, p.pack (Row.mk vs) heap = m.pack (m.fieldsOfRow vs) heap) ∧
        ∀ bytes : Bytes,
          (∃ e, m.unpack Fields bytes heap = .error e ∧ p.unpack Row bytes heap = .error e) ∨
          ∃ r row, m.unpack Fields bytes heap = .ok r ∧ p.unpack Row bytes heap = .ok row ∧
            Row.Mirrors p.members row r := by
  have hbuild := b.build_forRow fs
  constructor
  · intro e
    rw [hbuild]
    cases (b.forMap fs).build with
    | error e' => exact Iff.rfl
    | ok m => exact iff_of_false nofun nofun
  · intro m p hm hp
    obtain ⟨hl, houtline, -⟩ := Blueprint.laidOut_of_build hm
    obtain ⟨-, houtline', -⟩ := Blueprint.laidOut_of_build hp
    rw [hbuild, hm] at hp
    have hsame := Except.ok.inj hp
    have hmembers : p.members = m.members := by rw [← hsame]
    have hsize : p.totalSize = m.totalSize := by rw [← hsame]
    have hsettings : p.settings = m.settings := by rw [← hsame]
    have hmap : m.isPositional = false := by
      rw [Schema.isPositional, houtline]
      rfl
    have hrow : p.isPositional = true := by
      rw [Schema.isPositional, houtline']
      rfl
    refine ⟨hmembers.symm, fun σ _ heap => ⟨fun vs => ?_, fun bytes => ?_⟩⟩
    · exact Schema.pack_row hl.names hmembers hsize hsettings vs heap
    · exact Schema.unpack_row hl.names hmembers hsize hsettings hmap hrow bytes heap

/-- Three numbers, of which no field receives the second. -/
def sparseBlueprint : Blueprint :=
  openBlueprint "Sparse" [.integer "low" 0 2, .integer "spare" 2 2, .integer "high" 4 2]

def sparseFields : List Field := [⟨"low", .integer 2 true⟩, ⟨"high", .integer 2 true⟩]

/-- A row that is too short, and a raw record with content where no field receives it. -/
theorem rows_agree_with_maps_sparse : ∃ m p, (sparseBlueprint.forMap sparseFields).build = .ok m ∧
    (sparseBlueprint.forRow sparseFields).build = .ok p ∧
    p.pack (Row.mk [.number (.int 7), .text "?"]) (none : Option TransientStore) =
      m.pack (m.fieldsOfRow [.number (.int 7), .text "?"]) none ∧
    ∃ r row, m.unpack Fields [1, 0, 2, 0, 3, 0] (none : Option TransientStore) = .ok r ∧
      p.unpack Row [1, 0, 2, 0, 3, 0] (none : Option TransientStore) = .ok row ∧
      Row.Mirrors p.members row r ∧ row.values[1]? = some .null := by
  obtain ⟨hbuilds, hagree⟩ := rows_agree_with_maps sparseBlueprint sparseFields
  obtain ⟨m, hm, hread⟩ : ∃ m, (sparseBlueprint.forMap sparseFields).build = .ok m ∧
      ∃ r, m.unpack Fields [1, 0, 2, 0, 3, 0] (none : Option TransientStore) = .ok r :=
    ⟨_, by cbv, _, by cbv⟩
  obtain ⟨p, hp, hspare⟩ : ∃ p, (sparseBlueprint.forRow sparseFields).build = .ok p ∧
      ∃ n, p.members[1]? = some n ∧ n.isMapped = false :=
    ⟨_, by cbv, _, by cbv, by cbv⟩
  obtain ⟨-, hrecords⟩ := hagree m p hm hp
  obtain ⟨hpack, hunpack⟩ := hrecords TransientStore none
  refine ⟨m, p, hm, hp, hpack _, ?_⟩
  obtain ⟨r, hr⟩ := hread
  rcases hunpack [1, 0, 2, 0, 3, 0] with ⟨e, he, -⟩ | ⟨r', row, hr', hrow, hmirrors⟩
  · rw [hr] at he
    cases he
  · obtain ⟨n, hn, hunmapped⟩ := hspare
    exact ⟨r', row, hr', hrow, hmirrors, hmirrors.unmapped 1 n hn hunmapped⟩

end PackedRecord
