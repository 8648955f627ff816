import PackedRecord.Dataset
import PackedRecord.Proofs.EqualTexts
import PackedRecord.Proofs.SortedMaps

/-!
# Datasets that share their schemas

A type can be opened anew, or through a registry, which goes by the name of the type alone: a
schema that was cached for another shape, or for another layout of the same name, is used as
it is.

* `Registry.mem_offersAll_of_get?` — a registry holds nothing that was not offered to it under
  that name.
* `Description.sameRecords_iff` — schemas of one description differ in their bindings only.
* `shared_agrees_iff` — the dataset opened through a registry is the one opened anew exactly if
  the registry holds no other schema under the name.
* `shared_disagrees` — it need not be: the registry may have the type for another shape.
-/

namespace PackedRecord

/-! ## Schemas of the same records -/

/-- The same type, with its members laid out, coded and bound alike. -/
structure Schema.SameRecords (a b : Schema) : Prop where
  name : a.name = b.name
  totalSize : a.totalSize = b.totalSize
  byteOrder : a.settings.byteOrder = b.settings.byteOrder
  members : a.members = b.members
  /-- Records go by position in both or in neither. -/
  positional : (a.outline.kind == .positional) = (b.outline.kind == .positional)

namespace Schema.SameRecords

theorem refl (s : Schema) : s.SameRecords s := ⟨rfl, rfl, rfl, rfl, rfl⟩

theorem interchangeable {a b : Schema} (h : a.SameRecords b) : a.Interchangeable b := by
  obtain ⟨name, members, outline, size, settings⟩ := a
  obtain ⟨name', members', outline', size', settings'⟩ := b
  obtain ⟨-, hsize, horder, hmembers, hpositional⟩ := h
  dsimp only at hsize horder hmembers hpositional
  subst hsize hmembers
  refine ⟨rfl, rfl, ?_, ?_, ?_⟩
  · intro σ _ width value? heap
    simp only [Schema.write, horder]
  · intro σ _ bytes heap
    simp only [Schema.readings, horder, hpositional]
  · intro σ _ bytes name heap
    simp only [Schema.unpackMember, Schema.member?, horder]

end Schema.SameRecords

/-! ## Schemas of one description -/

namespace Blueprint

/-- What a build for stated placements yields: members as stated, with codecs and bindings. -/
theorem build_stated {b : Blueprint} {ps : List Placement} {s : Schema}
    (hps : b.placements = some ps) (hinfer : b.inferMissing = false) (h : b.build = .ok s) :
    s.name = b.typeName ∧ s.outline = b.shape.outline ∧ s.settings = b.settings ∧
      b.sizeFor (extentOf ps) = .ok s.totalSize ∧ b.members ps = .ok s.members := by
  have hlay : b.layOut = .ok ps := by
    unfold layOut
    rw [hps]
    dsimp only
    rw [hinfer]
    rfl
  obtain ⟨qs, hs⟩ := stages_of_build h
  cases hlay.symm.trans hs.laidOut
  exact ⟨hs.name, hs.outline, hs.settings, hs.size, hs.members⟩

/-- Members of the same placements differ in their bindings only. -/
theorem members_eq_iff {a b : Blueprint} (hrules : a.rules = b.rules)
    (hsettings : a.settings = b.settings) : ∀ {ps : List Placement} {ms ns : List Member},
    a.members ps = .ok ms → b.members ps = .ok ns →
    (ms = ns ↔ ∀ p ∈ ps, a.shape.outline.bind p.name = b.shape.outline.bind p.name)
  | [], ms, ns, hms, hns => by
    cases hms
    cases hns
    exact ⟨fun _ p hp => absurd hp List.not_mem_nil, fun _ => rfl⟩
  | p :: ps, ms, ns, hms, hns => by
    unfold members member at hms hns
    rw [← hrules, ← hsettings] at hns
    rcases hk : Kind.ofPlacement a.rules a.settings p with _ | kind <;>
      simp only [hk, Except.map] at hms hns
    · cases hms
    rcases hrest : a.members ps with _ | ms' <;> simp only [hrest] at hms
    · cases hms
    rcases hrest' : b.members ps with _ | ns' <;> simp only [hrest'] at hns
    · cases hns
    cases hms
    cases hns
    have ih := members_eq_iff hrules hsettings hrest hrest'
    simp only [List.cons.injEq, Member.mk.injEq, true_and, ih, List.forall_mem_cons]

end Blueprint

/-- Records of two shapes receive the members of a schema alike. -/
structure Shape.BindsLike (shape other : Shape) (s : Schema) : Prop where
  binding : ∀ m ∈ s.members, shape.outline.bind m.name = other.outline.bind m.name
  positional : (shape.kind == .positional) = (other.kind == .positional)

namespace Description

theorem toSchema_eq {d : Description} {shape : Shape} {s : Schema}
    (h : d.toSchema shape = .ok s) :
    ∃ ps, placements d.members = .ok ps ∧ Blueprint.build
      { shape := shape
        name := some d.name
        placements := some ps
        settings := { byteOrder := d.byteOrder }
        totalSize := some d.totalSize } = .ok s := by
  obtain ⟨name, size, order, members⟩ := d
  unfold toSchema at h
  rcases hps : placements members with _ | ps <;> simp only [hps] at h
  · cases h
  exact ⟨ps, rfl, h⟩

/-- **Schemas of one description differ in nothing but how the shape binds the members.** -/
theorem sameRecords_iff {d : Description} {shape other : Shape} {a b : Schema}
    (ha : d.toSchema shape = .ok a) (hb : d.toSchema other = .ok b) :
    a.SameRecords b ↔ shape.BindsLike other a := by
  obtain ⟨ps, hps, ha⟩ := toSchema_eq ha
  obtain ⟨qs, hqs, hb⟩ := toSchema_eq hb
  cases hps.symm.trans hqs
  obtain ⟨hname, houtline, hsettings, hsize, hmembers⟩ := Blueprint.build_stated rfl rfl ha
  obtain ⟨hname', houtline', hsettings', hsize', hmembers'⟩ := Blueprint.build_stated rfl rfl hb
  have hsame := Blueprint.members_eq_iff (by rfl) (by rfl) hmembers hmembers'
  have hplaces := (Blueprint.members_eq hmembers).1
  have hbound : (∀ p ∈ ps, shape.outline.bind p.name = other.outline.bind p.name) ↔
      ∀ m ∈ a.members, shape.outline.bind m.name = other.outline.bind m.name := by
    rw [← hplaces, List.forall_mem_map]
    rfl
  constructor
  · intro h
    refine ⟨hbound.1 (hsame.1 h.members), ?_⟩
    have hpositional := h.positional
    rwa [houtline, houtline'] at hpositional
  · intro h
    refine ⟨hname.trans hname'.symm, ?_, ?_, hsame.2 (hbound.2 h.binding), ?_⟩
    · exact Except.ok.inj (hsize.symm.trans hsize')
    · rw [hsettings, hsettings']
    · rw [houtline, houtline']
      exact h.positional

end Description

/-! ## What a registry holds -/

namespace Registry

theorem cached_release (r : Registry) (name : String) : (r.release name).cached = r.cached := by
  unfold release
  split
  · split <;> rfl
  · rfl

/-- An entry held after a schema was offered was held before, or is the one offered. -/
theorem mem_enter {r : Registry} {name other : String} {schema : Schema} {e : Instance}
    (h : (other, e) ∈ (r.enter name schema).2.cached) :
    (other, e) ∈ r.cached ∨ name = other ∧ e.schema = schema := by
  unfold enter at h
  cases hheld : r.get? name with
  | some existing =>
    simp only [hheld] at h
    split at h <;> exact .inl h
  | none =>
    simp only [hheld] at h
    rcases Assoc.mem_insert h with h | h
    · cases h
      exact .inr ⟨rfl, rfl⟩
    · exact .inl h

mutual

/-- Schemas that a call may enter under a name. -/
def Call.offers (name : String) : Call → List Schema
  | .publish (.ok schema) => if schema.name = name then [schema] else []
  | .getOrBuild other inside (.ok schema) =>
    offersAll name inside ++ if other = name then [schema] else []
  | .getOrBuild _ inside (.error _) => offersAll name inside
  | _ => []

/-- Schemas that some calls may enter under a name. -/
def offersAll (name : String) : List Call → List Schema
  | [] => []
  | call :: rest => call.offers name ++ offersAll name rest

end

mutual

/-- A call adds nothing but what it offers. -/
theorem Call.mem_offers {name : String} {e : Instance} : ∀ (call : Call) (r : Registry),
    (name, e) ∈ (call.run r).2.cached → (name, e) ∈ r.cached ∨ e.schema ∈ call.offers name
  | .get _, _, h => .inl h
  | .publish (.error _), _, h => .inl h
  | .publish (.ok schema), r, h => by
    unfold Call.run publish at h
    dsimp only at h
    rw [cached_release] at h
    rcases mem_enter h with h | ⟨hname, hschema⟩
    · exact .inl h
    · unfold Call.offers
      rw [if_pos hname]
      exact .inr (List.mem_singleton.2 hschema)
  | .getOrBuild other inside result, r, h => by
    unfold Call.run at h
    cases hheld : r.get? other with
    | some cached =>
      simp only [hheld] at h
      exact .inl h
    | none =>
      simp only [hheld] at h
      cases result with
      | error err =>
        dsimp only at h
        rw [cached_release] at h
        unfold Call.offers
        exact mem_offersAll inside (r.hold other) h
      | ok schema =>
        dsimp only at h
        rw [cached_release] at h
        unfold Call.offers
        rcases mem_enter h with h | ⟨hname, hschema⟩
        · exact (mem_offersAll inside (r.hold other) h).imp id (List.mem_append_left _)
        · rw [if_pos hname]
          exact .inr (List.mem_append_right _ (List.mem_singleton.2 hschema))
  | .remove _, _, h => .inl (Assoc.mem_of_mem_erase h)
  | .clear, _, h => by cases h
  | .size, _, h => .inl h

/-- **A run adds nothing but what its calls offer.** -/
theorem mem_offersAll {name : String} {e : Instance} : ∀ (calls : List Call) (r : Registry),
    (name, e) ∈ (runAll calls r).2.cached → (name, e) ∈ r.cached ∨ e.schema ∈ offersAll name calls
  | [], _, h => .inl h
  | call :: rest, r, h => by
    unfold runAll at h
    unfold offersAll
    rcases mem_offersAll rest (call.run r).2 h with h | h
    · exact (call.mem_offers r h).imp id (List.mem_append_left _)
    · exact .inr (List.mem_append_right _ h)

end

/-- What a registry holds after some calls was offered to it under that name. -/
theorem mem_offersAll_of_get? {calls : List Call} {name : String} {e : Instance}
    (h : (runAll calls {}).2.get? name = some e) : e.schema ∈ offersAll name calls := by
  rcases mem_offersAll calls {} (Assoc.mem_of_get? h) with h | h
  · exact absurd h List.not_mem_nil
  · exact h

end Registry

/-! ## Opening a type -/

namespace Dataset

/-- Two datasets of one type: the same records, kept at the same place. -/
structure Agrees (d e : Dataset) : Prop where
  schema : d.schema.SameRecords e.schema
  allocation : d.allocation = e.allocation

section Records

variable {σ : Type} [RecordStore σ] {ρ : Type} [RecordAccess ρ] {d e : Dataset}

/-- Datasets that agree read the same records. -/
theorem Agrees.read (h : d.Agrees e) (store : σ) (index : Nat) :
    d.read ρ store index = e.read ρ store index := by
  have hunpack : ∀ bytes (later : σ), d.schema.unpack ρ bytes (some later) =
      e.schema.unpack ρ bytes (some later) :=
    fun bytes later => h.schema.interchangeable.unpack bytes (some later)
  simp only [Dataset.read, h.allocation, hunpack]

/-- Datasets that agree write the same rows. -/
theorem Agrees.write (h : d.Agrees e) (store : σ) (index : Nat) (record : ρ) :
    d.write store index record = e.write store index record := by
  unfold Dataset.write
  rw [h.allocation, h.schema.interchangeable.pack record (some store)]

end Records

variable {σ : Type} [RecordStore σ] [Catalog σ] {store store' : σ} {registry : Registry}
  {name : String} {shape : Shape} {d : Dataset}

omit [Catalog σ] in
theorem attach_eq {schema : Schema} (h : attach store schema = (.ok d, store')) :
    d.schema = schema ∧
      RecordStore.allocate store schema.name schema.totalSize = .ok (d.allocation, store') := by
  unfold attach at h
  rcases ha : RecordStore.allocate store schema.name schema.totalSize with _ | ⟨a, s⟩ <;>
    simp only [ha] at h
  · cases h
  cases h
  exact ⟨rfl, rfl⟩

/-- What was opened is what the catalog has. -/
theorem load_eq (h : load store name shape = (.ok d, store')) :
    storedSchema store name shape = .ok d.schema ∧ attach store d.schema = (.ok d, store') := by
  unfold load at h
  rcases hs : storedSchema store name shape with _ | schema <;> simp only [hs] at h
  · cases h
  obtain ⟨rfl, -⟩ := attach_eq h
  exact ⟨rfl, h⟩

/-- What was opened through a registry is what the registry had, or else what the catalog
has. -/
theorem loadShared_eq {shared : Instance} {registry' : Registry}
    (h : loadShared store registry name shape = (.ok (shared, d), store', registry')) :
    (registry.get? name = some shared ∨
      registry.get? name = none ∧ storedSchema store name shape = .ok shared.schema) ∧
    d.schema = shared.schema ∧ attach store d.schema = (.ok d, store') := by
  have hattach : ∀ {i : Instance} {result : Except Error Dataset} {s : σ},
      attach store i.schema = (result, s) → result.map (fun e => (i, e)) = .ok (shared, d) →
      s = store' → i = shared ∧ d.schema = shared.schema ∧
        attach store d.schema = (.ok d, store') := by
    intro i result s ha hresult hs
    cases result with
    | error e => cases hresult
    | ok e =>
      cases hresult
      obtain ⟨hschema, -⟩ := attach_eq ha
      rw [hschema, ha, hs]
      exact ⟨rfl, rfl, rfl⟩
  unfold loadShared Registry.getOrBuild at h
  cases hheld : registry.get? name with
  | some cached =>
    simp only [hheld] at h
    rcases ha : attach store cached.schema with ⟨result, s⟩
    simp only [ha, Prod.mk.injEq] at h
    obtain ⟨rfl, hrest⟩ := hattach ha h.1 h.2.1
    exact ⟨.inl rfl, hrest⟩
  | none =>
    simp only [hheld] at h
    rcases hs : storedSchema store name shape with _ | schema <;> simp only [hs] at h
    · cases h
    have hheld' : (registry.hold name).get? name = none := hheld
    simp only [Registry.enter, hheld'] at h
    rcases ha : attach store schema with ⟨result, s⟩
    simp only [ha, Prod.mk.injEq] at h
    obtain ⟨rfl, hrest⟩ := hattach ha h.1 h.2.1
    exact ⟨.inr ⟨rfl, rfl⟩, hrest⟩

/-- The call on a registry by which a type is opened. -/
def opening (store : σ) (name : String) (shape : Shape) : Registry.Call :=
  .getOrBuild name [] (storedSchema store name shape)

omit [RecordStore σ] in
theorem run_opening (store : σ) (registry : Registry) (name : String) (shape : Shape) :
    ((opening store name shape).run registry).2 =
      (registry.getOrBuild name fun r => (storedSchema store name shape, r)).2 := by
  unfold opening Registry.Call.run Registry.getOrBuild Registry.runAll
  cases registry.get? name with
  | some cached => rfl
  | none => cases storedSchema store name shape <;> rfl

/-- Opening a type changes the registry by that call. -/
theorem registry_of_loadShared (store : σ) (registry : Registry) (name : String) (shape : Shape) :
    (loadShared store registry name shape).2.2 = ((opening store name shape).run registry).2 := by
  rw [run_opening]
  unfold loadShared
  rcases registry.getOrBuild name fun r => (storedSchema store name shape, r) with
    ⟨_ | shared, registry'⟩ <;> rfl

omit [Catalog σ] in
/-- A dataset opened through a registry agrees with one opened anew if their schemas have the
same records. -/
theorem agrees_of_sameRecords {d' : Dataset} {s s' : σ} (h : d'.schema.SameRecords d.schema)
    (hd : attach store d.schema = (.ok d, s)) (hd' : attach store d'.schema = (.ok d', s')) :
    d'.Agrees d ∧ s' = s := by
  obtain ⟨-, ha⟩ := attach_eq hd
  obtain ⟨-, ha'⟩ := attach_eq hd'
  rw [h.name, h.totalSize, ha] at ha'
  obtain ⟨hallocation, hstore⟩ := Prod.mk.inj (Except.ok.inj ha')
  exact ⟨⟨h, hallocation.symm⟩, hstore.symm⟩

end Dataset

/-- **Opening a type through a registry is like opening it anew exactly if the registry has no
other schema under its name**: none for a shape that binds the members otherwise, and no other
layout.  Then all records are read and written alike.  In particular it is if nothing else was
ever offered to the registry under that name, by a build, by an opening or by a publisher. -/
theorem shared_agrees_iff {σ : Type} [RecordStore σ] [Catalog σ] (calls : List Registry.Call)
    (store : σ) (name : String) (shape : Shape) {d d' : Dataset} {shared : Instance} {s s' : σ}
    {registry : Registry} (hload : Dataset.load store name shape = (.ok d, s))
    (hshared : Dataset.loadShared store (Registry.runAll calls {}).2 name shape =
      (.ok (shared, d'), s', registry)) :
    (d'.Agrees d ↔ ∀ held, (Registry.runAll calls {}).2.get? name = some held →
      held.schema.SameRecords d.schema) ∧
    (∀ held description other, (Registry.runAll calls {}).2.get? name = some held →
      Catalog.lookup store name = some description → description.toSchema other = .ok held.schema →
      (d'.Agrees d ↔ other.BindsLike shape held.schema)) ∧
    ((∀ schema ∈ Registry.offersAll name calls, schema.SameRecords d.schema) → d'.Agrees d) ∧
    (d'.Agrees d → s' = s ∧ ∀ {ρ : Type} [RecordAccess ρ] (later : σ) (index : Nat),
      d'.read ρ later index = d.read ρ later index ∧
      ∀ record : ρ, d'.write later index record = d.write later index record) := by
  obtain ⟨hstored, hd⟩ := Dataset.load_eq hload
  obtain ⟨hheld, hschema, hd'⟩ := Dataset.loadShared_eq hshared
  have hagrees : (∀ held, (Registry.runAll calls {}).2.get? name = some held →
      held.schema.SameRecords d.schema) → d'.schema.SameRecords d.schema := by
    intro h
    rw [hschema]
    rcases hheld with hheld | ⟨-, hbuilt⟩
    · exact h shared hheld
    · have hs := Except.ok.inj (hstored.symm.trans hbuilt)
      rw [← hs]
      exact .refl _
  have hsame : ∀ held, (Registry.runAll calls {}).2.get? name = some held →
      held.schema = d'.schema := by
    intro held h
    rcases hheld with hheld | ⟨hheld, -⟩
    · cases h.symm.trans hheld
      exact hschema.symm
    · cases h.symm.trans hheld
  have hiff : d'.Agrees d ↔ d'.schema.SameRecords d.schema :=
    ⟨Dataset.Agrees.schema, fun h => (Dataset.agrees_of_sameRecords h hd hd').1⟩
  refine ⟨⟨?_, ?_⟩, ?_, ?_, ?_⟩
  · intro h held hget
    rw [hsame held hget]
    exact h.schema
  · exact fun h => hiff.2 (hagrees h)
  · intro held description other hget hlookup hother
    have hbuilt : description.toSchema shape = .ok d.schema := by
      unfold Dataset.storedSchema at hstored
      rwa [hlookup] at hstored
    rw [hiff, ← hsame held hget]
    exact Description.sameRecords_iff hother hbuilt
  · intro h
    exact hiff.2 (hagrees fun held hget => h _ (Registry.mem_offersAll_of_get? hget))
  · intro h
    refine ⟨(Dataset.agrees_of_sameRecords h.schema hd hd').2, ?_⟩
    intro ρ _ later index
    exact ⟨h.read later index, fun record => h.write later index record⟩

/-! ## A type of two members -/

/-- A store that has the type of two members. -/
def pairStore : TransientStore := (Dataset.create {} pairSchema).2

def pairDataset : Dataset := ⟨pairSchema, ⟨"T", 2⟩⟩

/-- The type for records that receive the first member only. -/
def halfSchema : Schema :=
  ⟨"T", [⟨.plain "x" 0 .integer 1, .single (.scalar (.integer true)), .field 0⟩,
      ⟨.plain "y" 1 .integer 1, .single (.scalar (.integer true)), .unbound⟩],
    (Shape.map [⟨"x", .integer 1 true⟩]).outline, 2, {}⟩

def halfDataset : Dataset := ⟨halfSchema, ⟨"T", 2⟩⟩

theorem load_pairStore :
    Dataset.load pairStore "T" .openMap = (.ok pairDataset, pairStore) := by cbv

/-- Fields for both members. -/
def pairFields : List Field := [⟨"x", .integer 1 true⟩, ⟨"y", .integer 1 true⟩]

/-- The dataset of a shape that declares both fields. -/
def declaredDataset (shape : Shape) : Dataset :=
  ⟨⟨"T", [⟨.plain "x" 0 .integer 1, .single (.scalar (.integer true)), .field 0⟩,
      ⟨.plain "y" 1 .integer 1, .single (.scalar (.integer true)), .field 1⟩],
    shape.outline, 2, {}⟩, ⟨"T", 2⟩⟩

/-- A map and a typed record of the same fields can share a schema. -/
theorem shared_agrees_after_opening :
    ∃ shared registry, Dataset.loadShared pairStore (Registry.runAll
        [Dataset.opening pairStore "T" (.reflected "Pair" pairFields)] {}).2 "T"
          (.map pairFields) =
            (.ok (shared, declaredDataset (.reflected "Pair" pairFields)), pairStore, registry) ∧
      Dataset.load pairStore "T" (.map pairFields) =
        (.ok (declaredDataset (.map pairFields)), pairStore) ∧
      (declaredDataset (.reflected "Pair" pairFields)).Agrees
        (declaredDataset (.map pairFields)) := by
  obtain ⟨registry, hshared⟩ : ∃ registry, Dataset.loadShared pairStore (Registry.runAll
      [Dataset.opening pairStore "T" (.reflected "Pair" pairFields)] {}).2 "T"
        (.map pairFields) =
          (.ok (⟨0, (declaredDataset (.reflected "Pair" pairFields)).schema⟩,
            declaredDataset (.reflected "Pair" pairFields)), pairStore, registry) := ⟨_, by cbv⟩
  have hload : Dataset.load pairStore "T" (.map pairFields) =
      (.ok (declaredDataset (.map pairFields)), pairStore) := by cbv
  have hoffers : Registry.offersAll "T"
      [Dataset.opening pairStore "T" (.reflected "Pair" pairFields)] =
        [(declaredDataset (.reflected "Pair" pairFields)).schema] := by cbv
  refine ⟨_, registry, hshared, hload, ?_⟩
  refine (shared_agrees_iff _ pairStore "T" (.map pairFields) hload hshared).2.2.1 ?_
  intro schema h
  rw [hoffers] at h
  rw [List.mem_singleton.1 h]
  exact ⟨rfl, rfl, rfl, rfl, rfl⟩

/-- **A type that was opened through a registry for one shape is opened through it for every
other shape as it was for the first.** -/
theorem shared_disagrees :
    ∃ shared registry, Dataset.loadShared pairStore (Registry.runAll
        [Dataset.opening pairStore "T" (.map [⟨"x", .integer 1 true⟩])] {}).2 "T" .openMap =
          (.ok (shared, halfDataset), pairStore, registry) ∧
      Dataset.load pairStore "T" .openMap = (.ok pairDataset, pairStore) ∧
      ¬halfDataset.Agrees pairDataset ∧
      halfDataset.read Fields pairStore 0 ≠ pairDataset.read Fields pairStore 0 := by
  obtain ⟨registry, hshared⟩ : ∃ registry, Dataset.loadShared pairStore (Registry.runAll
      [Dataset.opening pairStore "T" (.map [⟨"x", .integer 1 true⟩])] {}).2 "T" .openMap =
        (.ok (⟨0, halfSchema⟩, halfDataset), pairStore, registry) := ⟨_, by cbv⟩
  have hhalf : halfDataset.read Fields pairStore 0 =
      (.ok [("x", .number (.int 0))], pairStore) := by cbv
  have hpair : pairDataset.read Fields pairStore 0 =
      (.ok [("x", .number (.int 0)), ("y", .number (.int 0))], pairStore) := by cbv
  have hread : halfDataset.read Fields pairStore 0 ≠ pairDataset.read Fields pairStore 0 := by
    rw [hhalf, hpair]
    intro h
    cases h
  exact ⟨_, registry, hshared, load_pairStore, fun h => hread (h.read pairStore 0), hread⟩

end PackedRecord
