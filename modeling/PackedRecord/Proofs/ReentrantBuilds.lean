import PackedRecord.Proofs.RefusedDatasets

/-!
# Builds that use their registry

The build of a schema may itself look up, publish, build and drop schemas of the same registry,
also of the very name it is made for.

* `Registry.after_changesAll` — a run is a sequence of changes, so that the registry has a state
  at every moment of it.
* `Registry.get?_after` — a cached instance stays until its name is dropped.
* `Registry.ComesTo.holders` — a gate is held once by each pending build of its name.
* `reentrant_builds` — what holds of every run: answers are what is cached, nothing cached is
  replaced, failures change nothing, and no gate stays behind.
-/

namespace PackedRecord

namespace Registry

/-! ## Changes -/

/-- What a call does to a registry in one go. -/
inductive Change where
  | hold (name : String)
  | release (name : String)
  | enter (name : String) (schema : Schema)
  | remove (name : String)
  | clear

/-- The registry once it was changed. -/
def Change.apply : Change → Registry → Registry
  | .hold name, r => r.hold name
  | .release name, r => r.release name
  | .enter name schema, r => (r.enter name schema).2
  | .remove name, r => r.remove name
  | .clear, r => r.clear

/-- The registry after some changes. -/
def after (changes : List Change) (r : Registry) : Registry :=
  changes.foldl (fun r change => change.apply r) r

@[simp] theorem after_nil (r : Registry) : after [] r = r := rfl

@[simp] theorem after_cons (change : Change) (changes : List Change) (r : Registry) :
    after (change :: changes) r = after changes (change.apply r) := rfl

@[simp] theorem after_append (changes later : List Change) (r : Registry) :
    after (changes ++ later) r = after later (after changes r) :=
  List.foldl_append

/-- What the end of a build changes. -/
def entering (name : String) : Except Error Schema → List Change
  | .ok schema => [.enter name schema]
  | .error _ => []

mutual

/-- Changes a call makes, those of its build included. -/
def Call.changes : Call → Registry → List Change
  | .publish (.ok schema), _ =>
    [.hold schema.name, .enter schema.name schema, .release schema.name]
  | .getOrBuild name inside result, r =>
    match r.get? name with
    | some _ => []
    | none =>
      .hold name :: (changesAll inside (r.hold name) ++ entering name result ++ [.release name])
  | .remove name, _ => [.remove name]
  | .clear, _ => [.clear]
  | _, _ => []

/-- Changes some calls make. -/
def changesAll : List Call → Registry → List Change
  | [], _ => []
  | call :: rest, r => call.changes r ++ changesAll rest (call.run r).2

end

mutual

theorem Call.after_changes : ∀ (call : Call) (r : Registry),
    after (call.changes r) r = (call.run r).2
  | .get _, _ => rfl
  | .publish (.error _), _ => rfl
  | .publish (.ok _), _ => rfl
  | .getOrBuild name inside result, r => by
    unfold Call.changes Call.run
    cases r.get? name with
    | some cached => rfl
    | none =>
      have hinside := after_changesAll inside (r.hold name)
      cases result <;>
        simp only [entering, List.append_nil, after_cons, after_append, after_nil, Change.apply,
          hinside]
  | .remove _, _ => rfl
  | .clear, _ => rfl
  | .size, _ => rfl

/-- **A run is the sequence of its changes.** -/
theorem after_changesAll : ∀ (calls : List Call) (r : Registry),
    after (changesAll calls r) r = (runAll calls r).2
  | [], _ => rfl
  | call :: rest, r => by
    unfold changesAll runAll
    rw [after_append, call.after_changes]
    exact after_changesAll rest _

end

/-! ## Cached instances -/

variable {r s : Registry} {name : String} {schema : Schema} {held a : Instance}

theorem enter_of_held (h : r.get? name = some held) : (r.enter name schema).2 = r := by
  unfold enter
  rw [h]
  dsimp only
  split <;> rfl

theorem enter_of_new (h : r.get? name = none) : r.enter name schema = (.ok ⟨r.next, schema⟩,
    { r with cached := Assoc.insert name ⟨r.next, schema⟩ r.cached, next := r.next + 1 }) := by
  unfold enter
  rw [h]

theorem next_release (r : Registry) (name : String) : (r.release name).next = r.next := by
  unfold release
  split
  · split <;> rfl
  · rfl

/-- What a change may add: the schema that is entered, with a number of its own. -/
theorem Change.mem_apply {change : Change} {e : String × Instance}
    (h : e ∈ (change.apply r).cached) : e ∈ r.cached ∨
      ∃ name schema, change = .enter name schema ∧ r.get? name = none ∧
        e = (name, ⟨r.next, schema⟩) := by
  cases change with
  | hold name => exact .inl h
  | release name =>
    rw [Change.apply, cached_release] at h
    exact .inl h
  | enter name schema =>
    rw [Change.apply] at h
    cases hheld : r.get? name with
    | some held =>
      rw [enter_of_held hheld] at h
      exact .inl h
    | none =>
      rw [enter_of_new hheld] at h
      rcases Assoc.mem_insert h with rfl | h
      · exact .inr ⟨name, schema, rfl, hheld, rfl⟩
      · exact .inl h
  | remove name => exact .inl (Assoc.mem_of_mem_erase h)
  | clear => cases h

theorem Change.next_apply (change : Change) (r : Registry) : r.next ≤ (change.apply r).next := by
  cases change with
  | release name => exact Nat.le_of_eq (next_release r name).symm
  | enter name schema =>
    rw [Change.apply]
    cases hheld : r.get? name with
    | some held => rw [enter_of_held hheld]
    | none =>
      rw [enter_of_new hheld]
      exact Nat.le_succ _
  | hold _ | remove _ | clear => exact Nat.le_refl _

/-- A change drops a cached instance only as a removal of its name or of all. -/
theorem Change.get?_apply {change : Change} (h : r.get? name = some a)
    (hremove : change ≠ .remove name) (hclear : change ≠ .clear) :
    (change.apply r).get? name = some a := by
  cases change with
  | hold other => exact h
  | release other =>
    rw [Change.apply, get?, cached_release]
    exact h
  | enter other schema =>
    rw [Change.apply]
    cases hheld : r.get? other with
    | some held => rwa [enter_of_held hheld]
    | none =>
      have hne : name ≠ other := by
        rintro rfl
        cases hheld.symm.trans h
      rw [enter_of_new hheld]
      exact (Assoc.get?_insert_of_ne hne _ _).trans h
  | remove other =>
    have hne : name ≠ other := fun he => hremove (he ▸ rfl)
    exact (Assoc.get?_erase_of_ne hne _).trans h
  | clear => exact absurd rfl hclear

/-- **A cached instance stays until its name is dropped.** -/
theorem get?_after {changes : List Change} (h : r.get? name = some a)
    (hkept : ∀ change ∈ changes, change ≠ .remove name ∧ change ≠ .clear) :
    (after changes r).get? name = some a := by
  induction changes generalizing r with
  | nil => exact h
  | cons change changes ih =>
    obtain ⟨hremove, hclear⟩ := hkept change List.mem_cons_self
    exact ih (Change.get?_apply h hremove hclear) fun c hc => hkept c (List.mem_cons_of_mem _ hc)

/-- Instances are told apart by their numbers. -/
structure Numbered (r : Registry) : Prop where
  below : ∀ e ∈ r.cached, e.2.number < r.next
  apart : ∀ e ∈ r.cached, ∀ e' ∈ r.cached, e.2.number = e'.2.number → e = e'

theorem Numbered.nil : Numbered {} :=
  ⟨fun _ h => absurd h List.not_mem_nil, fun _ h => absurd h List.not_mem_nil⟩

theorem Numbered.apply (h : r.Numbered) (change : Change) : (change.apply r).Numbered := by
  have hnew : ∀ e ∈ r.cached, e.2.number ≠ r.next := fun e he => Nat.ne_of_lt (h.below e he)
  constructor
  · intro e he
    rcases Change.mem_apply he with he | ⟨name, schema, rfl, hnone, rfl⟩
    · exact Nat.lt_of_lt_of_le (h.below e he) (change.next_apply r)
    · rw [Change.apply, enter_of_new hnone]
      exact Nat.lt_succ_self _
  · intro e he e' he' hnumber
    rcases Change.mem_apply he with he | ⟨name, schema, rfl, -, rfl⟩ <;>
      rcases Change.mem_apply he' with he' | ⟨name', schema', hchange, -, rfl⟩
    · exact h.apart e he e' he' hnumber
    · exact absurd hnumber (hnew e he)
    · exact absurd hnumber.symm (hnew e' he')
    · cases hchange
      rfl

theorem Numbered.after (h : r.Numbered) (changes : List Change) :
    (Registry.after changes r).Numbered := by
  induction changes generalizing r with
  | nil => exact h
  | cons change changes ih => exact ih (h.apply change)

/-- **A number is never given again**: whatever is cached later under it is what was cached. -/
theorem Numbered.same {e e' : String × Instance} {changes : List Change} (h : r.Numbered)
    (he : e ∈ r.cached) (he' : e' ∈ (Registry.after changes r).cached)
    (hnumber : e'.2.number = e.2.number) : e' = e := by
  have hkeeps : ∀ {r : Registry} (changes : List Change), e.2.number < r.next →
      (∀ x ∈ r.cached, x.2.number = e.2.number → x = e) →
      ∀ x ∈ (Registry.after changes r).cached, x.2.number = e.2.number → x = e := by
    intro r changes
    induction changes generalizing r with
    | nil => exact fun _ hr => hr
    | cons change changes ih =>
      intro hlt hr
      refine ih (Nat.lt_of_lt_of_le hlt (change.next_apply r)) ?_
      intro x hx hnumber
      rcases Change.mem_apply hx with hx | ⟨name, schema, -, -, rfl⟩
      · exact hr x hx hnumber
      · exact absurd hnumber (Nat.ne_of_gt hlt)
  exact hkeeps changes (h.below e he) (fun x hx hnumber => h.apart x hx e he hnumber) e' he' hnumber

/-! ## Calls within a run -/

/-- Running some calls comes to a call, inside pending builds of these names: innermost last. -/
inductive ComesTo : List Call → Registry → List String → Call → Registry → Prop where
  | here {call : Call} {rest : List Call} {r : Registry} : ComesTo (call :: rest) r [] call r
  | later {first call : Call} {rest : List Call} {r s : Registry} {pending : List String}
    (h : ComesTo rest (first.run r).2 pending call s) : ComesTo (first :: rest) r pending call s
  | inside {name : String} {calls rest : List Call} {result : Except Error Schema} {call : Call}
    {r s : Registry} {pending : List String} (hnew : r.get? name = none)
    (h : ComesTo calls (r.hold name) pending call s) :
    ComesTo (.getOrBuild name calls result :: rest) r (name :: pending) call s

/-- Number of holders of the gate of a name. -/
def holders (r : Registry) (name : String) : Nat := (Assoc.get? name r.gates).getD 0

theorem holders_hold (r : Registry) (name other : String) :
    (r.hold name).holders other = r.holders other + if name = other then 1 else 0 := by
  unfold holders hold
  split
  · rename_i h
    subst h
    rw [Assoc.get?_insert_self]
    rfl
  · rename_i h
    rw [Assoc.get?_insert_of_ne (Ne.symm h)]
    rfl

namespace ComesTo

variable {calls : List Call} {pending : List String} {call : Call}

/-- A call that a run comes to makes its changes at one place of the run. -/
theorem changes (h : ComesTo calls r pending call s) : ∃ earlier later,
    changesAll calls r = earlier ++ call.changes s ++ later ∧ after earlier r = s := by
  induction h with
  | @here call rest r =>
    exact ⟨[], changesAll rest (call.run r).2, rfl, rfl⟩
  | @later first call rest r s pending h ih =>
    obtain ⟨earlier, later, hchanges, hafter⟩ := ih
    refine ⟨first.changes r ++ earlier, later, ?_, ?_⟩
    · rw [changesAll, hchanges]
      simp only [List.append_assoc]
    · rw [after_append, first.after_changes, hafter]
  | @inside name calls rest result call r s pending hnew h ih =>
    obtain ⟨earlier, later, hchanges, hafter⟩ := ih
    refine ⟨.hold name :: earlier, later ++ entering name result ++ [.release name] ++
      changesAll rest ((Call.getOrBuild name calls result).run r).2, ?_, ?_⟩
    · rw [changesAll, Call.changes, hnew]
      simp only [hchanges, List.cons_append, List.append_assoc]
    · rw [after_cons]
      exact hafter

/-- **A gate has one holder more for each pending build of its name**, and for nothing else. -/
theorem holders (h : ComesTo calls r pending call s) (hr : Gated r.gates) : Gated s.gates ∧
    ∀ name, s.holders name = r.holders name + pending.count name := by
  induction h with
  | here => exact ⟨hr, fun _ => rfl⟩
  | @later first call rest r s pending h ih =>
    have hgates := first.gates_run hr
    obtain ⟨hs, hcount⟩ := ih (hgates ▸ hr)
    refine ⟨hs, fun name => ?_⟩
    rw [hcount name, Registry.holders, hgates, Registry.holders]
  | @inside other calls rest result call r s pending hnew h ih =>
    obtain ⟨hs, hcount⟩ := ih (hr.hold other)
    refine ⟨hs, fun name => ?_⟩
    rw [hcount name, holders_hold, List.count_cons]
    simp only [beq_iff_eq]
    omega

end ComesTo

theorem Gated.get?_eq {pending : List String} (h : Gated r.gates)
    (hholders : r.holders name = 0 + pending.count name) :
    Assoc.get? name r.gates = if name ∈ pending then some (pending.count name) else none := by
  unfold holders at hholders
  cases hg : Assoc.get? name r.gates with
  | none =>
    rw [hg] at hholders
    have hnot : name ∉ pending := List.count_eq_zero.1 (by simpa using hholders.symm)
    rw [if_neg hnot]
  | some n =>
    have hpos : 0 < n := h.held _ (Assoc.mem_of_get? hg)
    rw [hg] at hholders
    have hcount : n = pending.count name := by simpa using hholders
    rw [if_pos (List.count_pos_iff.1 (hcount ▸ hpos)), hcount]

/-! ## Answers -/

/-- Name under which a call may cache a schema. -/
def Call.name? : Call → Option String
  | .publish (.ok schema) => some schema.name
  | .getOrBuild name _ _ => some name
  | _ => none

/-- What a call offers to the registry, if its build ends so. -/
def Call.offer? : Call → Option (Except Error Schema)
  | .publish result | .getOrBuild _ _ result => some result
  | _ => none

/-- The instance a call obtained, or its failure. -/
def Reply.result? : Reply → Option (Except Error Instance)
  | .published result | .obtained _ _ result => some result
  | _ => none

/-- The registry as the build of a call leaves it. -/
def Call.meanwhile : Call → Registry → Registry
  | .getOrBuild name inside _, r =>
    match r.get? name with
    | some _ => r
    | none => (runAll inside (r.hold name)).2
  | _, r => r

theorem Call.meanwhile_build {inside : List Call} {result : Except Error Schema}
    (h : r.get? name = none) : (Call.getOrBuild name inside result).meanwhile r =
      (runAll inside (r.hold name)).2 := by
  rw [Call.meanwhile, h]

theorem get?_enter (h : (r.enter name schema).1 = .ok a) :
    (r.enter name schema).2.get? name = some a := by
  cases hheld : r.get? name with
  | some held =>
    rw [enter_of_held hheld, hheld]
    unfold enter at h
    rw [hheld] at h
    dsimp only at h
    split at h
    · cases h
      rfl
    · cases h
  | none =>
    rw [enter_of_new hheld] at h ⊢
    cases h
    exact Assoc.get?_insert_self _ _ _

theorem get?_release (r : Registry) (name other : String) :
    (r.release name).get? other = r.get? other := by
  rw [get?, get?, cached_release]

/-- A schema is refused for another one that is cached under its name. -/
theorem enter_refused {e : Error} (h : (r.enter name schema).1 = .error e) :
    (r.enter name schema).2 = r ∧ ∃ held, r.get? name = some held ∧
      held.schema.fingerprint ≠ schema.fingerprint ∧ e = .conflict name .divergentLayout := by
  cases hheld : r.get? name with
  | some held =>
    refine ⟨enter_of_held hheld, held, rfl, ?_⟩
    unfold enter at h
    rw [hheld] at h
    dsimp only at h
    split at h
    · cases h
    · rename_i hdiffers
      cases h
      exact ⟨hdiffers, rfl⟩
  | none =>
    rw [enter_of_new hheld] at h
    cases h

/-- **An answer is what is cached at the moment.** -/
theorem Call.get?_run {call : Call} (hname : call.name? = some name)
    (h : (call.run r).1.result? = some (.ok a)) : (call.run r).2.get? name = some a := by
  cases call with
  | publish result =>
    cases result with
    | error e => cases hname
    | ok schema =>
      cases hname
      rw [Call.run, Registry.publish, get?_release]
      exact get?_enter (Option.some.inj h)
  | getOrBuild other inside result =>
    cases hname
    unfold Call.run at h ⊢
    cases hheld : r.get? name with
    | some cached =>
      simp only [hheld] at h
      cases h
      exact hheld
    | none =>
      simp only [hheld] at h
      cases result with
      | error e => cases h
      | ok schema =>
        dsimp only
        rw [get?_release]
        exact get?_enter (Option.some.inj h)
  | get _ | remove _ | clear | size => cases hname

/-- **A failure caches and drops nothing**: the build failed itself, or what it made is refused
for what is cached by then. -/
theorem Call.run_failed {call : Call} {e : Error}
    (h : (call.run r).1.result? = some (.error e)) :
    (call.run r).2.cached = (call.meanwhile r).cached ∧
    (call.offer? = some (.error e) ∨ ∃ name schema held, call.name? = some name ∧
      call.offer? = some (.ok schema) ∧ (call.meanwhile r).get? name = some held ∧
      held.schema.fingerprint ≠ schema.fingerprint ∧ e = .conflict name .divergentLayout) := by
  cases call with
  | publish result =>
    cases result with
    | error e' =>
      cases h
      exact ⟨rfl, .inl rfl⟩
    | ok schema =>
      obtain ⟨hsame, held, hheld, hrefused⟩ := enter_refused (Option.some.inj h)
      refine ⟨?_, .inr ⟨_, schema, held, rfl, rfl, hheld, hrefused⟩⟩
      rw [Call.run, Registry.publish, cached_release, hsame]
      rfl
  | getOrBuild name inside result =>
    unfold Call.run at h ⊢
    cases hnew : r.get? name with
    | some cached =>
      simp only [hnew] at h
      cases h
    | none =>
      rw [Call.meanwhile_build hnew]
      simp only [hnew] at h
      cases result with
      | error e' =>
        cases h
        exact ⟨cached_release _ _, .inl rfl⟩
      | ok schema =>
        obtain ⟨hsame, held, hheld, hrefused⟩ := enter_refused (Option.some.inj h)
        refine ⟨?_, .inr ⟨name, schema, held, rfl, rfl, hheld, hrefused⟩⟩
        dsimp only
        rw [cached_release, hsame]
  | get _ | remove _ | clear | size => cases h

end Registry

/-- **What holds of a registry in every run, whatever its builds do with it.**  Each call the run
comes to, inside whatever pending builds, makes its changes at one place of the run.  It answers
with what is cached under its name when it returns; if it fails it leaves the cache as its build
did, and then the build failed itself or something else was cached under its name by then; and
before and after it each gate is held once by each pending build of its name.  Between any two
moments an instance stays cached unless its name is dropped, and no other instance ever has its
number.  After each outermost call there are no gates. -/
theorem reentrant_builds (calls : List Registry.Call) :
    (∀ pending call s, Registry.ComesTo calls {} pending call s →
      (∃ earlier later,
        Registry.changesAll calls {} = earlier ++ call.changes s ++ later ∧
        Registry.after earlier {} = s ∧
        Registry.after (earlier ++ call.changes s) {} = (call.run s).2) ∧
      (∀ name a, call.name? = some name → (call.run s).1.result? = some (.ok a) →
        (call.run s).2.get? name = some a) ∧
      (∀ e, (call.run s).1.result? = some (.error e) →
        (call.run s).2.cached = (call.meanwhile s).cached ∧
        (call.offer? = some (.error e) ∨ ∃ name schema held, call.name? = some name ∧
          call.offer? = some (.ok schema) ∧ (call.meanwhile s).get? name = some held ∧
          held.schema.fingerprint ≠ schema.fingerprint ∧
          e = .conflict name .divergentLayout)) ∧
      (∀ name, Assoc.get? name s.gates =
        if name ∈ pending then some (pending.count name) else none) ∧
      (call.run s).2.gates = s.gates) ∧
    (∀ earlier between later, Registry.changesAll calls {} = earlier ++ between ++ later →
      ∀ name a, (Registry.after earlier {}).get? name = some a →
        ((∀ change ∈ between, change ≠ .remove name ∧ change ≠ .clear) →
          (Registry.after (earlier ++ between) {}).get? name = some a) ∧
        ∀ other b, (Registry.after (earlier ++ between) {}).get? other = some b →
          b.number = a.number → other = name ∧ b = a) ∧
    ∀ n, (Registry.runAll (calls.take n) {}).2.gates = [] := by
  refine ⟨?_, ?_, fun n => Registry.gates_runAll (calls.take n) .nil⟩
  · intro pending call s h
    obtain ⟨earlier, later, hchanges, hafter⟩ := h.changes
    obtain ⟨hgated, hholders⟩ := h.holders .nil
    refine ⟨⟨earlier, later, hchanges, hafter, ?_⟩, fun name a => Registry.Call.get?_run,
      fun e => Registry.Call.run_failed, ?_, call.gates_run hgated⟩
    · rw [Registry.after_append, hafter, call.after_changes]
    · intro name
      exact hgated.get?_eq (hholders name)
  · intro earlier between later _ name a ha
    rw [Registry.after_append]
    refine ⟨Registry.get?_after ha, fun other b hb hnumber => ?_⟩
    have hsame := (Registry.Numbered.nil.after earlier).same (Assoc.mem_of_get? ha)
      (Assoc.mem_of_get? hb) hnumber
    exact Prod.mk.inj hsame

/-! ## A build that is overtaken -/

/-- A type in four bytes, of the name of the type of two members. -/
def wideSchema : Schema :=
  ⟨"T", [⟨.plain "x" 0 .integer 4, .single (.scalar (.integer true)), .dynamic⟩],
    Shape.openMap.outline, 4, {}⟩

/-- A build that publishes another schema under its name before it ends. -/
def overtakenBuild : Registry.Call := .getOrBuild "T" [.publish (.ok pairSchema)] (.ok wideSchema)

theorem run_overtakenBuild :
    (overtakenBuild.run {}).1.result? = some (.error (.conflict "T" .divergentLayout)) := by
  have hdiffers : ¬pairSchema.fingerprint = wideSchema.fingerprint := by decide +kernel
  have hmeanwhile : (Registry.runAll [.publish (.ok pairSchema)] (({} : Registry).hold "T")).2 =
      { cached := [("T", ⟨0, pairSchema⟩)], gates := [("T", 1)], next := 1 } := by cbv
  unfold overtakenBuild Registry.Call.run
  simp only [Registry.get?, Assoc.get?, hmeanwhile, Registry.enter, if_true, if_neg hdiffers,
    Registry.Reply.result?]

theorem reentrant_builds_overtaken :
    Assoc.get? "T" (({} : Registry).hold "T").gates = some 1 ∧
    ((Registry.Call.publish (.ok pairSchema)).run (({} : Registry).hold "T")).2.get? "T" =
      some ⟨0, pairSchema⟩ ∧
    (Registry.after ([.hold "T", .hold "T", .enter "T" pairSchema] ++
      [.release "T", .enter "T" wideSchema, .release "T"]) {}).get? "T" = some ⟨0, pairSchema⟩ ∧
    (overtakenBuild.run {}).2.cached = [("T", ⟨0, pairSchema⟩)] ∧
    (Registry.runAll [overtakenBuild] {}).2.gates = [] := by
  obtain ⟨hcalls, hmoments, hgates⟩ := reentrant_builds [overtakenBuild]
  obtain ⟨-, hfound, -, hheld, -⟩ := hcalls ["T"] (.publish (.ok pairSchema)) _ (.inside rfl .here)
  obtain ⟨-, -, hfailed, -⟩ := hcalls [] overtakenBuild {} .here
  have hchanges : Registry.changesAll [overtakenBuild] {} =
      [.hold "T", .hold "T", .enter "T" pairSchema] ++
        [.release "T", .enter "T" wideSchema, .release "T"] ++ [] := by
    simp only [overtakenBuild, Registry.changesAll, Registry.Call.changes, Registry.get?,
      Assoc.get?, Registry.entering]
    rfl
  refine ⟨hheld "T", hfound "T" _ rfl (by cbv), ?_, ?_, hgates 1⟩
  · refine (hmoments _ _ _ hchanges "T" ⟨0, pairSchema⟩ (by cbv)).1 ?_
    simp
  · rw [(hfailed _ run_overtakenBuild).1]
    cbv

end PackedRecord
