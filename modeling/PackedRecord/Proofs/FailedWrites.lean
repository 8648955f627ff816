import PackedRecord.Dataset
import PackedRecord.Proofs.IssuedHandles
import PackedRecord.Proofs.Sessions
import PackedRecord.Proofs.StableRecords

/-!
# Writes that fail

A record is written member by member, and the content of a member of variable length goes to the
heap as soon as that member is met.  A heap gives nothing back, so that a write that fails later
leaves such contents behind, and nothing else.

* `Schema.objects` — the contents of variable length in a record, in the order of writing.
* `Schema.write_appends` — writing a record puts some first ones of them on the heap, and all of
  them if it succeeds; one lemma per codec, by recursion over nested schemas.
* `Dataset.Leaves` — those that are on the heap when a member, or the store, refuses the record.
* `failed_write_appends` — a failed write to a dataset leaves them behind the objects of the heap
  and changes nothing else in either store; without members of variable length it changes nothing
  at all.
* `failed_write_leaves_object` — a write that fails and leaves an object behind.
-/

namespace PackedRecord

/-! ## Contents of variable length -/

/-- Content a codec puts on the heap. -/
def Scalar.objects (name : String) (codec : Scalar) (v : Value) : List Bytes :=
  match codec with
  | varyingText charset => (Codec.textBytes name charset v).toOption.toList
  | varyingBytes => v.bytes?.toList
  | _ => []

mutual

/-- Contents of a member. -/
def Kind.objects (name : String) : Kind → Value → List Bytes
  | .single element, v => if v.isNull then [] else element.objects name v
  | .array element, .array _ elements =>
    elements.flatMap fun v => if v.isNull then [] else element.objects name v
  | .array _, _ => []

/-- Contents of one element. -/
def Element.objects (name : String) : Element → Value → List Bytes
  | .scalar codec, v => codec.objects name v
  | .record schema, .fields entries => schema.objects fun name _ => Assoc.get? name entries
  | .record _, _ => []

/-- Contents of a record, given by its values under name and position. -/
def Schema.objects : Schema → (String → Nat → Option Value) → List Bytes
  | ⟨_, members, _, _, _⟩, value? => memberObjects members value? 0

/-- Contents of the remaining members, from a position on. -/
def memberObjects : List Member → (String → Nat → Option Value) → Nat → List Bytes
  | [], _, _ => []
  | ⟨p, kind, binding⟩ :: rest, value?, position =>
    (if binding.isBound then kind.objects p.name ((value? p.name position).getD .null) else []) ++
      memberObjects rest value? (position + 1)

end

theorem Schema.objects_eq (s : Schema) (value? : String → Nat → Option Value) :
    s.objects value? = memberObjects s.members value? 0 := by
  cases s
  rfl

theorem memberObjects_append (value? : String → Nat → Option Value) :
    ∀ (before rest : List Member) (position : Nat), memberObjects (before ++ rest) value? position =
      memberObjects before value? position ++ memberObjects rest value? (position + before.length)
  | [], rest, position => rfl
  | ⟨p, kind, binding⟩ :: before, rest, position => by
    have hposition : position + 1 + before.length = position + (before.length + 1) := by omega
    rw [List.cons_append, memberObjects, memberObjects, memberObjects_append value? before rest,
      hposition, List.append_assoc, List.length_cons]

theorem memberObjects_cons (value? : String → Nat → Option Value) {m : Member}
    (hm : m.isMapped = true) (rest : List Member) (position : Nat) :
    memberObjects (m :: rest) value? position =
      m.kind.objects m.name ((value? m.name position).getD .null) ++
        memberObjects rest value? (position + 1) := by
  cases m
  rw [memberObjects, if_pos (by exact hm)]
  rfl

/-! ## What is put on a heap -/

section Appends

variable {σ : Type} [Heap σ]

/-- The second state is the first one after some contents were put on its heap. -/
inductive Puts : List Bytes → σ → σ → Prop where
  | nil (store : σ) : Puts [] store store
  | cons {content : Bytes} {rest : List Bytes} {store store₁ store' : σ} {handle : Handle}
    (hput : Heap.put store content = .ok (handle, store₁)) (hrest : Puts rest store₁ store') :
    Puts (content :: rest) store store'

theorem Puts.append {contents more : List Bytes} {store store₁ store' : σ}
    (h : Puts contents store store₁) (hmore : Puts more store₁ store') :
    Puts (contents ++ more) store store' := by
  induction h with
  | nil _ => exact hmore
  | cons hput _ ih => exact .cons hput (ih hmore)

/-- A write puts some first ones of the contents on the heap, and all of them if it succeeds. -/
def Appends (contents : List Bytes) (write : Option σ → Except Error Bytes × Option σ) : Prop :=
  ∀ store, ∃ met store', (write (some store)).2 = some store' ∧ Puts met store store' ∧
    met <+: contents ∧ ∀ bytes, (write (some store)).1 = .ok bytes → met = contents

/-- A write that leaves the heap alone. -/
theorem Appends.of_pure (result : Except Error Bytes) :
    Appends (σ := σ) [] fun heap => (result, heap) :=
  fun store => ⟨[], store, rfl, .nil store, List.prefix_refl _, fun _ _ => rfl⟩

/-- A write that is refused at once. -/
theorem Appends.of_error (contents : List Bytes) (e : Error) :
    Appends (σ := σ) contents fun heap => (.error e, heap) :=
  fun store => ⟨[], store, rfl, .nil store, List.nil_prefix, nofun⟩

theorem Appends.orNull {contents : List Bytes}
    {write : Option σ → Except Error Bytes × Option σ} (h : Appends contents write) (width : Nat)
    (v : Value) : Appends (if v.isNull then [] else contents)
      fun heap => if v.isNull then (.ok (Codec.zeros width), heap) else write heap := by
  cases v.isNull with
  | true => exact .of_pure _
  | false => exact h

/-- One write, then another one if the first succeeds: the contents come one behind the other,
those of the second only behind all those of the first. -/
theorem Appends.andThen {contents more : List Bytes}
    {write : Option σ → Except Error Bytes × Option σ}
    {next : Bytes → Option σ → Except Error Bytes × Option σ} (h : Appends contents write)
    (hnext : ∀ window, Appends more (next window)) :
    Appends (contents ++ more) fun heap =>
      match write heap with
      | (.error e, heap) => (.error e, heap)
      | (.ok window, heap) => next window heap := by
  intro store
  obtain ⟨met, store₁, hafter, hputs, hpre, hall⟩ := h store
  rcases hwrite : write (some store) with ⟨e | window, heap⟩ <;>
    simp only [hwrite] at hafter hall ⊢ <;> subst hafter
  · exact ⟨met, store₁, rfl, hputs, hpre.trans (List.prefix_append _ _), nofun⟩
  · obtain ⟨met', store₂, hafter', hputs', hpre', hall'⟩ := hnext window store₁
    obtain rfl := hall window rfl
    refine ⟨met ++ met', store₂, hafter', hputs.append hputs',
      (List.prefix_append_right_inj met).2 hpre', fun bytes hbytes => ?_⟩
    rw [hall' bytes hbytes]

theorem Appends.inSequence {α : Type} {contents : α → List Bytes}
    {write : α → Option σ → Except Error Bytes × Option σ}
    (h : ∀ a, Appends (contents a) (write a)) :
    ∀ items : List α, Appends (items.flatMap contents) (inSequence write items)
  | [] => .of_pure _
  | a :: items => by
    have hrest : ∀ window, Appends (items.flatMap contents ++ []) fun heap =>
        match PackedRecord.inSequence write items heap with
        | (.error e, heap) => (.error e, heap)
        | (.ok windows, heap) => (.ok (window ++ windows), heap) := fun window =>
      (Appends.inSequence h items).andThen fun windows => .of_pure (.ok (window ++ windows))
    have hboth := (h a).andThen hrest
    rw [List.append_nil] at hboth
    rw [List.flatMap_cons]
    exact hboth

theorem Codec.storeContent_appends (name : String) (order : ByteOrder) (content : Bytes) :
    Appends (σ := σ) [content] (storeContent name order content) := by
  intro store
  unfold storeContent
  dsimp only
  rcases hput : Heap.put store content with e | ⟨handle, store'⟩
  · exact ⟨[], store, rfl, .nil store, List.nil_prefix, nofun⟩
  · exact ⟨[content], store', rfl, .cons hput (.nil store'), List.prefix_refl _, fun _ _ => rfl⟩

theorem Scalar.write_appends (name : String) (order : ByteOrder) (width : Nat) (codec : Scalar)
    (v : Value) : Appends (σ := σ) (codec.objects name v) (codec.write name order width v) := by
  cases codec with
  | varyingText charset =>
    intro store
    simp only [write, objects, Codec.writeVaryingText]
    cases Codec.textBytes name charset v with
    | error e => exact Appends.of_error _ e store
    | ok content => exact Codec.storeContent_appends name order content store
  | varyingBytes =>
    intro store
    simp only [write, objects, Codec.writeVaryingBytes]
    cases v.bytes? with
    | none => exact Appends.of_error _ _ store
    | some content => exact Codec.storeContent_appends name order content store
  | _ => exact .of_pure _

mutual

/-- Writing a member puts its contents on the heap, up to a failure. -/
theorem Kind.write_appends (p : Placement) (order : ByteOrder) :
    ∀ (kind : Kind) (v : Value),
      Appends (σ := σ) (kind.objects p.name v) (kind.write p order v)
  | .single element, v => by
    have h := (element.write_appends p.name order p.footprint v).orNull p.footprint v
    unfold Kind.objects
    exact h
  | .array element, v => by
    have hrun := Appends.inSequence fun w =>
      (element.write_appends p.name order p.elementWidth w).orNull p.elementWidth w
    cases v with
    | array dims elements =>
      unfold Kind.objects
      by_cases hdims : dims = p.dims
      · intro store
        simp only [Kind.write, if_pos hdims, writeRun_eq_inSequence]
        exact hrun elements store
      · intro store
        simp only [Kind.write, if_neg hdims]
        exact Appends.of_error _ _ store
    | null => exact .of_pure _
    | _ => exact .of_error _ _

/-- Writing an element puts its contents on the heap, up to a failure. -/
theorem Element.write_appends (name : String) (order : ByteOrder) (width : Nat) :
    ∀ (element : Element) (v : Value),
      Appends (σ := σ) (element.objects name v) (element.write name order width v)
  | .scalar codec, v => codec.write_appends name order width v
  | .record schema, v => by
    cases v with
    | fields entries => exact schema.write_appends width _
    | _ => exact .of_error _ _

/-- **Writing a record puts its contents on the heap, in order and up to a failure.** -/
theorem Schema.write_appends (width : Nat) : ∀ (s : Schema)
    (value? : String → Nat → Option Value),
      Appends (σ := σ) (s.objects value?) (s.write width value?)
  | ⟨_, members, _, totalSize, settings⟩, value? => by
    have h := writeMembers_appends settings.byteOrder members value? 0 (Codec.zeros totalSize)
    intro store
    unfold Schema.write Schema.objects
    split
    · exact h store
    · exact Appends.of_error _ _ store

/-- Writing the remaining members puts their contents on the heap, up to a failure. -/
theorem writeMembers_appends (order : ByteOrder) : ∀ (ms : List Member)
    (value? : String → Nat → Option Value) (position : Nat) (buffer : Bytes),
    Appends (σ := σ) (memberObjects ms value? position)
      (writeMembers order ms value? position buffer)
  | [], _, _, _ => .of_pure _
  | ⟨p, kind, binding⟩ :: rest, value?, position, buffer => by
    have ih := writeMembers_appends order rest value? (position + 1)
    have hkind := kind.write_appends p order ((value? p.name position).getD .null)
    intro store
    unfold writeMembers memberObjects
    cases binding.isBound with
    | true => exact hkind.andThen (fun window => ih (splice buffer p.offset window)) store
    | false => exact ih buffer store

end

/-- A failed write of members has written those before some one, which refuses its value. -/
theorem writeMembers_refused (order : ByteOrder) {value? : String → Nat → Option Value} {e : Error}
    {after : Option σ} : ∀ {ms : List Member} {position : Nat} {buffer : Bytes} {store : σ},
    writeMembers order ms value? position buffer (some store) = (.error e, after) →
    ∃ before m rest store₁, ms = before ++ m :: rest ∧ m.isMapped = true ∧
      Puts (memberObjects before value? position) store store₁ ∧
      m.kind.write m.placement order ((value? m.name (position + before.length)).getD .null)
        (some store₁) = (.error e, after)
  | [], _, _, _, h => by cases h
  | ⟨p, kind, binding⟩ :: ms, position, buffer, store, h => by
    have hnext : ∀ before : List Member,
        position + 1 + before.length = position + (before.length + 1) := fun _ => by omega
    unfold writeMembers at h
    cases hbound : binding.isBound with
    | false =>
      rw [hbound, if_neg Bool.false_ne_true] at h
      obtain ⟨before, m, rest, store₁, rfl, hm, hputs, hrefused⟩ := writeMembers_refused order h
      refine ⟨⟨p, kind, binding⟩ :: before, m, rest, store₁, rfl, hm, ?_, ?_⟩
      · rw [memberObjects, hbound, if_neg Bool.false_ne_true]
        exact hputs
      · rw [List.length_cons, ← hnext]
        exact hrefused
    | true =>
      rw [hbound, if_pos rfl] at h
      obtain ⟨met, store₁, hafter, hputs, -, hall⟩ :=
        kind.write_appends p order ((value? p.name position).getD .null) store
      rcases hwrite : kind.write p order ((value? p.name position).getD .null) (some store) with
        ⟨e' | window, heap⟩ <;> simp only [hwrite] at h hafter hall <;> subst hafter
      · cases h
        exact ⟨[], ⟨p, kind, binding⟩, ms, store, rfl, hbound, .nil store, hwrite⟩
      · obtain rfl := hall window rfl
        obtain ⟨before, m, rest, store₂, rfl, hm, hputs', hrefused⟩ := writeMembers_refused order h
        refine ⟨⟨p, kind, binding⟩ :: before, m, rest, store₂, rfl, hm, ?_, ?_⟩
        · rw [memberObjects, hbound, if_pos rfl]
          exact hputs.append hputs'
        · rw [List.length_cons, ← hnext]
          exact hrefused

end Appends

/-! ## Failed writes to a dataset -/

namespace Dataset

variable {σ : Type} [RecordStore σ] {d : Dataset} {store store' : σ} {index : Nat} {e : Error}

/-- The contents that are on the heap when a record is refused.  A member refuses its value: they
are those of the members before it, and some first ones of its own.  The store refuses the row:
they are those of the whole record. -/
inductive Leaves (d : Dataset) (value? : String → Nat → Option Value) (store : σ) (index : Nat)
    (e : Error) : List Bytes → Prop where
  | member {before rest : List Member} {m : Member} {store₁ : σ} {part : List Bytes}
    (hmembers : d.schema.members = before ++ m :: rest) (hmapped : m.isMapped = true)
    (hbefore : Puts (memberObjects before value? 0) store store₁)
    (hrefused : (m.kind.write m.placement d.schema.settings.byteOrder
      ((value? m.name before.length).getD .null) (some store₁)).1 = .error e)
    (hpart : part <+: m.kind.objects m.name ((value? m.name before.length).getD .null)) :
    Leaves d value? store index e (memberObjects before value? 0 ++ part)
  | row {row : Bytes} {store₁ : σ} (hall : Puts (d.schema.objects value?) store store₁)
    (hrefused : RecordStore.writeRow store₁ d.allocation index row = .error e) :
    Leaves d value? store index e (d.schema.objects value?)

/-- What is left are some first contents of the record. -/
theorem Leaves.isPrefix {value? : String → Nat → Option Value} {met : List Bytes}
    (h : d.Leaves value? store index e met) : met <+: d.schema.objects value? := by
  cases h with
  | @member before rest m store₁ part hmembers hmapped _ _ hpart =>
    rw [Schema.objects_eq, hmembers, memberObjects_append, Nat.zero_add,
      memberObjects_cons value? hmapped, ← List.append_assoc]
    exact ((List.prefix_append_right_inj _).2 hpart).trans (List.prefix_append _ _)
  | row _ _ => exact List.prefix_refl _

variable {ρ : Type} [RecordAccess ρ] {record : ρ}

/-- **A failed write has put some contents of the record on the heap**, and done nothing else. -/
theorem puts_of_error (h : d.write store index record = (.error e, store')) :
    ∃ met, d.Leaves (RecordAccess.field? record) store index e met ∧ Puts met store store' := by
  obtain ⟨met, store₁, hafter, hputs, -, hall⟩ :=
    d.schema.write_appends (σ := σ) d.schema.totalSize (RecordAccess.field? record) store
  unfold Dataset.write Schema.pack at h
  simp only [hafter, Option.getD_some] at h
  rcases hwrite : d.schema.write d.schema.totalSize (RecordAccess.field? record) (some store) with
    ⟨e' | row, heap⟩ <;> simp only [hwrite] at h hafter hall <;> subst hafter
  · cases h
    rw [Schema.write_eq, if_pos rfl] at hwrite
    obtain ⟨before, m, rest, store₂, hmembers, hmapped, hbefore, hrefused⟩ :=
      writeMembers_refused _ hwrite
    rw [Nat.zero_add] at hrefused
    obtain ⟨part, store₃, hlast, hpart, hpre, -⟩ :=
      m.kind.write_appends m.placement d.schema.settings.byteOrder
        ((RecordAccess.field? record m.name before.length).getD .null) store₂
    rw [hrefused] at hlast
    obtain rfl := Option.some.inj hlast
    exact ⟨_, .member hmembers hmapped hbefore (congrArg Prod.fst hrefused) hpre,
      hbefore.append hpart⟩
  · obtain rfl := hall row rfl
    split at h <;> cases h
    rename_i hrefused
    exact ⟨_, .row hputs hrefused, hputs⟩

/-- Without members of variable length a failed write has done nothing. -/
theorem eq_of_error (hbuilt : d.schema.Built) (hfixed : d.schema.FixedLength)
    (h : d.write store index record = (.error e, store')) : store' = store := by
  obtain ⟨result, hresult⟩ :=
    hbuilt.detached (σ := σ) hfixed d.schema.totalSize (RecordAccess.field? record)
  unfold Dataset.write Schema.pack at h
  simp only [hresult, Option.getD_some] at h
  split at h
  · cases h
    rfl
  · split at h <;> cases h
    rfl

end Dataset

/-! ## What is left of the stores -/

/-- A handle leads to the same content when objects are added behind the others. -/
theorem TransientStore.get_append {objects more : List Bytes} {handle : Handle} {content : Bytes}
    (h : ({ heap := objects } : TransientStore).get handle = .ok content) :
    ({ heap := objects ++ more } : TransientStore).get handle = .ok content := by
  unfold get at h ⊢
  split at h
  · rename_i found hfound
    obtain ⟨key, hkey, hobject⟩ := Option.bind_eq_some_iff.1 hfound
    obtain ⟨hlt, -⟩ := List.getElem?_eq_some_iff.1 hobject
    simp only [hkey, Option.bind_some, List.getElem?_append_left hlt, hobject]
    exact h
  · cases h

namespace Puts

section Listed

variable {σ : Type} [RecordStore σ] [Catalog σ] [ListedHeap σ] {contents objects : List Bytes}
  {store store' : σ}

open ListedHeap

/-- Contents lie behind the objects that were there, in order. -/
theorem lists (h : Puts contents store store') (hlists : Lists store objects) :
    Lists store' (objects ++ contents) := by
  induction h generalizing objects with
  | nil _ => rwa [List.append_nil]
  | cons hput _ ih =>
    rw [List.append_cons]
    exact ih (put_lists hlists hput).2

/-- Handles lead where they led. -/
theorem get_eq (h : Puts contents store store') (hlists : Lists store objects) {handle : Handle}
    {content : Bytes} (hget : Heap.get store handle = .ok content) :
    Heap.get store' handle = .ok content := by
  rw [get_lists hlists] at hget
  rw [get_lists (h.lists hlists)]
  exact TransientStore.get_append hget

end Listed

theorem eq_transient {contents : List Bytes} {t t' : TransientStore} (h : Puts contents t t') :
    t' = { t with heap := t.heap ++ contents } := by
  induction h with
  | nil t => rw [List.append_nil]
  | cons hput _ ih =>
    obtain ⟨-, rfl⟩ := TransientStore.put_eq hput
    rw [ih, List.append_assoc]
    rfl

theorem eq_durable {contents : List Bytes} {s s' : DurableStore} (h : Puts contents s s') :
    s' = { s with heap := s'.heap } := by
  induction h with
  | nil s => rfl
  | cons hput _ ih =>
    obtain ⟨-, rfl⟩ := DurableStore.put_eq hput
    exact ih

end Puts

/-- **A write that fails leaves rows, row counts, allocations, catalog and cache as they were.**
The heap keeps its objects under their handles and has behind them, in order, the contents of
variable length that were written before the failure.  A schema without members of variable length
leaves nothing behind.  In a file objects are a list in every state that is reached from an empty
store, closed and opened again anywhere. -/
theorem failed_write_appends {ρ : Type} [RecordAccess ρ] (d : Dataset) (index : Nat) (record : ρ)
    (e : Error) :
    (∀ t t' : TransientStore, d.write t index record = (.error e, t') →
      (∃ met, d.Leaves (RecordAccess.field? record) t index e met ∧
        t' = { t with heap := t.heap ++ met }) ∧
      (∀ handle content, t.get handle = .ok content → t'.get handle = .ok content) ∧
      (d.schema.Built → d.schema.FixedLength → t' = t)) ∧
    (∀ (s s' : DurableStore) (objects : List Bytes), s.Lists objects →
      d.write s index record = (.error e, s') →
      (∃ met, d.Leaves (RecordAccess.field? record) s index e met ∧
        s' = { s with heap := s'.heap } ∧ s'.Lists (objects ++ met)) ∧
      (∀ handle content, s.get handle = .ok content → s'.get handle = .ok content) ∧
      (d.schema.Built → d.schema.FixedLength → s' = s)) ∧
    ∀ (capacity : Nat) (script : List (Option StoreCall)), ∃ objects,
      (StoreCall.after script (DurableStore.empty capacity)).Lists objects := by
  refine ⟨?_, ?_, fun capacity script => ?_⟩
  · intro t t' h
    obtain ⟨met, hleft, hputs⟩ := Dataset.puts_of_error h
    exact ⟨⟨met, hleft, hputs.eq_transient⟩, fun _ _ hget => hputs.get_eq rfl hget,
      fun hbuilt hfixed => Dataset.eq_of_error hbuilt hfixed h⟩
  · intro s s' objects hlists h
    obtain ⟨met, hleft, hputs⟩ := Dataset.puts_of_error h
    exact ⟨⟨met, hleft, hputs.eq_durable, hputs.lists hlists⟩,
      fun _ _ hget => hputs.get_eq hlists hget,
      fun hbuilt hfixed => Dataset.eq_of_error hbuilt hfixed h⟩
  · have hempty : ListedHeap.Lists (DurableStore.empty capacity) [] := Keyed.nil
    exact ⟨_, (StoreCall.lists_after script hempty).1⟩

/-- The record is refused at its second member, when the text of the first one is on the heap. -/
theorem failed_write_appends_row :
    rowSchema.objects (RecordAccess.field? brokenRecord) = [[108, 111, 115, 116]] ∧
    (∃ t' : TransientStore, rowDataset.write ({} : TransientStore) 0 brokenRecord =
        (.error (Codec.mismatch "cells" "array" (.text "none")), t') ∧
      ∃ met, met <+: [[108, 111, 115, 116]] ∧
        t' = { ({} : TransientStore) with heap := [] ++ met }) ∧
    (∃ s' : DurableStore, rowDataset.write (DurableStore.empty 1) 0 brokenRecord =
        (.error (Codec.mismatch "cells" "array" (.text "none")), s') ∧
      ∃ met, met <+: [[108, 111, 115, 116]] ∧
        s' = { DurableStore.empty 1 with heap := s'.heap } ∧ s'.Lists ([] ++ met)) := by
  have hobjects : rowSchema.objects (RecordAccess.field? brokenRecord) =
      [[108, 111, 115, 116]] := rfl
  obtain ⟨htransient, hdurable, -⟩ := failed_write_appends rowDataset 0 brokenRecord
    (Codec.mismatch "cells" "array" (.text "none"))
  have hwritten : rowDataset.write ({} : TransientStore) 0 brokenRecord =
      (.error (Codec.mismatch "cells" "array" (.text "none")),
        { heap := [[108, 111, 115, 116]] }) := rfl
  have hwritten' : rowDataset.write (DurableStore.empty 1) 0 brokenRecord =
      (.error (Codec.mismatch "cells" "array" (.text "none")),
        { DurableStore.empty 1 with heap := [(0, [108, 111, 115, 116])] }) := rfl
  refine ⟨hobjects, ⟨_, hwritten, ?_⟩, ⟨_, hwritten', ?_⟩⟩
  · obtain ⟨⟨met, hleft, heq⟩, -⟩ := htransient _ _ hwritten
    exact ⟨met, hobjects ▸ hleft.isPrefix, heq⟩
  · obtain ⟨⟨met, hleft, heq⟩, -⟩ := hdurable (.empty 1) _ [] Keyed.nil hwritten'
    exact ⟨met, hobjects ▸ hleft.isPrefix, heq⟩

/-- A write that is refused and yet changes the store: the heap has an object more. -/
theorem failed_write_leaves_object :
    ∃ t : TransientStore, Dataset.create ({} : TransientStore) rowSchema = (.ok rowDataset, t) ∧
      t.heap = [] ∧ (rowDataset.write t 0 brokenRecord).1 =
        .error (Codec.mismatch "cells" "array" (.text "none")) ∧
      (rowDataset.write t 0 brokenRecord).2.heap = [[108, 111, 115, 116]] :=
  ⟨_, rfl, rfl, rfl, rfl⟩

end PackedRecord
