import PackedRecord.Proofs.NoFaults

/-!
# Induction over writes

All that the codecs write to a heap comes from one operation, putting some content there.  The rest
leaves the heap alone or runs one write behind another.  What holds of these three holds of records
of any schema.

* `Compositional` — a property of writes that is closed under the three ways to make one.
* `Compositional.write` — it holds of writing a record, by recursion over nested schemas.
* `Compositional.packAll` — it holds of writing any number of records.
-/

namespace PackedRecord

variable {σ : Type} [Heap σ]

/-- A property that holds of writes which leave the heap alone and of putting content on the heap,
and of one write behind another if it holds of both. -/
structure Compositional (P : (Option σ → Except Error Bytes × Option σ) → Prop) : Prop where
  pure : ∀ result : Except Error Bytes, P fun heap => (result, heap)
  store : ∀ (name : String) (order : ByteOrder) (content : Bytes),
    P (Codec.storeContent name order content)
  andThen : ∀ {write : Option σ → Except Error Bytes × Option σ}
    {next : Bytes → Option σ → Except Error Bytes × Option σ}, P write →
    (∀ window, P (next window)) → P fun heap =>
      match write heap with
      | (.error e, heap) => (.error e, heap)
      | (.ok window, heap) => next window heap

section Members

variable {order : ByteOrder} {p : Placement} {kind : Kind} {binding : Binding}
  {value? : String → Nat → Option Value} {position : Nat} {buffer : Bytes}

/-- A mapped member is written, then the others are. -/
theorem writeMembers_bound (h : binding.isBound = true) (rest : List Member) :
    writeMembers (σ := σ) order (⟨p, kind, binding⟩ :: rest) value? position buffer = fun heap =>
      match kind.write p order ((value? p.name position).getD .null) heap with
      | (.error e, heap) => (.error e, heap)
      | (.ok window, heap) =>
        writeMembers order rest value? (position + 1) (splice buffer p.offset window) heap := by
  funext heap
  rcases hwrite : kind.write p order ((value? p.name position).getD .null) heap with
    ⟨e | window, after⟩ <;> simp only [writeMembers, h, if_true, hwrite]

theorem writeMembers_unbound (h : binding.isBound = false) (rest : List Member) :
    writeMembers (σ := σ) order (⟨p, kind, binding⟩ :: rest) value? position buffer =
      writeMembers order rest value? (position + 1) buffer := by
  funext heap
  rw [writeMembers, h, if_neg Bool.false_ne_true]

end Members

namespace Compositional

variable {P : (Option σ → Except Error Bytes × Option σ) → Prop}

theorem orNull (hP : Compositional P) {write : Option σ → Except Error Bytes × Option σ}
    (h : P write) (width : Nat) (v : Value) :
    P fun heap => if v.isNull then (.ok (Codec.zeros width), heap) else write heap := by
  cases v.isNull with
  | true => exact hP.pure _
  | false => exact h

theorem inSequence (hP : Compositional P) {α : Type}
    {write : α → Option σ → Except Error Bytes × Option σ} (h : ∀ a, P (write a)) :
    ∀ items, P (inSequence write items)
  | [] => hP.pure _
  | a :: items => hP.andThen (h a) fun window =>
    hP.andThen (hP.inSequence h items) fun windows => hP.pure (.ok (window ++ windows))

theorem scalar (hP : Compositional P) (name : String) (order : ByteOrder) (width : Nat)
    (codec : Scalar) (v : Value) : P (codec.write name order width v) := by
  cases codec with
  | varyingText charset =>
    change P (Codec.writeVaryingText name order charset v)
    unfold Codec.writeVaryingText
    cases Codec.textBytes name charset v with
    | error e => exact hP.pure _
    | ok content => exact hP.store name order content
  | varyingBytes =>
    change P (Codec.writeVaryingBytes name order v)
    unfold Codec.writeVaryingBytes
    cases v.bytes? with
    | none => exact hP.pure _
    | some content => exact hP.store name order content
  | _ => exact hP.pure _

mutual

/-- Writing a member. -/
theorem kind (hP : Compositional P) (p : Placement) (order : ByteOrder) :
    ∀ (k : Kind) (v : Value), P (k.write p order v)
  | .single e, v => hP.orNull (hP.element p.name order p.footprint e v) p.footprint v
  | .array e, v => by
    have hrun := hP.inSequence fun w =>
      hP.orNull (hP.element p.name order p.elementWidth e w) p.elementWidth w
    cases v with
    | array dims elements =>
      change P fun heap => if dims = p.dims then
        writeRun (e.write p.name order p.elementWidth) p.elementWidth elements heap
        else (.error (.extents p.name p.dims dims), heap)
      by_cases hdims : dims = p.dims
      · simp only [if_pos hdims, writeRun_eq_inSequence]
        exact hrun elements
      · simp only [if_neg hdims]
        exact hP.pure _
    | _ => exact hP.pure _

/-- Writing an element. -/
theorem element (hP : Compositional P) (name : String) (order : ByteOrder) (width : Nat) :
    ∀ (e : Element) (v : Value), P (e.write name order width v)
  | .scalar codec, v => hP.scalar name order width codec v
  | .record schema, v => by
    cases v with
    | fields entries => exact hP.write width schema _
    | _ => exact hP.pure _

/-- **Writing a record.** -/
theorem write (hP : Compositional P) (width : Nat) :
    ∀ (s : Schema) (value? : String → Nat → Option Value), P (s.write width value?)
  | ⟨_, members, _, totalSize, settings⟩, value? => by
    change P fun heap => if width = totalSize then
      writeMembers settings.byteOrder members value? 0 (Codec.zeros totalSize) heap
      else (.error (.bufferSize totalSize width), heap)
    by_cases hwidth : width = totalSize
    · simp only [if_pos hwidth]
      exact hP.members settings.byteOrder members value? 0 (Codec.zeros totalSize)
    · simp only [if_neg hwidth]
      exact hP.pure _

/-- Writing the remaining members. -/
theorem members (hP : Compositional P) (order : ByteOrder) : ∀ (ms : List Member)
    (value? : String → Nat → Option Value) (position : Nat) (buffer : Bytes),
    P (writeMembers order ms value? position buffer)
  | [], _, _, _ => hP.pure _
  | ⟨p, k, binding⟩ :: rest, value?, position, buffer => by
    have ih := hP.members order rest value? (position + 1)
    have hkind := hP.kind p order k ((value? p.name position).getD .null)
    cases hbound : binding.isBound with
    | true =>
      have hnext := hP.andThen hkind fun window => ih (splice buffer p.offset window)
      simpa only [writeMembers_bound hbound] using hnext
    | false =>
      simpa only [writeMembers_unbound hbound] using ih buffer

end

theorem pack (hP : Compositional P) {ρ : Type} [RecordAccess ρ] (s : Schema) (record : ρ) :
    P (s.pack record) :=
  hP.write s.totalSize s (RecordAccess.field? record)

/-- Writing records one behind the other. -/
theorem packAll (hP : Compositional P) {ρ : Type} [RecordAccess ρ] (s : Schema)
    (records : List ρ) : P (s.packAll records) := by
  have hrun := hP.inSequence (hP.pack s) records
  rw [← funext (s.packEach_eq_inSequence records)] at hrun
  unfold Schema.packAll
  by_cases hzero : s.totalSize = 0
  · simp only [if_pos hzero]
    exact hP.pure _
  · simp only [if_neg hzero]
    exact hrun

end Compositional

end PackedRecord
