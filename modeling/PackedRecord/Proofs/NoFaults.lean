import Mathlib.Algebra.BigOperators.Group.List.Defs
import Mathlib.Algebra.Group.Action.Defs
import Mathlib.Data.List.Forall2
import Mathlib.Order.Basic
import PackedRecord.Proofs.GuardedScalars
import PackedRecord.Proofs.RecordRoundTrip

/-!
# Codecs of built schemas do not fault

What makes an access to a buffer safe was checked when the schema was built: codecs suit the
widths of their windows, elements have bytes, members lie within the record.

* `Serves` — a guarded write ends, in a window as wide as before, and does what the plain write
  does; `writeRun_serves`, `Kind.serves`, `guardedWriteMembers_serves` carry it from elements to
  members and to records.
* `Schema.Built.writes`, `Schema.Built.reads` — the inductions over nested schemas.
* `codec_never_faults` — no call of a codec faults.
-/

namespace PackedRecord

variable {σ : Type} [Heap σ]

/-! ## Writing in place -/

/-- A guarded write ends on every window of some width, with a window of that width if it
succeeds; on a window of zeros it does what the plain write does if the value is as it should
be. -/
def Serves (width : Nat) (proper : Prop)
    (guarded : Bytes → Option σ → Guarded (Except Error Bytes × Option σ))
    (plain : Option σ → Except Error Bytes × Option σ) : Prop :=
  ∀ (window : Bytes) (heap : Option σ), window.length = width →
    ∃ result after, guarded window heap = .ok (result, after) ∧ Codec.Spans width result ∧
      (proper → window = Codec.zeros width → plain heap = (result, after))

/-- Write items in order, up to the first failure. -/
def inSequence {α : Type} (write : α → Option σ → Except Error Bytes × Option σ) :
    List α → Option σ → Except Error Bytes × Option σ
  | [], heap => (.ok [], heap)
  | item :: items, heap =>
    match write item heap with
    | (.error e, heap) => (.error e, heap)
    | (.ok window, heap) =>
      match inSequence write items heap with
      | (.error e, heap) => (.error e, heap)
      | (.ok windows, heap) => (.ok (window ++ windows), heap)

omit [Heap σ] in
theorem writeRun_eq_inSequence (write : Value → Option σ → Except Error Bytes × Option σ)
    (width : Nat) : ∀ (vs : List Value) (heap : Option σ), writeRun write width vs heap =
      inSequence (fun v heap => if v.isNull then (.ok (Codec.zeros width), heap) else write v heap)
        vs heap
  | [], _ => rfl
  | v :: rest, heap => by
    unfold writeRun inSequence
    rcases (if v.isNull then (.ok (Codec.zeros width), heap) else write v heap :
      Except Error Bytes × Option σ) with ⟨e | window, later⟩
    · rfl
    · rcases hrest : writeRun write width rest later with ⟨e | windows, last⟩ <;>
        simp only [hrest, ← writeRun_eq_inSequence write width rest later]

theorem Schema.packEach_eq_inSequence {ρ : Type} [RecordAccess ρ] (s : Schema) :
    ∀ (records : List ρ) (heap : Option σ),
      s.packEach records heap = inSequence s.pack records heap
  | [], _ => rfl
  | record :: rest, heap => by
    unfold packEach inSequence
    rcases s.pack record heap with ⟨e | window, later⟩
    · rfl
    · rcases hrest : s.packEach rest later with ⟨e | windows, last⟩ <;>
        simp only [hrest, ← packEach_eq_inSequence s rest later]

/-! ### Runs of slots -/

namespace Codec

theorem length_of_mem_runs {width : Nat} : ∀ {count : Nat} {bytes run : Bytes},
    run ∈ runs width count bytes → width * count ≤ bytes.length → run.length = width
  | count + 1, bytes, run, hrun, hle => by
    rw [Nat.mul_succ] at hle
    rcases List.mem_cons.1 hrun with rfl | hrun
    · rw [List.length_take]
      omega
    · refine length_of_mem_runs hrun ?_
      rw [List.length_drop]
      omega

theorem exists_zeros_of_mem_runs {width : Nat} : ∀ {count size : Nat} {run : Bytes},
    run ∈ runs width count (zeros size) → ∃ length, run = zeros length
  | count + 1, size, run, h => by
    rcases List.mem_cons.1 h with rfl | h
    · exact ⟨_, List.take_replicate ..⟩
    · rw [zeros, List.drop_replicate] at h
      exact exists_zeros_of_mem_runs h

theorem eq_zeros_of_mem_runs {width count size : Nat} {run : Bytes}
    (hrun : run ∈ runs width count (zeros size)) (hle : width * count ≤ size) :
    run = zeros width := by
  obtain ⟨length, rfl⟩ := exists_zeros_of_mem_runs hrun
  have hlen := length_of_mem_runs hrun (hle.trans List.length_replicate.ge)
  rw [zeros, List.length_replicate] at hlen
  rw [hlen]

end Codec

section Slots

variable {α : Type} {guarded : α → Bytes → Option σ → Guarded (Except Error Bytes × Option σ)}
  {plain : α → Option σ → Except Error Bytes × Option σ} {proper : α → Prop} {width : Nat}

omit [Heap σ] in
theorem writeSlots_serves : ∀ {items : List α} {slots : List Bytes} (heap : Option σ),
    (∀ a ∈ items, Serves width (proper a) (guarded a) (plain a)) →
    (∀ slot ∈ slots, slot.length = width) →
    ∃ result after, Guarded.writeSlots guarded items slots heap = .ok (result, after) ∧
      Codec.Spans (width * slots.length) result ∧
      (items.length = slots.length → (∀ a ∈ items, proper a) →
        (∀ slot ∈ slots, slot = Codec.zeros width) →
        inSequence plain items heap = (result, after))
  | [], slots, heap, _, hslots => by
    refine ⟨.ok slots.flatten, heap, by cases slots <;> rfl, Codec.spans_ok ?_, ?_⟩
    · rw [List.length_flatten, List.map_congr_left hslots, List.map_const', List.sum_replicate,
        smul_eq_mul, Nat.mul_comm]
    · intro hlen _ _
      cases slots with
      | nil => rfl
      | cons slot slots => cases hlen
  | a :: items, [], heap, _, _ => by
    refine ⟨.ok [], heap, rfl, Codec.spans_ok rfl, ?_⟩
    intro hlen
    cases hlen
  | a :: items, slot :: slots, heap, hitems, hslots => by
    obtain ⟨hslot, hslots⟩ := List.forall_mem_cons.1 hslots
    obtain ⟨hitem, hitems⟩ := List.forall_mem_cons.1 hitems
    obtain ⟨first, heap₁, hwrite, hspans, hplain⟩ := hitem slot heap hslot
    have hunfold : Guarded.writeSlots guarded (a :: items) (slot :: slots) heap =
        guarded a slot heap >>= fun
          | (.error e, heap) => .ok (.error e, heap)
          | (.ok window, heap) => Guarded.copy slot window >>= fun window =>
            Guarded.writeSlots guarded items slots heap >>= fun
              | (.error e, heap) => .ok (.error e, heap)
              | (.ok windows, heap) => .ok (.ok (window ++ windows), heap) := rfl
    rw [hunfold, hwrite]
    cases first with
    | error e =>
      refine ⟨.error e, heap₁, rfl, Codec.spans_error _ _, ?_⟩
      intro _ hproper hzeros
      unfold inSequence
      rw [hplain (hproper a List.mem_cons_self) (hzeros slot List.mem_cons_self)]
    | ok window =>
      obtain ⟨rest, after, hrest, hspans', hplain'⟩ := writeSlots_serves heap₁ hitems hslots
      have hlen : window.length = width := hspans window rfl
      have hcopy : Guarded.copy slot window = .ok window := Guarded.copy_eq (hlen.trans hslot.symm)
      simp only [bind, Except.bind, hcopy, hrest]
      cases rest with
      | error e =>
        refine ⟨.error e, after, rfl, Codec.spans_error _ _, ?_⟩
        intro hlength hproper hzeros
        unfold inSequence
        rw [hplain (hproper a List.mem_cons_self) (hzeros slot List.mem_cons_self)]
        dsimp only
        rw [hplain' (Nat.succ.inj hlength) (List.forall_mem_cons.1 hproper).2
          (List.forall_mem_cons.1 hzeros).2]
      | ok windows =>
        refine ⟨.ok (window ++ windows), after, rfl, Codec.spans_ok ?_, ?_⟩
        · rw [List.length_append, hlen, hspans' windows rfl, List.length_cons, Nat.mul_succ,
            Nat.add_comm]
        · intro hlength hproper hzeros
          unfold inSequence
          rw [hplain (hproper a List.mem_cons_self) (hzeros slot List.mem_cons_self)]
          dsimp only
          rw [hplain' (Nat.succ.inj hlength) (List.forall_mem_cons.1 hproper).2
            (List.forall_mem_cons.1 hzeros).2]

omit [Heap σ] in
/-- **A run of items is written to the slots of its window without a fault** if each item is. -/
theorem writeRun_serves (hpos : 0 < width) (items : List α)
    (h : ∀ a ∈ items, Serves width (proper a) (guarded a) (plain a)) (total : Nat) :
    Serves total (total = width * items.length ∧ ∀ a ∈ items, proper a)
      (Guarded.writeRun guarded width items) (inSequence plain items) := by
  intro window heap hlen
  have hdiv : width * (window.length / width) ≤ window.length := Nat.mul_div_le ..
  obtain ⟨result, after, hslots, hspans, hplain⟩ := writeSlots_serves heap h
    (fun slot hslot => Codec.length_of_mem_runs hslot hdiv)
  rw [Codec.length_runs] at hspans hplain
  have hunfold : Guarded.writeRun guarded width items window heap =
      Guarded.chunks width window >>= fun slots =>
        Guarded.writeSlots guarded items slots heap >>= fun
          | (.error e, heap) => .ok (.error e, heap)
          | (.ok windows, heap) => .ok (.ok (windows ++ window.drop windows.length), heap) := rfl
  rw [hunfold, Guarded.chunks_eq hpos]
  simp only [bind, Except.bind, hslots]
  cases result with
  | error e =>
    refine ⟨.error e, after, rfl, Codec.spans_error _ _, ?_⟩
    rintro ⟨htotal, hproper⟩ rfl
    refine hplain ?_ hproper fun slot hslot =>
      Codec.eq_zeros_of_mem_runs hslot (hdiv.trans hlen.le)
    rw [hlen, htotal, Nat.mul_div_cancel_left _ hpos]
  | ok windows =>
    have hwindows : windows.length = width * (window.length / width) := hspans windows rfl
    refine ⟨.ok (windows ++ window.drop windows.length), after, rfl, Codec.spans_ok ?_, ?_⟩
    · rw [List.length_append, List.length_drop]
      omega
    · rintro ⟨htotal, hproper⟩ rfl
      have hcount : items.length = (Codec.zeros total).length / width := by
        rw [hlen, htotal, Nat.mul_div_cancel_left _ hpos]
      have hall : (Codec.zeros total).length ≤ windows.length := by
        rw [hwindows, ← hcount, hlen, ← htotal]
      rw [List.drop_of_length_le hall, List.append_nil]
      exact hplain hcount hproper fun slot hslot =>
        Codec.eq_zeros_of_mem_runs hslot (hdiv.trans hlen.le)

end Slots

/-! ### Members -/

/-- All values of a record are well formed. -/
def ProperValues (value? : String → Nat → Option Value) : Prop :=
  ∀ name position v, value? name position = some v → v.WellFormed

theorem wellFormed_of_get? {name : String} {v : Value} {entries : Fields}
    (h : Value.WellFormedFields entries) (hget : Assoc.get? name entries = some v) :
    v.WellFormed :=
  Value.wellFormedFields_iff.1 h _ (Assoc.mem_of_get? hget)

theorem mem_of_wellFormedAll {v : Value} {elements : List Value}
    (h : Value.WellFormedAll elements) (hv : v ∈ elements) : v.WellFormed :=
  Value.wellFormedAll_iff.1 h v hv

namespace Serves

variable {width : Nat} {proper : Prop}
  {guarded : Bytes → Option σ → Guarded (Except Error Bytes × Option σ)}
  {plain : Option σ → Except Error Bytes × Option σ}

omit [Heap σ] in
theorem mono (h : Serves width proper guarded plain) {stronger : Prop} (hp : stronger → proper) :
    Serves width stronger guarded plain := by
  intro window heap hlen
  obtain ⟨result, after, hwrite, hspans, hplain⟩ := h window heap hlen
  exact ⟨result, after, hwrite, hspans, fun hs => hplain (hp hs)⟩

omit [Heap σ] in
/-- A write that only depends on the width of its window. -/
theorem of_eq (h : ∀ window heap, window.length = width → guarded window heap = .ok (plain heap))
    (hspans : ∀ heap, Codec.Spans width (plain heap).1) : Serves width proper guarded plain :=
  fun window heap hlen => ⟨_, _, h window heap hlen, hspans heap, fun _ _ => rfl⟩

omit [Heap σ] in
/-- A value that is null is a window of zeros. -/
theorem orNull (h : Serves width proper guarded plain) (v : Value) :
    Serves width proper
      (fun window heap =>
        if v.isNull then .ok (.ok (Codec.zeros window.length), heap) else guarded window heap)
      (fun heap => if v.isNull then (.ok (Codec.zeros width), heap) else plain heap) := by
  intro window heap hlen
  cases v.isNull with
  | true =>
    subst hlen
    exact ⟨_, _, rfl, Codec.spans_zeros _, fun _ _ => rfl⟩
  | false => exact h window heap hlen

end Serves

/-- Records of a schema are written to windows of any width without a fault. -/
def Schema.Writes (σ : Type) [Heap σ] (s : Schema) : Prop :=
  ∀ (width : Nat) (value? : String → Nat → Option Value), width < 2 ^ 63 →
    Serves (σ := σ) width (ProperValues value?) (s.guardedWrite value?) (s.write width value?)

theorem Element.serves (name : String) (order : ByteOrder) {nested : Option Schema} {width : Nat}
    {element : Element} (hw : width < 2 ^ 63) (hs : element.Suits nested width)
    (hn : ∀ t, nested = some t → t.Writes σ) (v : Value) :
    Serves (σ := σ) width v.WellFormed (element.guardedWrite name order v)
      (element.write name order width v) := by
  cases element with
  | scalar codec =>
    refine .of_eq ?_ (codec.write_spans name order hs v)
    rintro window heap rfl
    exact codec.guardedWrite_eq name order hs v heap
  | record schema =>
    cases v with
    | fields entries =>
      refine (hn schema hs width (fun name _ => Assoc.get? name entries) hw).mono ?_
      rintro ⟨-, hentries⟩ name position v hv
      exact wellFormed_of_get? hentries hv
    | _ => exact .of_eq (fun _ _ _ => rfl) fun _ => Codec.spans_error _ _

namespace Placement.Checked

variable {p : Placement}

theorem elements_pos (h : p.Checked) : 0 < p.elements := by
  cases ha : p.isArray with
  | true => exact Nat.pos_of_ne_zero (h.elements_ne ha)
  | false => exact (elements_eq_one ha).symm ▸ Nat.one_pos

theorem elementWidth_pos (h : p.Checked) (hv : p.isVarying = false) : 0 < p.elementWidth := by
  have hsize := h.size_ne
  have hnonneg : ¬p.size < 0 := by simpa [isVarying] using hv
  unfold elementWidth
  omega

/-- The elements of a member of fixed length are no wider than the member. -/
theorem elementWidth_le (h : p.Checked) (hv : p.isVarying = false)
    (hw : p.footprint < 2 ^ 63) : p.elementWidth ≤ p.footprint := by
  rw [footprint_eq hv hw]
  exact Nat.le_mul_of_pos_right _ h.elements_pos

end Placement.Checked

/-- **A member is written to its window without a fault.** -/
theorem Kind.serves (order : ByteOrder) {p : Placement} {kind : Kind} (hc : p.Checked)
    (hw : p.footprint < 2 ^ 63) (hs : kind.Suits p)
    (hn : ∀ t, p.nested = some t → t.Writes σ) (v : Value) :
    Serves (σ := σ) p.footprint v.WellFormed (kind.guardedWrite p order v)
      (kind.write p order v) := by
  cases kind with
  | single element => exact (element.serves p.name order hw hs hn v).orNull v
  | array element =>
    obtain ⟨hv, hsuits⟩ := hs
    have hwidth : p.elementWidth < 2 ^ 63 := (hc.elementWidth_le hv hw).trans_lt hw
    cases v with
    | null =>
      refine .of_eq ?_ fun _ => Codec.spans_zeros _
      intro window heap hlen
      simp only [Kind.guardedWrite, Kind.write, ← hlen]
      rfl
    | array dims elements =>
      by_cases hdims : dims = p.dims
      · subst hdims
        have hrun := writeRun_serves (hc.elementWidth_pos hv) elements
          (fun v _ => (element.serves p.name order hwidth hsuits hn v).orNull v) p.footprint
        have hguarded : (Kind.array element).guardedWrite (σ := σ) p order
            (.array p.dims elements) = Guarded.writeRun (fun v slot heap =>
              if v.isNull then .ok (.ok (Codec.zeros slot.length), heap)
              else element.guardedWrite p.name order v slot heap) p.elementWidth elements := by
          funext window heap
          simp only [Kind.guardedWrite, if_true]
          rfl
        have hplain : (Kind.array element).write (σ := σ) p order (.array p.dims elements) =
            inSequence (fun v heap =>
              if v.isNull then (.ok (Codec.zeros p.elementWidth), heap)
              else element.write p.name order p.elementWidth v heap) elements := by
          funext heap
          simp only [Kind.write, if_true, writeRun_eq_inSequence]
        rw [hguarded, hplain]
        refine hrun.mono ?_
        rintro ⟨-, hcount, helements⟩
        refine ⟨?_, fun v hmem => mem_of_wellFormedAll helements hmem⟩
        rw [← hcount, Placement.footprint_eq hv hw]
        rfl
      · refine .of_eq (fun window heap _ => ?_) fun heap => ?_
        · simp only [Kind.guardedWrite, Kind.write, if_neg hdims]
          rfl
        · simp only [Kind.write, if_neg hdims]
          exact Codec.spans_error _ _
    | _ => exact .of_eq (fun _ _ _ => rfl) fun _ => Codec.spans_error _ _

namespace Placement

theorem length_window {p : Placement} {buffer : Bytes} (h : p.stop ≤ buffer.length) :
    (p.window buffer).length = p.footprint := by
  unfold stop at h
  rw [window, List.length_take, List.length_drop]
  omega

theorem slice_window {p : Placement} {buffer : Bytes} (h : p.stop ≤ buffer.length) :
    Guarded.slice buffer p.offset p.stop = .ok (p.window buffer) := by
  have hstart : p.offset ≤ p.stop := Nat.le_add_right ..
  rw [Guarded.slice_eq hstart h, stop, Nat.add_sub_cancel_left]
  rfl

theorem window_zeros {p : Placement} {size : Nat} (h : p.stop ≤ size) :
    p.window (Codec.zeros size) = Codec.zeros p.footprint := by
  unfold stop at h
  rw [window, Codec.zeros, List.drop_replicate, List.take_replicate,
    Nat.min_eq_left (by omega), Codec.zeros]

end Placement

/-- **A run over some members stays within the buffer**: the windows of the members that are left
are as they were, so that each is still the window of zeros its member is written to. -/
theorem guardedWriteMembers_serves (order : ByteOrder) {value? : String → Nat → Option Value} :
    ∀ {ms : List Member} {position : Nat} (buffer : Bytes) (heap : Option σ),
    (∀ m ∈ ms, ∀ v : Value, Serves (σ := σ) m.placement.footprint v.WellFormed
      (m.kind.guardedWrite m.placement order v) (m.kind.write m.placement order v)) →
    ms.Pairwise (fun m n => m.placement.Apart n.placement) →
    (∀ m ∈ ms, m.placement.stop ≤ buffer.length) →
    ∃ result after,
      guardedWriteMembers order ms value? position buffer heap = .ok (result, after) ∧
      Codec.Spans buffer.length result ∧
      (ProperValues value? →
        (∀ m ∈ ms, m.placement.window buffer = Codec.zeros m.placement.footprint) →
        writeMembers order ms value? position buffer heap = (result, after))
  | [], _, buffer, heap, _, _, _ =>
    ⟨.ok buffer, heap, rfl, Codec.spans_ok rfl, fun _ _ => rfl⟩
  | ⟨p, kind, binding⟩ :: rest, position, buffer, heap, hkinds, hapart, hwithin => by
    obtain ⟨hfirst, hapart⟩ := List.pairwise_cons.1 hapart
    obtain ⟨hkind, hkinds⟩ := List.forall_mem_cons.1 hkinds
    obtain ⟨hstop, hwithin⟩ := List.forall_mem_cons.1 hwithin
    unfold guardedWriteMembers writeMembers
    cases hbound : binding.isBound with
    | false =>
      simp only [Bool.false_eq_true, if_false]
      obtain ⟨result, after, hrun, hspans, hplain⟩ :=
        guardedWriteMembers_serves order buffer heap hkinds hapart hwithin
      exact ⟨result, after, hrun, hspans, fun hproper hzeros =>
        hplain hproper (List.forall_mem_cons.1 hzeros).2⟩
    | true =>
      obtain ⟨result, after, hwrite, hspans, hplain⟩ :=
        hkind ((value? p.name position).getD .null) (p.window buffer) heap
          (Placement.length_window hstop)
      simp only [if_true, bind, Except.bind, Placement.slice_window hstop, hwrite]
      have hproper' : ProperValues value? →
          ((value? p.name position).getD .null).WellFormed := by
        intro hproper
        cases hv : value? p.name position with
        | none => trivial
        | some v => exact hproper p.name position v hv
      cases result with
      | error e =>
        refine ⟨.error e, after, rfl, Codec.spans_error _ _, ?_⟩
        intro hproper hzeros
        have hhead := hplain (hproper' hproper) (List.forall_mem_cons.1 hzeros).1
        dsimp only at hhead
        rw [hhead]
      | ok content =>
        have hlen : content.length = p.footprint := hspans content rfl
        have hcopy : Guarded.copy (p.window buffer) content = .ok content :=
          Guarded.copy_eq (hlen.trans (Placement.length_window hstop).symm)
        have hsplice : (splice buffer p.offset content).length = buffer.length := by
          refine length_splice ?_
          rw [hlen]
          exact hstop
        obtain ⟨result, after', hrun, hspans', hplain'⟩ :=
          guardedWriteMembers_serves order (splice buffer p.offset content) after hkinds hapart
            fun m hm => hsplice ▸ hwithin m hm
        simp only [hcopy]
        refine ⟨result, after', hrun, hsplice ▸ hspans', ?_⟩
        intro hproper hzeros
        have hhead := hplain (hproper' hproper) (List.forall_mem_cons.1 hzeros).1
        dsimp only at hhead
        rw [hhead]
        refine hplain' hproper fun m hm => ?_
        rw [Placement.window_splice_of_apart (hfirst m hm).symm hlen hstop]
        exact (List.forall_mem_cons.1 hzeros).2 m hm

namespace Schema

theorem guardedWrite_eq (s : Schema) (value? : String → Nat → Option Value) (buffer : Bytes)
    (heap : Option σ) : s.guardedWrite value? buffer heap =
      if buffer.length = s.totalSize then
        guardedWriteMembers s.settings.byteOrder s.members value? 0 buffer heap
      else .ok (.error (.bufferSize s.totalSize buffer.length), heap) := by
  cases s
  rfl

/-- One level: if nested records are written without a fault, so are those of this schema. -/
theorem writes_of_laidOut {rules : ViewRules} {s : Schema} (hs : s.LaidOut rules)
    (hn : ∀ m ∈ s.members, ∀ t, m.placement.nested = some t → t.Writes σ) : s.Writes σ := by
  intro width value? hw window heap hlen
  rw [guardedWrite_eq, write_eq]
  by_cases hwidth : width = s.totalSize
  · rw [if_pos (hlen.trans hwidth), if_pos hwidth]
    have hkinds : ∀ m ∈ s.members, ∀ v : Value, Serves (σ := σ) m.placement.footprint
        v.WellFormed (m.kind.guardedWrite m.placement s.settings.byteOrder v)
        (m.kind.write m.placement s.settings.byteOrder v) := by
      intro m hm v
      have hc := hs.checked m hm
      have hfoot : m.placement.footprint < 2 ^ 63 :=
        (hs.footprint_le hm).trans_lt (hwidth ▸ hw)
      exact Kind.serves _ hc hfoot (Kind.suits hc (hs.chosen m hm)) (hn m hm) v
    obtain ⟨result, after, hrun, hspans, hplain⟩ := guardedWriteMembers_serves _ window heap
      hkinds hs.apart fun m hm => (hs.within m hm).trans (hlen.trans hwidth).ge
    refine ⟨result, after, hrun, hlen ▸ hspans, ?_⟩
    rintro hproper rfl
    rw [hwidth] at hplain
    exact hplain hproper fun m hm => Placement.window_zeros (hs.within m hm)
  · rw [if_neg fun h => hwidth (hlen.symm.trans h), if_neg hwidth]
    exact ⟨_, _, rfl, Codec.spans_error _ _, fun _ _ => by rw [hlen]⟩

/-- **Records of a built schema are written without a fault.** -/
theorem Built.writes {s : Schema} (h : s.Built) : s.Writes σ := by
  induction h with
  | intro here _ ih =>
    obtain ⟨b, hb⟩ := here
    exact writes_of_laidOut (Blueprint.laidOut_of_build hb).1 ih

end Schema

/-! ## Reading -/

theorem mapM_cons_eq {α β ε : Type} (f : α → Except ε β) (a : α) (as : List α) :
    (a :: as).mapM f =
      match f a with
      | .error e => .error e
      | .ok b => (as.mapM f).map (b :: ·) := by
  rw [List.mapM_cons]
  cases f a with
  | error e => rfl
  | ok b => cases as.mapM f <;> rfl

/-- All steps succeed exactly if each does. -/
theorem mapM_eq_ok_iff {α β ε : Type} {f : α → Except ε β} : ∀ {as : List α} {bs : List β},
    as.mapM f = .ok bs ↔ List.Forall₂ (fun a b => f a = .ok b) as bs
  | [], bs => by
    rw [List.mapM_nil, List.forall₂_nil_left_iff]
    constructor
    · rintro ⟨⟩
      rfl
    · rintro rfl
      rfl
  | a :: as, bs => by
    rw [mapM_cons_eq, List.forall₂_cons_left_iff]
    cases f a with
    | error e => exact iff_of_false nofun (by rintro ⟨b, cs, ⟨⟩, -⟩)
    | ok b =>
      cases hrest : as.mapM f with
      | error e =>
        refine iff_of_false nofun ?_
        rintro ⟨_, cs, -, hcs, -⟩
        rw [← mapM_eq_ok_iff, hrest] at hcs
        cases hcs
      | ok cs =>
        constructor
        · rintro ⟨⟩
          exact ⟨b, cs, rfl, mapM_eq_ok_iff.1 hrest, rfl⟩
        · rintro ⟨_, cs', ⟨⟩, hcs, rfl⟩
          rw [← mapM_eq_ok_iff, hrest] at hcs
          cases hcs
          rfl

/-- Read windows in order, up to the first failure. -/
def inOrder {α : Type} (read : Bytes → Except Error α) : List Bytes → Except Error (List α)
  | [] => .ok []
  | window :: rest =>
    match read window with
    | .error e => .error e
    | .ok a => (inOrder read rest).map (a :: ·)

theorem readRun_eq_inOrder (read : Bytes → Except Error Value) :
    ∀ windows, readRun read windows = inOrder read windows
  | [] => rfl
  | window :: rest => by
    unfold readRun inOrder
    cases read window with
    | error e => rfl
    | ok v => exact congrArg (Except.map (v :: ·)) (readRun_eq_inOrder read rest)

theorem Schema.unpackEach_eq_inOrder {ρ : Type} [RecordAccess ρ] (s : Schema) (heap : Option σ) :
    ∀ windows, s.unpackEach ρ heap windows = inOrder (fun bytes => s.unpack ρ bytes heap) windows
  | [] => rfl
  | window :: rest => by
    unfold unpackEach inOrder
    cases s.unpack ρ window heap with
    | error e => rfl
    | ok record => exact congrArg (Except.map (record :: ·)) (unpackEach_eq_inOrder s heap rest)

theorem inOrder_eq_mapM {α : Type} (read : Bytes → Except Error α) :
    ∀ windows, inOrder read windows = windows.mapM read
  | [] => rfl
  | window :: rest => by
    rw [inOrder, mapM_cons_eq, inOrder_eq_mapM read rest]
    cases read window <;> rfl

theorem length_of_inOrder {α : Type} {read : Bytes → Except Error α} {windows : List Bytes}
    {values : List α} (h : inOrder read windows = .ok values) : values.length = windows.length := by
  rw [inOrder_eq_mapM, mapM_eq_ok_iff] at h
  exact h.length_eq.symm

theorem readSlots_eq {α : Type} {guarded : Bytes → Guarded (Except Error α)}
    {plain : Bytes → Except Error α} : ∀ {slots : List Bytes},
    (∀ slot ∈ slots, guarded slot = .ok (plain slot)) →
    Guarded.readSlots guarded slots = .ok (inOrder plain slots)
  | [], _ => rfl
  | slot :: slots, h => by
    obtain ⟨hslot, hslots⟩ := List.forall_mem_cons.1 h
    simp only [Guarded.readSlots, inOrder, bind, Except.bind, pure, Except.pure, hslot,
      readSlots_eq hslots]
    cases plain slot <;> rfl

/-- **The slots of a window are read without a fault** if each of them is. -/
theorem guardedReadRun_eq {α : Type} {guarded : Bytes → Guarded (Except Error α)}
    {plain : Bytes → Except Error α} {width : Nat} (hpos : 0 < width) (window : Bytes)
    (h : ∀ slot : Bytes, slot.length = width → guarded slot = .ok (plain slot)) :
    Guarded.readRun guarded width window =
      .ok (inOrder plain (Codec.runs width (window.length / width) window)) := by
  simp only [Guarded.readRun, bind, Except.bind, Guarded.chunks_eq hpos]
  exact readSlots_eq fun slot hslot =>
    h slot (Codec.length_of_mem_runs hslot (Nat.mul_div_le ..))

/-- A reading that does not fault. -/
def Reading.guarded (r : Reading) : GuardedReading := ⟨r.name, r.position, .ok r.value⟩

theorem guardedFill_eq {ρ : Type} [RecordAccess ρ] : ∀ (readings : List Reading) (record : ρ),
    guardedFill (readings.map Reading.guarded) record = .ok (fill readings record)
  | [], _ => rfl
  | r :: rest, record => by
    simp only [List.map_cons, guardedFill, fill, Reading.guarded, bind, Except.bind, pure,
      Except.pure]
    cases r.value with
    | error e => rfl
    | ok v =>
      dsimp only
      cases RecordAccess.setField record r.name r.position v with
      | error e => rfl
      | ok record => exact guardedFill_eq rest record

/-- Buffers of any length are read without a fault. -/
def Schema.Reads (σ : Type) [Heap σ] (s : Schema) : Prop :=
  ∀ (buffer : Bytes) (heap : Option σ), buffer.length < 2 ^ 63 →
    s.guardedReadings buffer heap = (s.readings buffer heap).map (List.map Reading.guarded)

theorem Element.guardedRead_eq (name : String) (order : ByteOrder) {nested : Option Schema}
    {element : Element} {window : Bytes} (hw : window.length < 2 ^ 63)
    (hs : element.Suits nested window.length) (hn : ∀ t, nested = some t → t.Reads σ)
    (heap : Option σ) : element.guardedRead name order window heap =
      .ok (element.read name order window heap) := by
  cases element with
  | scalar codec => exact codec.guardedRead_eq name order hs heap
  | record schema =>
    simp only [Element.guardedRead, Element.read, hn schema hs window heap hw]
    cases schema.readings window heap with
    | error e => rfl
    | ok readings =>
      simp only [Except.map, bind, Except.bind, guardedFill_eq]
      rfl

/-- **A member is read from its window without a fault.** -/
theorem Kind.guardedRead_eq (order : ByteOrder) {p : Placement} {kind : Kind} (hc : p.Checked)
    (hrank : p.rank ≤ maxRank) {window : Bytes} (hlen : window.length = p.footprint)
    (hw : p.footprint < 2 ^ 63) (hs : kind.Suits p)
    (hn : ∀ t, p.nested = some t → t.Reads σ) (heap : Option σ) :
    kind.guardedRead p order window heap = .ok (kind.read p order window heap) := by
  cases kind with
  | single element =>
    have hs : element.Suits p.nested window.length := hlen ▸ hs
    exact element.guardedRead_eq p.name order (hlen ▸ hw) hs hn heap
  | array element =>
    obtain ⟨hv, hsuits⟩ := hs
    have hpos := hc.elementWidth_pos hv
    have hle := hc.elementWidth_le hv hw
    have hrun := guardedReadRun_eq hpos window fun slot (hslot : slot.length = p.elementWidth) =>
      element.guardedRead_eq p.name order (hslot.trans_lt (hle.trans_lt hw))
        (hslot ▸ hsuits : element.Suits p.nested slot.length) hn heap
    have hcount : window.length / p.elementWidth = p.elements := by
      rw [hlen, Placement.footprint_eq hv hw, Nat.mul_div_cancel_left _ hpos]
    rw [hcount] at hrun
    simp only [Kind.guardedRead, Kind.read, bind, Except.bind, hrun, readRun_eq_inOrder]
    rcases hvalues : inOrder (fun slot => element.read p.name order slot heap)
      (Codec.runs p.elementWidth p.elements window) with e | values
    · rfl
    · have harray : Value.array? p.dims values = some (.array p.dims values) := by
        have hlength := length_of_inOrder hvalues
        rw [Codec.length_runs] at hlength
        rw [Value.array?, Grid.ofElements?, if_pos ⟨hrank, hlength.symm⟩]
        rfl
      simp only [harray]
      rfl

theorem guardedReadMembers_eq (positional : Bool) (order : ByteOrder) {buffer : Bytes}
    {heap : Option σ} : ∀ {ms : List Member} (position : Nat),
    (∀ m ∈ ms, m.placement.stop ≤ buffer.length) →
    (∀ m ∈ ms, m.kind.guardedRead m.placement order (m.placement.window buffer) heap =
      .ok (m.kind.read m.placement order (m.placement.window buffer) heap)) →
    guardedReadMembers positional order buffer heap ms position =
      (readMembers positional order buffer heap ms position).map Reading.guarded
  | [], _, _, _ => rfl
  | ⟨p, kind, binding⟩ :: rest, position, hwithin, hreads => by
    obtain ⟨hstop, hwithin⟩ := List.forall_mem_cons.1 hwithin
    obtain ⟨hread, hreads⟩ := List.forall_mem_cons.1 hreads
    have ih := guardedReadMembers_eq positional order (position + 1) hwithin hreads
    have hslice := Placement.slice_window hstop
    dsimp only at hslice hread
    unfold guardedReadMembers readMembers
    dsimp only
    rw [ih]
    split
    · simp only [bind, Except.bind, hslice, hread]
      rfl
    · split <;> rfl

/-- The rank of a checked member is one that an array can have. -/
theorem Placement.rank_le_of_check {p : Placement} (h : p.check = .ok ()) :
    p.rank ≤ maxRank := by
  unfold check at h
  dsimp only at h
  split at h
  · cases h
  split at h
  · cases h
  split at h
  · cases h
  · omega

theorem Blueprint.rank_le_of_build {b : Blueprint} {s : Schema} (h : b.build = .ok s) :
    ∀ m ∈ s.members, m.placement.rank ≤ maxRank := by
  obtain ⟨ps, hs⟩ := stages_of_build h
  exact fun m hm => Placement.rank_le_of_check (hs.check hm)

namespace Schema

theorem guardedReadings_eq (s : Schema) (buffer : Bytes) (heap : Option σ) :
    s.guardedReadings buffer heap =
      if buffer.length = s.totalSize then
        .ok (guardedReadMembers s.isPositional s.settings.byteOrder buffer heap s.members 0)
      else .error (.bufferSize s.totalSize buffer.length) := by
  cases s
  rfl

theorem readings_eq (s : Schema) (buffer : Bytes) (heap : Option σ) :
    s.readings buffer heap =
      if buffer.length = s.totalSize then
        .ok (readMembers s.isPositional s.settings.byteOrder buffer heap s.members 0)
      else .error (.bufferSize s.totalSize buffer.length) := by
  cases s
  rfl

/-- Each member of a built schema is read from its window without a fault. -/
theorem guardedRead_member {b : Blueprint} {s : Schema} (hb : b.build = .ok s) {buffer : Bytes}
    (hlen : buffer.length = s.totalSize) (hw : buffer.length < 2 ^ 63)
    (hn : ∀ m ∈ s.members, ∀ t, m.placement.nested = some t → t.Reads σ) {m : Member}
    (hm : m ∈ s.members) (heap : Option σ) :
    m.kind.guardedRead m.placement s.settings.byteOrder (m.placement.window buffer) heap =
      .ok (m.kind.read m.placement s.settings.byteOrder (m.placement.window buffer) heap) := by
  have hs := (Blueprint.laidOut_of_build hb).1
  have hc := hs.checked m hm
  have hfoot : m.placement.footprint < 2 ^ 63 := (hs.footprint_le hm).trans_lt (hlen ▸ hw)
  exact Kind.guardedRead_eq _ hc (Blueprint.rank_le_of_build hb m hm)
    (Placement.length_window ((hs.within m hm).trans hlen.ge)) hfoot
    (Kind.suits hc (hs.chosen m hm)) (hn m hm) heap

/-- **Buffers are read by a built schema without a fault.** -/
theorem Built.reads {s : Schema} (h : s.Built) : s.Reads σ := by
  induction h with
  | @intro s here _ ih =>
    obtain ⟨b, hb⟩ := here
    intro buffer heap hw
    rw [guardedReadings_eq, readings_eq]
    split
    · rename_i hlen
      rw [guardedReadMembers_eq]
      · rfl
      · exact fun m hm => ((Blueprint.laidOut_of_build hb).1.within m hm).trans hlen.ge
      · exact fun m hm => guardedRead_member hb hlen hw ih hm heap
    · rfl

end Schema

/-! ## Whole records -/

namespace Schema

variable {s : Schema} {ρ : Type} [RecordAccess ρ]

theorem Writes.packInto (hs : s.Writes σ) (hsize : s.totalSize < 2 ^ 63) (record : ρ)
    (previous : Bytes) (heap : Option σ) : ∃ result after,
      s.guardedPackInto record previous heap = .ok (result, after) ∧
      Codec.Spans s.totalSize result ∧
      (ProperValues (RecordAccess.field? record) →
        s.packInto record previous heap = (result, after)) := by
  have hclear : previous.take 0 ++ Codec.zeros s.totalSize = Codec.zeros s.totalSize := by
    rw [List.take_zero, List.nil_append]
  obtain ⟨result, after, hwrite, hspans, hplain⟩ :=
    hs s.totalSize (RecordAccess.field? record) hsize (Codec.zeros s.totalSize) heap
      List.length_replicate
  refine ⟨result, after, ?_, hspans, fun hproper => hplain hproper rfl⟩
  rw [guardedPackInto, hclear, hwrite]

theorem Writes.packAll (hs : s.Writes σ) (hsize : s.totalSize < 2 ^ 63) (records : List ρ)
    (heap : Option σ) : ∃ result after,
      s.guardedPackAll records heap = .ok (result, after) ∧
      Codec.Spans (s.totalSize * records.length) result ∧
      ((∀ record ∈ records, ProperValues (RecordAccess.field? record)) →
        s.packAll records heap = (result, after)) := by
  unfold guardedPackAll Schema.packAll
  by_cases hzero : s.totalSize = 0
  · refine ⟨.ok (Codec.zeros (s.totalSize * records.length)), heap, if_pos hzero,
      Codec.spans_zeros _, fun _ => ?_⟩
    rw [if_pos hzero, hzero, Nat.zero_mul]
    rfl
  · have hrun := writeRun_serves (Nat.pos_of_ne_zero hzero) records
      (fun record _ => hs s.totalSize (RecordAccess.field? record) hsize)
      (s.totalSize * records.length)
    obtain ⟨result, after, hwrite, hspans, hplain⟩ :=
      hrun (Codec.zeros (s.totalSize * records.length)) heap List.length_replicate
    refine ⟨result, after, (if_neg hzero).trans hwrite, hspans, fun hproper => ?_⟩
    rw [if_neg hzero, packEach_eq_inSequence]
    exact hplain ⟨rfl, hproper⟩ rfl

theorem Reads.unpack (hs : s.Reads σ) (hsize : s.totalSize < 2 ^ 63) (bytes : Bytes)
    (heap : Option σ) : s.guardedUnpack ρ bytes heap = .ok (s.unpack ρ bytes heap) := by
  by_cases hlen : bytes.length = s.totalSize
  · rw [guardedUnpack, Schema.unpack, hs bytes heap (hlen.trans_lt hsize)]
    cases s.readings bytes heap with
    | error e => rfl
    | ok readings => exact guardedFill_eq readings _
  · rw [guardedUnpack, Schema.unpack, guardedReadings_eq, readings_eq, if_neg hlen, if_neg hlen]
    rfl

theorem Reads.unpackAll (hs : s.Reads σ) (hsize : s.totalSize < 2 ^ 63) (bytes : Bytes)
    (heap : Option σ) : s.guardedUnpackAll ρ bytes heap = .ok (s.unpackAll ρ bytes heap) := by
  unfold guardedUnpackAll Schema.unpackAll
  by_cases hzero : s.totalSize = 0
  · simp only [if_pos hzero, List.length_eq_zero_iff]
    split
    · rename_i hnil
      rw [hnil, List.length_nil, Nat.zero_div]
      rfl
    · rw [Nat.sub_self]
      rfl
  · simp only [if_neg hzero]
    split
    · rw [unpackEach_eq_inOrder]
      exact guardedReadRun_eq (Nat.pos_of_ne_zero hzero) bytes
        fun slot _ => hs.unpack hsize slot heap
    · rfl

/-- A member is found by its position. -/
theorem member?_eq (s : Schema) (name : String) :
    s.member? name = (s.position? name).bind fun position => s.members[position]? :=
  List.find?_eq_bind_findIdx?_getElem?

theorem Built.unpackMember (hs : s.Built) (hsize : s.totalSize < 2 ^ 63) (bytes : Bytes)
    (name : String) (heap : Option σ) :
    s.guardedUnpackMember bytes name heap = .ok (s.unpackMember bytes name heap) := by
  unfold guardedUnpackMember Schema.unpackMember
  by_cases hlen : bytes.length = s.totalSize
  swap
  · rw [if_neg hlen, if_neg hlen]
    rfl
  rw [if_pos hlen, if_pos hlen, member?_eq]
  cases hposition : s.position? name with
  | none => rfl
  | some position =>
    obtain ⟨hbound, -⟩ := List.findIdx?_eq_some_iff_getElem.1 hposition
    have hm : s.members[position] ∈ s.members := List.getElem_mem hbound
    have hget : s.members[position]? = some s.members[position] := List.getElem?_eq_getElem hbound
    cases hs with
    | intro here nested =>
      obtain ⟨b, hb⟩ := here
      have hstop := (Blueprint.laidOut_of_build hb).1.within _ hm
      have hread := guardedRead_member hb hlen (hlen.trans_lt hsize)
        (fun n hn t ht => Built.reads (nested n hn t ht)) hm heap
      simp only [bind, Except.bind, Option.bind_some, Guarded.entry_eq hget, hget,
        Placement.slice_window (hstop.trans hlen.ge), hread]

end Schema

/-- **No call of a codec faults**, for a built schema that fits a buffer, whatever is written or
read: it ends with a result or an error of the codec.  Reading gives what the plain codec gives, and
so does writing well-formed values; arrays that are not hold more or fewer elements than their
extents say.  The bound on the size is that of a buffer, so that the exact sums and products of
sizes are those of machine words. -/
theorem codec_never_faults {s : Schema} (hs : s.Built) (hsize : s.totalSize < 2 ^ 63)
    {σ : Type} [Heap σ] (heap : Option σ) {ρ : Type} [RecordAccess ρ] :
    (∀ record : ρ, ∃ result after, s.guardedPack record heap = .ok (result, after) ∧
      (ProperValues (RecordAccess.field? record) → s.pack record heap = (result, after))) ∧
    (∀ (record : ρ) (previous : Bytes), ∃ result after,
      s.guardedPackInto record previous heap = .ok (result, after) ∧
      (ProperValues (RecordAccess.field? record) →
        s.packInto record previous heap = (result, after))) ∧
    (∀ records : List ρ, ∃ result after, s.guardedPackAll records heap = .ok (result, after) ∧
      ((∀ record ∈ records, ProperValues (RecordAccess.field? record)) →
        s.packAll records heap = (result, after))) ∧
    (∀ bytes, s.guardedUnpack ρ bytes heap = .ok (s.unpack ρ bytes heap)) ∧
    (∀ bytes, s.guardedUnpackAll ρ bytes heap = .ok (s.unpackAll ρ bytes heap)) ∧
    ∀ bytes name, s.guardedUnpackMember bytes name heap = .ok (s.unpackMember bytes name heap) := by
  have hpack : ∀ (record : ρ) (previous : Bytes), ∃ result after,
      s.guardedPackInto record previous heap = .ok (result, after) ∧
      (ProperValues (RecordAccess.field? record) →
        s.packInto record previous heap = (result, after)) := by
    intro record previous
    obtain ⟨result, after, hwrite, -, hplain⟩ := hs.writes.packInto hsize record previous heap
    exact ⟨result, after, hwrite, hplain⟩
  refine ⟨fun record => hpack record [], hpack, ?_, fun bytes => hs.reads.unpack hsize bytes heap,
    fun bytes => hs.reads.unpackAll hsize bytes heap,
    fun bytes name => hs.unpackMember hsize bytes name heap⟩
  intro records
  obtain ⟨result, after, hwrite, -, hplain⟩ := hs.writes.packAll hsize records heap
  exact ⟨result, after, hwrite, hplain⟩

/-- An array of one element too many, and a text that needs a heap. -/
def crowdedRecord : Fields :=
  [("cells", .array [2] [.null, .fields [("x", .number (.int 1))], .fields []]),
    ("tag", .text "ok")]

theorem codec_never_faults_row :
    rowSchema.Built ∧ rowSchema.totalSize < 2 ^ 63 ∧
    (∃ result after, rowSchema.guardedPack rowRecord (some ({} : TransientStore)) =
      .ok (result, after)) ∧
    (∃ result after, rowSchema.guardedPackAll [rowRecord, crowdedRecord]
      (none : Option TransientStore) = .ok (result, after)) ∧
    rowSchema.guardedUnpack Fields [] (none : Option TransientStore) =
      .ok (.error (.bufferSize 24 0)) ∧
    rowSchema.guardedUnpackMember [] "tag" (none : Option TransientStore) =
      .ok (.error (.bufferSize 24 0)) := by
  have hbuilt := builtPlainly_rowSchema.built
  have hsize : rowSchema.totalSize < 2 ^ 63 := by decide
  obtain ⟨hpack, -⟩ := codec_never_faults hbuilt hsize (some ({} : TransientStore)) (ρ := Fields)
  obtain ⟨-, -, hpackAll, hunpack, -, hmember⟩ :=
    codec_never_faults hbuilt hsize (none : Option TransientStore) (ρ := Fields)
  obtain ⟨result, after, hwrite, -⟩ := hpack rowRecord
  obtain ⟨result', after', hwrite', -⟩ := hpackAll [rowRecord, crowdedRecord]
  exact ⟨hbuilt, hsize, ⟨result, after, hwrite⟩, ⟨result', after', hwrite'⟩, hunpack [],
    hmember [] "tag"⟩

/-- A member behind the end of its record: no build yields such a schema. -/
def overlongSchema : Schema :=
  ⟨"T", [⟨.integer "x" 0 2, .single (.scalar (.integer true)), .dynamic⟩],
    Shape.openMap.outline, 1, {}⟩

example : overlongSchema.guardedUnpack Fields [7] (none : Option TransientStore) =
    .error (.range 0 2 1) := by cbv

end PackedRecord
