import PackedRecord.Proofs.StableRecords
import PackedRecord.Proofs.WriteInduction

/-!
# Bytes of a record

A member writes the bytes of its range and no others.  So a change of one value is seen in the
range of its member alone, and bytes that belong to no mapped member, at any depth, stay zero.

* `EqualOutside` — two buffers that differ in one range at most.
* `writeMembers_equalOutside` — two runs over the members with the same values but for one.
* `RunWrites`, `runWrites_of_writeMembers` — what one run leaves in each window and around them.
* `Schema.Claims`, `Schema.Built.leavesZeros` — the bytes of a record that a value can reach, and
  the induction over nested schemas for those that none can reach.
* `value_touches_own_bytes` — both parts for whole records.
-/

namespace PackedRecord

variable {σ : Type} [Heap σ]

/-! ## Widths of what is written -/

omit [Heap σ] in
/-- What is written for a proper value is as wide as the window. -/
theorem Serves.spans {width : Nat} {proper : Prop}
    {guarded : Bytes → Option σ → Guarded (Except Error Bytes × Option σ)}
    {plain : Option σ → Except Error Bytes × Option σ} (h : Serves width proper guarded plain)
    (hp : proper) (heap : Option σ) : Codec.Spans width (plain heap).1 := by
  obtain ⟨result, after, -, hspans, hplain⟩ :=
    h (Codec.zeros width) heap List.length_replicate
  rw [hplain hp rfl]
  exact hspans

/-- A member writes windows of its own width only. -/
def Member.Spanning (σ : Type) [Heap σ] (order : ByteOrder) (m : Member) : Prop :=
  ∀ v : Value, v.WellFormed → ∀ heap : Option σ,
    Codec.Spans m.placement.footprint (m.kind.write m.placement order v heap).1

theorem ProperValues.getD {value? : String → Nat → Option Value} (h : ProperValues value?)
    (name : String) (position : Nat) : ((value? name position).getD .null).WellFormed := by
  cases hv : value? name position with
  | none => trivial
  | some v => exact h name position v hv

namespace Schema

/-- A member of a laid out schema writes windows of its own width if nested records are built. -/
theorem LaidOut.spanning {rules : ViewRules} {s : Schema} (hl : s.LaidOut rules)
    (hsize : s.totalSize < 2 ^ 63) {m : Member} (hm : m ∈ s.members)
    (hn : ∀ t, m.placement.nested = some t → t.Built) (order : ByteOrder) :
    m.Spanning σ order := by
  have hc := hl.checked m hm
  intro v hv heap
  have hserves := Kind.serves (σ := σ) order hc ((hl.footprint_le hm).trans_lt hsize)
    (Kind.suits hc (hl.chosen m hm)) (fun t ht => Built.writes (hn t ht)) v
  exact hserves.spans hv heap

/-- The members of a built schema write windows of their own width, within the record. -/
theorem Built.members_span {s : Schema} (hs : s.Built) (hsize : s.totalSize < 2 ^ 63)
    (order : ByteOrder) : ∀ m ∈ s.members,
      m.Spanning σ order ∧ m.placement.stop ≤ (Codec.zeros s.totalSize).length := by
  obtain ⟨⟨b, hb⟩, hnested⟩ := hs
  have hl := (Blueprint.laidOut_of_build hb).1
  exact fun m hm => ⟨hl.spanning hsize hm (hnested m hm) order,
    (hl.within m hm).trans List.length_replicate.ge⟩

end Schema

/-! ## Buffers that differ in one range -/

/-- The buffers are equally long and have the same bytes outside the range of a member. -/
structure EqualOutside (p : Placement) (buffer other : Bytes) : Prop where
  length : buffer.length = other.length
  bytes : ∀ i, ¬p.Covers i → buffer[i]? = other[i]?

namespace EqualOutside

variable {p : Placement} {buffer other : Bytes}

theorem refl (p : Placement) (buffer : Bytes) : EqualOutside p buffer buffer :=
  ⟨rfl, fun _ _ => rfl⟩

/-- The same window is written to both. -/
theorem splice (h : EqualOutside p buffer other) {offset : Nat} {window : Bytes}
    (hle : offset + window.length ≤ buffer.length) :
    EqualOutside p (splice buffer offset window) (PackedRecord.splice other offset window) := by
  have hle' : offset + window.length ≤ other.length := h.length ▸ hle
  refine ⟨by rw [length_splice hle, length_splice hle', h.length], fun i hi => ?_⟩
  rw [getElem?_splice hle, getElem?_splice hle', h.bytes i hi]

/-- The range itself is written, with one window or the other. -/
theorem splice_own (h : EqualOutside p buffer other) {window window' : Bytes}
    (hlen : window.length = p.footprint) (hlen' : window'.length = p.footprint)
    (hstop : p.stop ≤ buffer.length) :
    EqualOutside p (PackedRecord.splice buffer p.offset window)
      (PackedRecord.splice other p.offset window') := by
  have hstop' : p.stop ≤ other.length := h.length ▸ hstop
  unfold Placement.stop at hstop hstop'
  refine ⟨?_, fun i hi => ?_⟩
  · rw [length_splice (by omega), length_splice (by omega), h.length]
  · rw [getElem?_splice (by omega), getElem?_splice (by omega), h.bytes i hi, hlen, hlen']
    unfold Placement.Covers Placement.stop at hi
    split
    · rfl
    · rw [if_neg (by omega), if_neg (by omega)]

end EqualOutside

/-! ## Runs that differ in one value -/

/-- A run that succeeds has written its first member. -/
theorem exists_of_writeMembers_bound {order : ByteOrder} {p : Placement} {kind : Kind}
    {binding : Binding} {rest : List Member} {value? : String → Nat → Option Value}
    {position : Nat} {buffer out : Bytes} {heap after : Option σ} (hb : binding.isBound = true)
    (h : writeMembers order (⟨p, kind, binding⟩ :: rest) value? position buffer heap =
      (.ok out, after)) :
    ∃ window later, kind.write p order ((value? p.name position).getD .null) heap =
        (.ok window, later) ∧
      writeMembers order rest value? (position + 1) (splice buffer p.offset window) later =
        (.ok out, after) := by
  rw [writeMembers_bound hb] at h
  dsimp only at h
  split at h
  · cases h
  · rename_i window later hwrite
    exact ⟨window, later, hwrite, h⟩

/-- **Two runs over the members with the same values but for one member** leave the same bytes
outside its range, and the same heap if what it writes does not depend on the heap. -/
theorem writeMembers_equalOutside (order : ByteOrder) {k : Nat} {p : Placement}
    {value? value'? : String → Nat → Option Value} (hproper : ProperValues value?)
    (hproper' : ProperValues value'?) : ∀ {ms : List Member} {position : Nat}
    {buffer buffer' out out' : Bytes} {heap after after' : Option σ},
    (∀ x ∈ ms.zipIdx position, x.1.isMapped = true → x.2 ≠ k →
      (value? x.1.name x.2).getD .null = (value'? x.1.name x.2).getD .null) →
    (∀ x ∈ ms.zipIdx position, x.2 = k →
      x.1.placement = p ∧ ∀ v, Detached (σ := σ) (x.1.kind.write x.1.placement order v)) →
    (∀ m ∈ ms, m.Spanning σ order ∧ m.placement.stop ≤ buffer.length) →
    EqualOutside p buffer buffer' →
    writeMembers order ms value? position buffer heap = (.ok out, after) →
    writeMembers order ms value'? position buffer' heap = (.ok out', after') →
    EqualOutside p out out' ∧ after = after'
  | [], _, buffer, buffer', out, out', heap, after, after', _, _, _, heq, h, h' => by
    cases h
    cases h'
    exact ⟨heq, rfl⟩
  | ⟨q, kind, binding⟩ :: rest, position, buffer, buffer', out, out', heap, after, after', hsame,
      hown, hwithin, heq, h, h' => by
    rw [List.zipIdx_cons] at hsame hown
    obtain ⟨hvalue, hsame⟩ := List.forall_mem_cons.1 hsame
    obtain ⟨hfirst, hown⟩ := List.forall_mem_cons.1 hown
    obtain ⟨⟨hspan, hstop⟩, hwithin⟩ := List.forall_mem_cons.1 hwithin
    cases hb : binding.isBound with
    | false =>
      rw [writeMembers_unbound hb] at h h'
      exact writeMembers_equalOutside order hproper hproper' hsame hown hwithin heq h h'
    | true =>
      obtain ⟨window, later, hwrite, hrest⟩ := exists_of_writeMembers_bound hb h
      obtain ⟨window', later', hwrite', hrest'⟩ := exists_of_writeMembers_bound hb h'
      have hlen : window.length = q.footprint :=
        hspan _ (hproper.getD ..) heap window (congrArg Prod.fst hwrite)
      have hlen' : window'.length = q.footprint :=
        hspan _ (hproper'.getD ..) heap window' (congrArg Prod.fst hwrite')
      have hsplice : (splice buffer q.offset window).length = buffer.length :=
        length_splice (hlen ▸ hstop)
      rw [← hsplice] at hwithin
      by_cases hk : position = k
      · obtain ⟨rfl, hdetached⟩ := hfirst hk
        obtain ⟨_, hresult⟩ := hdetached ((value? q.name position).getD .null)
        obtain ⟨_, hresult'⟩ := hdetached ((value'? q.name position).getD .null)
        obtain rfl : heap = later := (Prod.mk.inj ((hresult heap).symm.trans hwrite)).2
        obtain rfl : heap = later' := (Prod.mk.inj ((hresult' heap).symm.trans hwrite')).2
        exact writeMembers_equalOutside order hproper hproper' hsame hown hwithin
          (heq.splice_own hlen hlen' hstop) hrest hrest'
      · have hvalue : (value? q.name position).getD .null = (value'? q.name position).getD .null :=
          hvalue hb hk
        rw [← hvalue, hwrite] at hwrite'
        cases hwrite'
        exact writeMembers_equalOutside order hproper hproper' hsame hown hwithin
          (heq.splice (hlen ▸ hstop)) hrest hrest'

/-! ## What a run leaves behind -/

/-- A run over some members has written each mapped one to its window, from some heap, and nothing
elsewhere. -/
structure RunWrites (σ : Type) [Heap σ] (order : ByteOrder) (ms : List Member)
    (value? : String → Nat → Option Value) (position : Nat) (buffer out : Bytes) : Prop where
  length : out.length = buffer.length
  frame : ∀ i, (∀ m ∈ ms, m.isMapped = true → ¬m.placement.Covers i) → out[i]? = buffer[i]?
  windows : ∀ x ∈ ms.zipIdx position, x.1.isMapped = true → ∃ heap after : Option σ,
    x.1.kind.write x.1.placement order ((value? x.1.name x.2).getD .null) heap =
      (.ok (x.1.placement.window out), after)

/-- A window is determined by the bytes of its range. -/
theorem Placement.window_congr {p : Placement} {buffer other : Bytes}
    (h : ∀ i, p.Covers i → buffer[i]? = other[i]?) : p.window buffer = p.window other := by
  refine List.ext_getElem? fun i => ?_
  rw [getElem?_window, getElem?_window]
  split
  · exact h _ ⟨Nat.le_add_right .., Nat.add_lt_add_left ‹_› _⟩
  · rfl

/-- **Each mapped member is written to its window and nothing elsewhere**, as members lie apart. -/
theorem runWrites_of_writeMembers (order : ByteOrder) {value? : String → Nat → Option Value}
    (hproper : ProperValues value?) : ∀ {ms : List Member} {position : Nat} {buffer out : Bytes}
    {heap after : Option σ}, ms.Pairwise (fun m n => m.placement.Apart n.placement) →
    (∀ m ∈ ms, m.Spanning σ order ∧ m.placement.stop ≤ buffer.length) →
    writeMembers order ms value? position buffer heap = (.ok out, after) →
    RunWrites σ order ms value? position buffer out
  | [], _, buffer, out, heap, after, _, _, h => by
    cases h
    exact ⟨rfl, fun _ _ => rfl, fun _ hx => absurd hx List.not_mem_nil⟩
  | ⟨p, kind, binding⟩ :: rest, position, buffer, out, heap, after, hapart, hwithin, h => by
    obtain ⟨hfirst, hapart⟩ := List.pairwise_cons.1 hapart
    obtain ⟨⟨hspan, hstop⟩, hwithin⟩ := List.forall_mem_cons.1 hwithin
    cases hb : binding.isBound with
    | false =>
      rw [writeMembers_unbound hb] at h
      have ih := runWrites_of_writeMembers order hproper hapart hwithin h
      refine ⟨ih.length, fun i hi => ih.frame i (List.forall_mem_cons.1 hi).2, ?_⟩
      rw [List.zipIdx_cons]
      refine List.forall_mem_cons.2 ⟨fun hmapped => ?_, ih.windows⟩
      exact absurd (hmapped.symm.trans hb) (by decide)
    | true =>
      obtain ⟨window, later, hwrite, hrest⟩ := exists_of_writeMembers_bound hb h
      have hlen : window.length = p.footprint :=
        hspan _ (hproper.getD ..) heap window (congrArg Prod.fst hwrite)
      have hle : p.offset + window.length ≤ buffer.length := hlen ▸ hstop
      have hsplice := length_splice hle
      rw [← hsplice] at hwithin
      have ih := runWrites_of_writeMembers order hproper hapart hwithin hrest
      refine ⟨ih.length.trans hsplice, fun i hi => ?_, ?_⟩
      · obtain ⟨hp, hi⟩ := List.forall_mem_cons.1 hi
        have hp : ¬p.Covers i := hp hb
        rw [ih.frame i hi, getElem?_splice hle]
        unfold Placement.Covers Placement.stop at hp
        split
        · rfl
        · rw [if_neg (by omega)]
      · rw [List.zipIdx_cons]
        refine List.forall_mem_cons.2 ⟨fun _ => ⟨heap, later, ?_⟩, ih.windows⟩
        have hown : p.window out = window := by
          rw [← Placement.window_splice_self hlen hstop]
          refine Placement.window_congr fun i hi => ih.frame i fun n hn _ => ?_
          exact (hfirst n hn).not_covers hi
        dsimp only
        rw [hown]
        exact hwrite

theorem Schema.Built.runWrites {s : Schema} (hs : s.Built) (hsize : s.totalSize < 2 ^ 63)
    {value? : String → Nat → Option Value} (hproper : ProperValues value?) {heap after : Option σ}
    {out : Bytes} (h : s.write s.totalSize value? heap = (.ok out, after)) :
    RunWrites σ s.settings.byteOrder s.members value? 0 (Codec.zeros s.totalSize) out := by
  have hspan := hs.members_span (σ := σ) hsize s.settings.byteOrder
  obtain ⟨⟨b, hb⟩, -⟩ := hs
  rw [write_eq, if_pos rfl] at h
  exact runWrites_of_writeMembers _ hproper (Blueprint.laidOut_of_build hb).1.apart hspan h

/-! ## Bytes that a value can reach -/

/-- The byte belongs to a mapped member and, where that is coded by a nested record, to a mapped
member of the record, at every depth.  The records of an array lie one behind the other. -/
inductive Schema.Claims : Schema → Nat → Prop
  | intro {s : Schema} {m : Member} {i : Nat} (mem : m ∈ s.members) (mapped : m.isMapped = true)
      (covers : m.placement.Covers i) (nested : ∀ t, m.kind.element = .record t →
        Claims t ((i - m.placement.offset) % m.kind.slot m.placement)) : Claims s i

/-- Records of the schema that are written have zeros where no member claims the byte. -/
def Schema.LeavesZeros (σ : Type) [Heap σ] (s : Schema) : Prop :=
  ∀ (width : Nat) (value? : String → Nat → Option Value) (heap after : Option σ) (out : Bytes),
    width < 2 ^ 63 → ProperValues value? → s.write width value? heap = (.ok out, after) →
    ∀ i < width, ¬s.Claims i → out[i]? = some 0

omit [Heap σ] in
/-- Items written one behind the other, each as wide as the others. -/
theorem getElem?_inSequence {α : Type} {write : α → Option σ → Except Error Bytes × Option σ}
    {width : Nat} : ∀ {items : List α} {heap after : Option σ} {windows : Bytes},
    (∀ item ∈ items, ∀ heap, Codec.Spans width (write item heap).1) →
    inSequence write items heap = (.ok windows, after) → ∀ i < width * items.length,
    ∃ item ∈ items, ∃ (heap after : Option σ) (window : Bytes),
      write item heap = (.ok window, after) ∧ windows[i]? = window[i % width]?
  | [], _, _, _, _, _, i, hi => absurd hi (Nat.not_lt_zero i)
  | item :: rest, heap, after, windows, hspans, h, i, hi => by
    obtain ⟨hspan, hspans⟩ := List.forall_mem_cons.1 hspans
    unfold inSequence at h
    split at h
    · cases h
    rename_i window later hfirst
    split at h
    · cases h
    rename_i others last hrest
    cases h
    have hlen : window.length = width := hspan heap window (congrArg Prod.fst hfirst)
    by_cases hlt : i < width
    · refine ⟨item, List.mem_cons_self, heap, later, window, hfirst, ?_⟩
      rw [Nat.mod_eq_of_lt hlt, List.getElem?_append_left (hlen ▸ hlt)]
    · have hge : width ≤ i := Nat.not_lt.1 hlt
      have hi' : i - width < width * rest.length := by
        rw [List.length_cons, Nat.mul_succ] at hi
        omega
      obtain ⟨other, hother, before, next, slot, hwrite, hget⟩ :=
        getElem?_inSequence hspans hrest (i - width) hi'
      refine ⟨other, List.mem_cons_of_mem _ hother, before, next, slot, hwrite, ?_⟩
      rw [List.getElem?_append_right (hlen ▸ hge), hlen, hget, ← Nat.mod_eq_sub_mod hge]

theorem getElem?_zeros {width i : Nat} (h : i < width) : (Codec.zeros width)[i]? = some 0 := by
  rw [Codec.zeros, List.getElem?_replicate, if_pos h]

namespace Element

/-- A nested record leaves zeros in its window, null or not. -/
theorem record_leavesZeros (name : String) (order : ByteOrder) {width : Nat} (hw : width < 2 ^ 63)
    {t : Schema} (ht : t.LeavesZeros σ) {v : Value} (hv : v.WellFormed) {heap after : Option σ}
    {window : Bytes}
    (h : (Element.record t).writeOrNull name order width v heap = (.ok window, after)) {i : Nat}
    (hi : i < width) (hfree : ¬t.Claims i) : window[i]? = some 0 := by
  cases v with
  | null =>
    cases h
    exact getElem?_zeros hi
  | fields r =>
    have hproper : ProperValues fun name _ => Assoc.get? name r :=
      fun _ _ _ hget => wellFormed_of_get? hv.2 hget
    exact ht width _ heap after window hw hproper h i hi hfree
  | _ => cases h

end Element

/-- A member coded by records leaves zeros in its window where the records do. -/
theorem Kind.leavesZeros (order : ByteOrder) {p : Placement} {kind : Kind} (hc : p.Checked)
    (hw : p.footprint < 2 ^ 63) (hs : kind.Suits p) {t : Schema}
    (hrecord : kind.element = .record t) (hwrites : t.Writes σ) (ht : t.LeavesZeros σ) {v : Value}
    (hv : v.WellFormed) {heap after : Option σ} {window : Bytes}
    (h : kind.write p order v heap = (.ok window, after)) {i : Nat} (hi : i < p.footprint)
    (hfree : ¬t.Claims (i % kind.slot p)) : window[i]? = some 0 := by
  cases kind with
  | single element =>
    obtain rfl : element = .record t := hrecord
    rw [Kind.slot, Nat.mod_eq_of_lt hi] at hfree
    exact Element.record_leavesZeros p.name order hw ht hv h hi hfree
  | array element =>
    obtain rfl : element = .record t := hrecord
    obtain ⟨hvarying, hsuits⟩ := hs
    have hwidth : p.elementWidth < 2 ^ 63 := (hc.elementWidth_le hvarying hw).trans_lt hw
    have hfoot := Placement.footprint_eq hvarying hw
    cases v with
    | null =>
      cases h
      exact getElem?_zeros hi
    | array dims elements =>
      obtain ⟨-, hcount, hwf⟩ := hv
      simp only [Kind.write] at h
      split at h
      swap
      · cases h
      rename_i hdims
      subst hdims
      rw [Element.writeRun_eq] at h
      have hspans : ∀ w ∈ elements, ∀ heap : Option σ, Codec.Spans p.elementWidth
          ((Element.record t).writeOrNull p.name order p.elementWidth w heap).1 := by
        intro w hmem heap
        have hserves := (Element.record t).serves (σ := σ) p.name order hwidth hsuits
          (fun u hu => Option.some.inj (hsuits.symm.trans hu) ▸ hwrites) w
        exact (hserves.orNull w).spans (mem_of_wellFormedAll hwf hmem) heap
      have hlen : i < p.elementWidth * elements.length := by
        rw [hfoot] at hi
        rwa [← hcount]
      obtain ⟨w, hmem, before, next, slot, hwrite, hget⟩ := getElem?_inSequence hspans h i hlen
      have hpos : 0 < p.elementWidth := hc.elementWidth_pos hvarying
      rw [hget]
      exact Element.record_leavesZeros p.name order hwidth ht (mem_of_wellFormedAll hwf hmem) hwrite
        (Nat.mod_lt _ hpos) hfree
    | _ => cases h

namespace Schema

/-- One level: if nested records leave zeros where no member claims a byte, so do these. -/
theorem Built.leavesZeros_of_nested {s : Schema} (hs : s.Built)
    (hn : ∀ m ∈ s.members, ∀ t, m.placement.nested = some t → t.LeavesZeros σ) :
    s.LeavesZeros σ := by
  intro width value? heap after out hw hproper h i hi hfree
  by_cases hwidth : width = s.totalSize
  swap
  · rw [write_eq, if_neg hwidth] at h
    cases h
  subst hwidth
  have hrun := hs.runWrites hw hproper h
  obtain ⟨⟨b, hb⟩, hnested⟩ := hs
  have hl := (Blueprint.laidOut_of_build hb).1
  by_cases hcovered : ∀ m ∈ s.members, m.isMapped = true → ¬m.placement.Covers i
  · rw [hrun.frame i hcovered, getElem?_zeros hi]
  · push Not at hcovered
    obtain ⟨m, hm, hmapped, hcovers⟩ := hcovered
    obtain ⟨k, hk⟩ := List.mem_iff_getElem?.1 hm
    obtain ⟨before, next, hwrite⟩ :=
      hrun.windows (m, k) (List.mem_zipIdx_iff_getElem?.2 hk) hmapped
    -- Some record codes the member, and it does not claim the byte.
    obtain ⟨t, hrecord, hfree⟩ : ∃ t, m.kind.element = .record t ∧
        ¬t.Claims ((i - m.placement.offset) % m.kind.slot m.placement) := by
      by_contra hnone
      push Not at hnone
      exact hfree (.intro hm hmapped hcovers hnone)
    have hc := hl.checked m hm
    have hchosen := hl.chosen m hm
    have ht := Kind.nested_of_element hchosen hrecord
    obtain ⟨hle, hlt⟩ := hcovers
    have hin : i - m.placement.offset < m.placement.footprint := by
      unfold Placement.stop at hlt
      omega
    have hbyte := Kind.leavesZeros _ hc ((hl.footprint_le hm).trans_lt hw) (Kind.suits hc hchosen)
      hrecord (Built.writes (hnested m hm t ht)) (hn m hm t ht) (hproper.getD ..) hwrite hin hfree
    rw [Placement.getElem?_window, if_pos hin, Nat.add_sub_cancel' hle] at hbyte
    exact hbyte

/-- **A record that is written has zeros where no member claims a byte**, at any depth. -/
theorem Built.leavesZeros {s : Schema} (hs : s.Built) : s.LeavesZeros σ := by
  induction hs with
  | intro here nested ih => exact leavesZeros_of_nested (.intro here nested) ih

end Schema

/-! ## Whole records -/

/-- The member holds no data of variable length, at any depth. -/
def Member.FixedLength (m : Member) : Prop :=
  m.placement.isVarying = false ∧ ∀ t, m.kind.element = .record t → t.FixedLength

/-- What such a member writes does not depend on the heap, and leaves it alone. -/
theorem Schema.LaidOut.detached {rules : ViewRules} {s : Schema} (hl : s.LaidOut rules)
    {m : Member} (hm : m ∈ s.members) (hn : ∀ t, m.placement.nested = some t → t.Built)
    (hfixed : m.FixedLength) (order : ByteOrder) (v : Value) :
    Detached (σ := σ) (m.kind.write m.placement order v) := by
  have hchosen := hl.chosen m hm
  refine Kind.detached _ _ ((Kind.isVarying_element hchosen).trans hfixed.1) ?_ v
  intro t hrecord
  exact Built.detached (hn t (Kind.nested_of_element hchosen hrecord)) (hfixed.2 t hrecord)

/-- **Each value touches only its own bytes.**  Two records with the same values but for one member
of fixed length are written to the same bytes outside the range of that member, and leave the same
heap.  Whatever a record is written in place of, it is written in place as it is written afresh, and
each byte that no mapped member claims, at any depth, is zero.  The bound on the size is that of a
buffer, so that the exact sums and products of sizes are those of machine words. -/
theorem value_touches_own_bytes {s : Schema} (hs : s.Built) (hsize : s.totalSize < 2 ^ 63)
    {ρ ρ' : Type} [RecordAccess ρ] [RecordAccess ρ'] {r : ρ}
    (hr : ProperValues (RecordAccess.field? r)) (heap : Option σ) :
    (∀ r' : ρ', ProperValues (RecordAccess.field? r') →
      ∀ (k : Nat) (m : Member), s.members[k]? = some m → m.FixedLength →
      (∀ (i : Nat) (n : Member), s.members[i]? = some n → n.isMapped = true → i ≠ k →
        (RecordAccess.field? r n.name i).getD .null =
          (RecordAccess.field? r' n.name i).getD .null) →
      ∀ bytes bytes' after after', s.pack r heap = (.ok bytes, after) →
        s.pack r' heap = (.ok bytes', after') →
        EqualOutside m.placement bytes bytes' ∧ after = after') ∧
    (∀ previous, s.guardedPackInto r previous heap = .ok (s.pack r heap) ∧
      s.packInto r previous heap = s.pack r heap) ∧
    ∀ bytes after, s.pack r heap = (.ok bytes, after) →
      bytes.length = s.totalSize ∧ ∀ i < s.totalSize, ¬s.Claims i → bytes[i]? = some 0 := by
  refine ⟨?_, ?_, ?_⟩
  · intro r' hr' k m hm hfixed hsame bytes bytes' after after' h h'
    rw [Schema.pack_eq] at h h'
    refine writeMembers_equalOutside (k := k) s.settings.byteOrder hr hr' ?_ ?_
      (hs.members_span hsize _) (.refl _ _) h h'
    · rintro ⟨n, i⟩ hn hmapped hne
      exact hsame i n (List.mem_zipIdx_iff_getElem?.1 hn) hmapped hne
    · rintro ⟨n, i⟩ hn rfl
      obtain rfl := Option.some.inj ((List.mem_zipIdx_iff_getElem?.1 hn).symm.trans hm)
      obtain ⟨⟨b, hb⟩, hnested⟩ := hs
      have hmem := List.mem_of_getElem? hm
      exact ⟨rfl, (Blueprint.laidOut_of_build hb).1.detached hmem (hnested n hmem) hfixed _⟩
  · intro previous
    obtain ⟨result, after, hguarded, -, hplain⟩ := hs.writes.packInto hsize r previous heap
    rw [hguarded, ← hplain hr]
    exact ⟨rfl, rfl⟩
  · intro bytes after h
    have hlen := (hs.runWrites hsize hr h).length
    refine ⟨hlen.trans List.length_replicate, fun i hi hfree => ?_⟩
    exact hs.leavesZeros s.totalSize _ heap after bytes hsize hr h i hi hfree

/-! ## An array of records with gaps -/

/-- A record of four bytes, of which one has content. -/
def slotSchema : Schema :=
  ⟨"Slot", [⟨.integer "x" 1 1, .single (.scalar (.integer true)), .dynamic⟩],
    Shape.openMap.outline, 4, {}⟩

/-- Two slots, a number, and a number that no field receives. -/
def trayPlacements : List Placement :=
  [{ Placement.plain "slots" 0 .compound 4 with dims := [2], nested := some slotSchema },
    .integer "count" 8 2, .integer "spare" 10 2]

def trayBlueprint : Blueprint where
  shape := .map [⟨"slots", .array (.compound slotSchema) [2]⟩, ⟨"count", .integer 2 true⟩]
  name := some "Tray"
  placements := some trayPlacements
  totalSize := some 16

def traySchema : Schema :=
  ⟨"Tray", [⟨trayPlacements[0], .array (.record slotSchema), .field 0⟩,
      ⟨.integer "count" 8 2, .single (.scalar (.integer true)), .field 1⟩,
      ⟨.integer "spare" 10 2, .single (.scalar (.integer true)), .unbound⟩],
    trayBlueprint.shape.outline, 16, {}⟩

theorem build_traySchema : trayBlueprint.build = .ok traySchema := by cbv

theorem build_slotSchema :
    ({ openBlueprint "Slot" [.integer "x" 1 1] with totalSize := some 4 } : Blueprint).build =
      .ok slotSchema := by cbv

theorem built_slotSchema : slotSchema.Built := .intro ⟨_, build_slotSchema⟩ fun m hm t ht => by
  obtain rfl := List.mem_singleton.1 hm
  cases ht

theorem fixedLength_slotSchema : slotSchema.FixedLength := by
  refine .intro (fun m hm => ?_) fun m hm t ht => ?_ <;> obtain rfl := List.mem_singleton.1 hm
  · rfl
  · cases ht

theorem built_traySchema : traySchema.Built :=
  Schema.hereditarily_of_two rfl rfl ⟨_, build_traySchema⟩ ⟨_, build_slotSchema⟩

/-- The first byte of the second slot is a gap. -/
theorem not_claims_tray : ¬traySchema.Claims 4 := by
  rintro ⟨hm, -, hcovers, hnested⟩
  simp only [traySchema, List.mem_cons, List.not_mem_nil, or_false] at hm
  rcases hm with rfl | rfl | rfl
  · obtain ⟨hn, -, hcovers, -⟩ := hnested slotSchema rfl
    obtain rfl := List.mem_singleton.1 hn
    exact absurd hcovers.1 (by decide)
  · exact absurd hcovers.1 (by decide)
  · exact absurd hcovers.1 (by decide)

def trayRecord (first second : Value) : Fields :=
  [("count", .number (.int 5)), ("slots", .array [2] [first, second])]

theorem properValues_trayRecord {first second : Value} (h : first.WellFormed)
    (h' : second.WellFormed) : ProperValues (RecordAccess.field? (trayRecord first second)) := by
  have harray : (Value.array [2] [first, second]).WellFormed := ⟨by decide, rfl, h, h', trivial⟩
  have hfields : Value.WellFormedFields (trayRecord first second) := ⟨trivial, harray, trivial⟩
  exact fun name _ v hv => wellFormed_of_get? hfields hv

/-- A slot that is null, and one that is not, change places. -/
theorem value_touches_own_bytes_tray :
    traySchema.Built ∧ traySchema.totalSize < 2 ^ 63 ∧
    ∃ (bytes bytes' : Bytes) (after : Option TransientStore),
      traySchema.pack (trayRecord (.fields [("x", .number (.int 1))]) .null) none =
        (.ok bytes, after) ∧
      traySchema.pack (trayRecord .null (.fields [("x", .number (.int 2))])) none =
        (.ok bytes', after) ∧
      EqualOutside trayPlacements[0] bytes bytes' ∧ bytes[4]? = some 0 := by
  have hsize : traySchema.totalSize < 2 ^ 63 := by decide
  have hslot : ∀ i : Int64, (Value.fields [("x", .number (.int i))]).WellFormed :=
    fun i => ⟨List.pairwise_singleton .., trivial, trivial⟩
  have hnull : Value.null.WellFormed := trivial
  have hfixed : Member.FixedLength ⟨trayPlacements[0], .array (.record slotSchema), .field 0⟩ := by
    refine ⟨rfl, fun t ht => ?_⟩
    cases ht
    exact fixedLength_slotSchema
  obtain ⟨bytes, after, hpack⟩ : ∃ bytes after, traySchema.pack
      (trayRecord (.fields [("x", .number (.int 1))]) .null) (none : Option TransientStore) =
        (.ok bytes, after) := ⟨_, _, by cbv⟩
  obtain ⟨bytes', after', hpack'⟩ : ∃ bytes after, traySchema.pack
      (trayRecord .null (.fields [("x", .number (.int 2))])) (none : Option TransientStore) =
        (.ok bytes, after) := ⟨_, _, by cbv⟩
  obtain ⟨hdiffer, -, hzero⟩ := @value_touches_own_bytes TransientStore _ _ built_traySchema hsize
    Fields Fields _ _ _ (properValues_trayRecord (hslot 1) hnull) none
  have hsame : ∀ (i : Nat) (n : Member), traySchema.members[i]? = some n → n.isMapped = true →
      i ≠ 0 → (RecordAccess.field? (trayRecord (.fields [("x", .number (.int 1))]) .null)
        n.name i).getD .null = (RecordAccess.field? (trayRecord .null
          (.fields [("x", .number (.int 2))])) n.name i).getD .null := by
    rintro (_ | _ | _ | i) n hn hmapped hne
    · exact absurd rfl hne
    · cases hn
      rfl
    · cases hn
      cases hmapped
    · cases hn
  obtain ⟨houtside, rfl⟩ := hdiffer _ (properValues_trayRecord hnull (hslot 2)) 0 _ rfl hfixed hsame
    bytes bytes' after after' hpack hpack'
  exact ⟨built_traySchema, hsize, bytes, bytes', after, hpack, hpack', houtside,
    (hzero bytes after hpack).2 4 (by decide) not_claims_tray⟩

end PackedRecord
