import PackedRecord.Proofs.Compatibility
import PackedRecord.Proofs.RecordRoundTrip

/-!
# Records of a single value

A record that holds one value is written as zeros but for the window of that value's member, so
a raw record shows what the member wrote, and an array of one value shows what its codec wrote.

* `writeMembers_single`, `Schema.pack_single` — a record of one value.
* `Kind.write_sole` — an array whose other elements are null.
* `Schema.pack_sole`, `Member.placeFirst_inj` — what the codec of a member writes can be told
  from the raw record.
-/

namespace PackedRecord

variable {σ : Type}

/-! ## Results of writers -/

/-- The result with its bytes, if it has any, mapped. -/
def mapBytes (f : Bytes → Bytes) (result : Except Error Bytes × Option σ) :
    Except Error Bytes × Option σ := (result.1.map f, result.2)

theorem mapBytes_mapBytes (f g : Bytes → Bytes) (result : Except Error Bytes × Option σ) :
    mapBytes g (mapBytes f result) = mapBytes (g ∘ f) result := by
  obtain ⟨_ | bytes, heap⟩ := result <;> rfl

/-- The bytes, if the result has any, are so many. -/
def OfLength (n : Nat) (result : Except Error Bytes × Option σ) : Prop :=
  ∀ bytes, result.1 = .ok bytes → bytes.length = n

theorem OfLength.mapBytes {m n : Nat} {f : Bytes → Bytes} (hf : ∀ bytes, bytes.length = m →
    (f bytes).length = n) {result : Except Error Bytes × Option σ} (h : OfLength m result) :
    OfLength n (mapBytes f result) := by
  obtain ⟨_ | bytes, heap⟩ := result
  · exact fun _ h => nomatch h
  · rintro _ ⟨⟩
    exact hf bytes (h bytes rfl)

theorem mapBytes_inj {n : Nat} {f : Bytes → Bytes} (hf : ∀ bytes bytes' : Bytes,
    bytes.length = n → bytes'.length = n → f bytes = f bytes' → bytes = bytes')
    {r r' : Except Error Bytes × Option σ} (hr : OfLength n r) (hr' : OfLength n r')
    (h : mapBytes f r = mapBytes f r') : r = r' := by
  obtain ⟨hbytes, hheap⟩ := Prod.mk.inj h
  obtain ⟨_ | bytes, heap⟩ := r <;> obtain ⟨_ | bytes', heap'⟩ := r'
  · exact Prod.ext (Except.error.inj hbytes ▸ rfl) hheap
  · cases hbytes
  · cases hbytes
  · have hsame := hf bytes bytes' (hr bytes rfl) (hr' bytes' rfl) (Except.ok.inj hbytes)
    exact Prod.ext (hsame ▸ rfl) hheap

/-! ## Windows of zeros -/

theorem window_zeros {p : Placement} {n : Nat} (h : p.stop ≤ n) :
    p.window (Codec.zeros n) = Codec.zeros p.footprint := by
  unfold Placement.stop at h
  unfold Placement.window Codec.zeros
  rw [List.drop_replicate, List.take_replicate, Nat.min_eq_left (by omega)]

/-- A window that is put where it was taken from changes nothing. -/
theorem splice_window {p : Placement} {buffer : Bytes} (h : p.stop ≤ buffer.length) :
    splice buffer p.offset (p.window buffer) = buffer := by
  unfold Placement.stop at h
  have hlen : (p.window buffer).length = p.footprint := by
    unfold Placement.window
    rw [List.length_take, List.length_drop]
    omega
  refine List.ext_getElem? fun i => ?_
  rw [getElem?_splice (by omega), hlen]
  split
  · rfl
  · split
    · rw [Placement.getElem?_window, if_pos (by omega)]
      congr 1
      omega
    · rfl

/-! ## Members -/

variable [Heap σ]

theorem Kind.write_null (p : Placement) (order : ByteOrder) (kind : Kind) (heap : Option σ) :
    kind.write p order .null heap = (.ok (Codec.zeros p.footprint), heap) := by
  cases kind <;> rfl

/-- Members that write zeros leave zeros as they are. -/
theorem writeMembers_zeros (order : ByteOrder) {value? : String → Nat → Option Value} :
    ∀ {ms : List Member}, (∀ m ∈ ms, m.isMapped = true → ∀ (i : Nat) (heap : Option σ),
      m.kind.write m.placement order ((value? m.name i).getD .null) heap =
        (.ok (Codec.zeros m.placement.footprint), heap)) →
    ∀ {buffer : Bytes}, (∀ m ∈ ms, m.placement.stop ≤ buffer.length ∧
      m.placement.window buffer = Codec.zeros m.placement.footprint) →
    ∀ (position : Nat) (heap : Option σ),
      writeMembers order ms value? position buffer heap = (.ok buffer, heap)
  | [], _, _, _, _, _ => rfl
  | m :: rest, hwrite, buffer, hzeros, position, heap => by
    have ih := writeMembers_zeros order (fun k hk => hwrite k (List.mem_cons_of_mem _ hk))
      (fun k hk => hzeros k (List.mem_cons_of_mem _ hk)) (position + 1) heap
    obtain ⟨hstop, hwindow⟩ := hzeros m List.mem_cons_self
    have hmember := hwrite m List.mem_cons_self
    obtain ⟨p, kind, binding⟩ := m
    unfold writeMembers
    split
    · rename_i hbound
      have hsplice : splice buffer p.offset (Codec.zeros p.footprint) = buffer := by
        rw [← hwindow]
        exact splice_window hstop
      have hnone : kind.write p order ((value? p.name position).getD .null) heap =
          (.ok (Codec.zeros p.footprint), heap) := hmember hbound position heap
      rw [hnone]
      dsimp only
      rw [hsplice]
      exact ih
    · exact ih

/-- Members whose values are null or absent leave zeros as they are. -/
theorem writeMembers_nulls (order : ByteOrder) {value? : String → Nat → Option Value}
    {ms : List Member} (hnull : ∀ m ∈ ms, ∀ i, (value? m.name i).getD .null = .null)
    {buffer : Bytes}
    (hzeros : ∀ m ∈ ms, m.placement.stop ≤ buffer.length ∧
      m.placement.window buffer = Codec.zeros m.placement.footprint) (position : Nat)
    (heap : Option σ) : writeMembers order ms value? position buffer heap = (.ok buffer, heap) := by
  refine writeMembers_zeros order (fun m hm _ i heap => ?_) hzeros position heap
  rw [hnull m hm i, Kind.write_null]

/-- **A record of one value is zeros but for the window of its member.** -/
theorem writeMembers_single (order : ByteOrder) {value? : String → Nat → Option Value}
    {m : Member} {v : Value} (hvalue : ∀ i, value? m.name i = some v)
    (hmapped : m.isMapped = true) {n : Nat} : ∀ {ms : List Member}, m ∈ ms →
    (∀ k ∈ ms, k.name ≠ m.name → ∀ i, value? k.name i = none) →
    (ms.map Member.name).Nodup →
    (ms.Pairwise fun k l => k.placement.Apart l.placement) →
    (∀ k ∈ ms, k.placement.stop ≤ n) → ∀ {heap : Option σ},
    OfLength m.placement.footprint (m.kind.write m.placement order v heap) →
    ∀ position : Nat,
      writeMembers order ms value? position (Codec.zeros n) heap =
        mapBytes (splice (Codec.zeros n) m.placement.offset)
          (m.kind.write m.placement order v heap)
  | k :: rest, hm, hnull, hnames, hapart, hwithin, heap, hlen, position => by
    obtain ⟨hnotin, hnames'⟩ := List.nodup_cons.1 hnames
    obtain ⟨hfirst, hapart'⟩ := List.pairwise_cons.1 hapart
    have hzeros : ∀ l ∈ k :: rest, l.placement.window (Codec.zeros n) =
        Codec.zeros l.placement.footprint := fun l hl => window_zeros (hwithin l hl)
    have hother : ∀ l ∈ rest, l.name ≠ k.name := fun l hl h =>
      hnotin (h ▸ List.mem_map_of_mem hl)
    rcases List.mem_cons.1 hm with rfl | hm
    · have hstop := hwithin m List.mem_cons_self
      obtain ⟨p, kind, binding⟩ := m
      have hbound : binding.isBound = true := hmapped
      have hp : value? p.name position = some v := hvalue position
      dsimp only at hlen hstop ⊢
      unfold writeMembers
      rw [if_pos hbound, hp, Option.getD_some]
      generalize kind.write p order v heap = result at hlen
      obtain ⟨_ | window, after⟩ := result
      · rfl
      · have hwindow := hlen window rfl
        have hfit : p.offset + window.length ≤ (Codec.zeros n).length := by
          rw [hwindow, Codec.zeros, List.length_replicate]
          exact hstop
        have habsent : ∀ l ∈ rest, ∀ i, (value? l.name i).getD .null = .null := by
          intro l hl i
          rw [hnull l (List.mem_cons_of_mem _ hl) (hother l hl) i, Option.getD_none]
        refine writeMembers_nulls order habsent ?_ _ _
        intro l hl
        have hlstop := hwithin l (List.mem_cons_of_mem _ hl)
        refine ⟨?_, ?_⟩
        · rw [length_splice hfit, Codec.zeros, List.length_replicate]
          exact hlstop
        · rw [Placement.window_splice_of_apart (hfirst l hl).symm hwindow
            (by rw [Codec.zeros, List.length_replicate]; exact hstop)]
          exact hzeros l (List.mem_cons_of_mem _ hl)
    · have ih := writeMembers_single order hvalue hmapped hm
        (fun l hl => hnull l (List.mem_cons_of_mem _ hl)) hnames' hapart'
        (fun l hl => hwithin l (List.mem_cons_of_mem _ hl)) hlen (position + 1)
      have hnone := hnull k List.mem_cons_self (hother m hm).symm position
      have hwindow := hzeros k List.mem_cons_self
      have hstop := hwithin k List.mem_cons_self
      obtain ⟨p, kind, binding⟩ := k
      unfold writeMembers
      split
      · have hsplice : splice (Codec.zeros n) p.offset (Codec.zeros p.footprint) =
            Codec.zeros n := by
          have hself : splice (Codec.zeros n) p.offset (p.window (Codec.zeros n)) =
              Codec.zeros n :=
            splice_window (by rw [Codec.zeros, List.length_replicate]; exact hstop)
          rwa [hwindow] at hself
        change value? p.name position = none at hnone
        rw [hnone, Option.getD_none, Kind.write_null]
        dsimp only
        rw [hsplice]
        exact ih
      · exact ih

/-- A record that holds one value under the name of a member. -/
def Member.single (m : Member) (v : Value) : Fields := [(m.name, v)]

theorem Member.get?_single (m : Member) (v : Value) (name : String) :
    Assoc.get? name (m.single v) = if name = m.name then some v else none := rfl

/-- What a schema makes of a record of one value. -/
theorem Schema.pack_single {rules : ViewRules} {s : Schema} (hs : s.LaidOut rules) {m : Member}
    (hm : m ∈ s.members) (hmapped : m.isMapped = true) {v : Value} {heap : Option σ}
    (hlen : OfLength m.placement.footprint
      (m.kind.write m.placement s.settings.byteOrder v heap)) :
    s.pack (m.single v) heap = mapBytes (splice (Codec.zeros s.totalSize) m.placement.offset)
      (m.kind.write m.placement s.settings.byteOrder v heap) := by
  have hvalue : ∀ i : Nat, RecordAccess.field? (m.single v) m.name i = some v :=
    fun _ => (m.get?_single v m.name).trans (if_pos rfl)
  have hnull : ∀ k ∈ s.members, k.name ≠ m.name →
      ∀ i : Nat, RecordAccess.field? (m.single v) k.name i = none :=
    fun k _ hk _ => (m.get?_single v k.name).trans (if_neg hk)
  rw [pack_eq]
  exact writeMembers_single _ hvalue hmapped hm hnull hs.names hs.apart hs.within hlen 0

/-! ## Elements -/

/-- The value of a member whose first element is given and whose other elements are null. -/
def Kind.sole (p : Placement) (v : Value) : Kind → Value
  | single _ => v
  | array _ => .array p.dims (v :: List.replicate (p.elements - 1) .null)

omit [Heap σ] in
/-- Elements that are written as zeros make a run of zeros. -/
theorem writeRun_zeros {write : Value → Option σ → Except Error Bytes × Option σ} {width : Nat}
    {v : Value} (hwrite : v.isNull = false → ∀ heap, write v heap = (.ok (Codec.zeros width), heap))
    (heap : Option σ) : ∀ n : Nat,
    writeRun write width (List.replicate n v) heap = (.ok (Codec.zeros (width * n)), heap)
  | 0 => rfl
  | n + 1 => by
    have hfirst : (if v.isNull then (.ok (Codec.zeros width), heap) else write v heap) =
        ((.ok (Codec.zeros width), heap) : Except Error Bytes × Option σ) := by
      cases hnull : v.isNull with
      | true => rfl
      | false => exact hwrite hnull heap
    rw [List.replicate_succ, writeRun, hfirst]
    dsimp only
    rw [writeRun_zeros hwrite heap n]
    dsimp only
    rw [Codec.zeros, Codec.zeros, List.replicate_append_replicate, Nat.add_comm, ← Nat.mul_succ]
    rfl

omit [Heap σ] in
theorem writeRun_nulls {write : Value → Option σ → Except Error Bytes × Option σ} {width : Nat}
    (heap : Option σ) (n : Nat) :
    writeRun write width (List.replicate n .null) heap = (.ok (Codec.zeros (width * n)), heap) :=
  writeRun_zeros (fun h => by cases h) heap n

/-- The windows of an array are those of its elements together. -/
theorem Kind.slot_le {rules : ViewRules} {settings : Settings} {p : Placement} {kind : Kind}
    (hc : p.Checked) (h : ofPlacement rules settings p = .ok kind) (hf : p.footprint < 2 ^ 63) :
    kind.slot p ≤ p.footprint ∧ (∀ element, kind = .array element →
      p.footprint - p.elementWidth = p.elementWidth * (p.elements - 1)) := by
  obtain ⟨view, element, -, hkind, -⟩ := exists_ofView h
  rcases hkind with ⟨ha, rfl⟩ | ⟨-, -, rfl⟩ | ⟨-, rfl⟩
  · have hfoot := Placement.footprint_eq (hc.fixed ha) hf
    have hpos := Nat.pos_of_ne_zero (hc.elements_ne ha)
    rw [hfoot]
    refine ⟨Nat.le_mul_of_pos_right _ hpos, fun _ _ => ?_⟩
    rw [Nat.mul_sub, Nat.mul_one]
  · exact ⟨Nat.le_refl _, fun _ h => nomatch h⟩
  · exact ⟨Nat.le_refl _, fun _ h => nomatch h⟩

/-- Behind the first element an array of one value is zeros. -/
theorem Kind.write_sole {rules : ViewRules} {settings : Settings} {p : Placement} {kind : Kind}
    (hc : p.Checked) (h : ofPlacement rules settings p = .ok kind) (hf : p.footprint < 2 ^ 63)
    (order : ByteOrder) {v : Value} (hv : v.isNull = false) (heap : Option σ) :
    kind.write p order (kind.sole p v) heap =
      mapBytes (· ++ Codec.zeros (p.footprint - kind.slot p))
        (kind.element.write p.name order (kind.slot p) v heap) := by
  have hrest := (slot_le hc h hf).2
  cases kind with
  | single element =>
    simp only [sole, write, slot, Kind.element, hv, Bool.false_eq_true, if_false, Nat.sub_self]
    obtain ⟨_ | bytes, after⟩ := element.write p.name order p.footprint v heap
    · rfl
    · simp [mapBytes, Except.map, Codec.zeros]
  | array element =>
    simp only [sole, write, slot, Kind.element, if_true, hrest element rfl]
    unfold writeRun
    simp only [hv, Bool.false_eq_true, if_false]
    obtain ⟨_ | bytes, after⟩ := element.write p.name order p.elementWidth v heap
    · rfl
    · simp only [writeRun_nulls]
      rfl

/-! ## Codecs seen in raw records -/

namespace Member

/-- Codec of the first element, applied to the window of that element. -/
def writeFirst (m : Member) (order : ByteOrder) (v : Value) (heap : Option σ) :
    Except Error Bytes × Option σ :=
  m.kind.element.write m.name order (m.kind.slot m.placement) v heap

/-- Raw record of zeros with the first element of a member. -/
def placeFirst (m : Member) (totalSize : Nat) (bytes : Bytes) : Bytes :=
  splice (Codec.zeros totalSize) m.placement.offset
    (bytes ++ Codec.zeros (m.placement.footprint - m.kind.slot m.placement))

variable {m : Member} {totalSize : Nat}

theorem length_placeFirst (hstop : m.placement.stop ≤ totalSize)
    (hslot : m.kind.slot m.placement ≤ m.placement.footprint) {bytes : Bytes}
    (h : bytes.length = m.kind.slot m.placement) :
    (m.placeFirst totalSize bytes).length = totalSize := by
  unfold Placement.stop at hstop
  unfold placeFirst
  rw [length_splice (by simp only [Codec.zeros, List.length_append, List.length_replicate]; omega)]
  simp [Codec.zeros]

/-- The first element shows in the raw record. -/
theorem placeFirst_inj (hstop : m.placement.stop ≤ totalSize)
    (hslot : m.kind.slot m.placement ≤ m.placement.footprint) {bytes bytes' : Bytes}
    (h : bytes.length = m.kind.slot m.placement) (h' : bytes'.length = m.kind.slot m.placement)
    (hsame : m.placeFirst totalSize bytes = m.placeFirst totalSize bytes') : bytes = bytes' := by
  have hwindow : ∀ bytes : Bytes, bytes.length = m.kind.slot m.placement →
      m.placement.window (m.placeFirst totalSize bytes) =
        bytes ++ Codec.zeros (m.placement.footprint - m.kind.slot m.placement) := by
    intro bytes h
    refine Placement.window_splice_self ?_ ?_
    · simp only [Codec.zeros, List.length_append, List.length_replicate]
      omega
    · rw [Codec.zeros, List.length_replicate]
      exact hstop
  have hboth := congrArg m.placement.window hsame
  rw [hwindow bytes h, hwindow bytes' h'] at hboth
  exact List.append_cancel_right hboth

end Member

namespace Schema

/-- **A record whose one value is a first element shows what the codec wrote.** -/
theorem pack_sole {rules : ViewRules} {s : Schema} (hs : s.LaidOut rules)
    (hbound : s.totalSize < 2 ^ 63) {m : Member} (hm : m ∈ s.members) (hmapped : m.isMapped = true)
    {v : Value} (hv : v.isNull = false) {heap : Option σ}
    (hlen : OfLength (m.kind.slot m.placement) (m.writeFirst s.settings.byteOrder v heap)) :
    s.pack (m.single (m.kind.sole m.placement v)) heap =
        mapBytes (m.placeFirst s.totalSize) (m.writeFirst s.settings.byteOrder v heap) ∧
      OfLength s.totalSize (s.pack (m.single (m.kind.sole m.placement v)) heap) := by
  have hfoot : m.placement.footprint < 2 ^ 63 := (hs.footprint_le hm).trans_lt hbound
  have hchosen := hs.chosen m hm
  have hslot := (Kind.slot_le (hs.checked m hm) hchosen hfoot).1
  have hwrite := Kind.write_sole (hs.checked m hm) hchosen hfoot s.settings.byteOrder hv heap
  have hwhole : OfLength m.placement.footprint (m.kind.write m.placement s.settings.byteOrder
      (m.kind.sole m.placement v) heap) := by
    rw [hwrite]
    refine OfLength.mapBytes (fun bytes h => ?_) hlen
    simp only [Codec.zeros, List.length_append, List.length_replicate]
    omega
  have hpack : s.pack (m.single (m.kind.sole m.placement v)) heap =
      mapBytes (m.placeFirst s.totalSize) (m.writeFirst s.settings.byteOrder v heap) := by
    rw [pack_single hs hm hmapped hwhole, hwrite, mapBytes_mapBytes]
    rfl
  refine ⟨hpack, ?_⟩
  rw [hpack]
  exact hlen.mapBytes fun bytes => Member.length_placeFirst (hs.within m hm) hslot

end Schema

end PackedRecord
