import Mathlib.Data.String.Basic
import Mathlib.Tactic
import PackedRecord.Proofs.ScalarRoundTrip

/-!
# Round trips of records

* `window_splice_self`, `window_splice_of_apart` — what a member writes is seen in its own
  window and in no other.
* `writeMembers_restores` — one run over the members leaves every mapped one readable from
  every later heap; the invariant carried is a frame around the windows already written.
* `Schema.Built.restored`, `Schema.BuiltPlainly.written` — the induction over nested schemas.
* `canonical_record_roundTrips` — the round trip of canonical records.
-/

namespace PackedRecord

/-! ## Windows of a buffer -/

theorem length_splice {buffer window : Bytes} {offset : Nat}
    (h : offset + window.length ≤ buffer.length) :
    (splice buffer offset window).length = buffer.length := by
  simp only [splice, List.length_append, List.length_take, List.length_drop]
  omega

theorem getElem?_splice {buffer window : Bytes} {offset : Nat}
    (h : offset + window.length ≤ buffer.length) (i : Nat) :
    (splice buffer offset window)[i]? =
      if i < offset then buffer[i]?
      else if i < offset + window.length then window[i - offset]? else buffer[i]? := by
  have htake : (buffer.take offset).length = offset := by
    rw [List.length_take]
    omega
  unfold splice
  split
  · rename_i hi
    rw [List.append_assoc, List.getElem?_append_left (by omega), List.getElem?_take_of_lt hi]
  · split
    · rename_i hlo hhi
      rw [List.append_assoc, List.getElem?_append_right (by omega), htake,
        List.getElem?_append_left (by omega)]
    · rename_i hlo hhi
      rw [List.getElem?_append_right (by simp only [List.length_append]; omega),
        List.getElem?_drop, List.length_append, htake]
      congr 1
      omega

namespace Placement

theorem getElem?_window (p : Placement) (buffer : Bytes) (i : Nat) :
    (p.window buffer)[i]? = if i < p.footprint then buffer[p.offset + i]? else none := by
  unfold window
  rw [List.getElem?_take]
  split
  · rw [List.getElem?_drop]
  · rfl

theorem window_splice_self {p : Placement} {buffer window : Bytes}
    (hlen : window.length = p.footprint) (h : p.stop ≤ buffer.length) :
    p.window (splice buffer p.offset window) = window := by
  unfold stop at h
  refine List.ext_getElem? fun i => ?_
  rw [getElem?_window, getElem?_splice (by omega)]
  split
  · rw [if_neg (by omega), if_pos (by omega), Nat.add_sub_cancel_left]
  · rw [List.getElem?_eq_none (by omega)]

theorem window_splice_of_apart {p q : Placement} (hpq : p.Apart q) {buffer window : Bytes}
    (hlen : window.length = q.footprint) (h : q.stop ≤ buffer.length) :
    p.window (splice buffer q.offset window) = p.window buffer := by
  unfold stop at h
  unfold Apart stop at hpq
  refine List.ext_getElem? fun i => ?_
  rw [getElem?_window, getElem?_window, getElem?_splice (by omega)]
  split
  · split
    · rfl
    · rw [if_neg (by omega)]
  · rfl

end Placement

/-! ## Elements and arrays -/

theorem Value.eq_null_of_isNull {v : Value} (h : v.isNull = true) : v = .null := by
  cases v with
  | null => rfl
  | _ => cases h

section Heap

variable {σ : Type} [Heap σ] [LawfulHeap σ]

open LawfulHeap

/-- A null element is a window of zeros, any other is written. -/
def Element.writeOrNull (name : String) (order : ByteOrder) (width : Nat) (element : Element)
    (v : Value) (heap : Option σ) : Except Error Bytes × Option σ :=
  if v.isNull then (.ok (Codec.zeros width), heap) else element.write name order width v heap

omit [LawfulHeap σ] in
theorem Element.writeOrNull_eq (name : String) (order : ByteOrder) (width : Nat)
    (element : Element) {v : Value} (h : v.isNull = false) :
    element.writeOrNull (σ := σ) name order width v = element.write name order width v := by
  funext heap
  rw [writeOrNull, h, if_neg Bool.false_ne_true]

/-- Canonical records of the schema are restored at any width. -/
def Schema.Restored (σ : Type) [Heap σ] [LawfulHeap σ] (s : Schema) : Prop :=
  ∀ (width : Nat) (r : Fields), width < 2 ^ 63 → s.Canonical r →
    Restores (σ := σ) width (s.write width fun name _ => Assoc.get? name r) (s.unpack Fields) r

/-- Canonical records of the schema can be written. -/
def Schema.Written (σ : Type) [Heap σ] (s : Schema) : Prop :=
  ∀ r : Fields, s.Canonical r →
    Succeeds (σ := σ) (s.write s.totalSize fun name _ => Assoc.get? name r)

omit [LawfulHeap σ] in
theorem Element.read_record (name : String) (order : ByteOrder) (schema : Schema) (window : Bytes)
    (heap : Option σ) :
    (Element.record schema).read name order window heap =
      (schema.unpack Fields window heap).map .fields := by
  simp only [Element.read, Schema.unpack]
  cases schema.readings window heap <;> rfl

omit [LawfulHeap σ] in
/-- Null is canonical for members of variable length, and an empty slot reads as null. -/
theorem Scalar.read_null (name : String) (order : ByteOrder) {width : Nat} {codec : Scalar}
    (hc : codec.Canonical width .null) (heap : Option σ) :
    codec.read name order (Codec.zeros width) heap = .ok .null := by
  cases codec with
  | varyingText charset =>
    simp only [read, Codec.readVaryingText, Codec.loadContent_zeros]
    rfl
  | varyingBytes =>
    simp only [read, Codec.readVaryingBytes, Codec.loadContent_zeros]
    rfl
  | integer signed => cases signed <;> simp [Canonical] at hc
  | _ => simp [Canonical] at hc

theorem Element.restores (name : String) (order : ByteOrder) {nested : Option Schema}
    {width : Nat} {element : Element} {v : Value} (hw : width < 2 ^ 63)
    (hs : element.Suits nested width) (hn : ∀ t, nested = some t → t.Restored σ)
    (hc : element.Canonical width v) :
    Restores (σ := σ) width (element.writeOrNull name order width v) (element.read name order)
      v := by
  cases hnull : v.isNull with
  | true =>
    obtain rfl := Value.eq_null_of_isNull hnull
    intro heap window after hsound hwrite
    cases hwrite
    refine ⟨heap, rfl, hsound, extends_refl heap, by simp [Codec.zeros], ?_⟩
    intro later _ _
    cases element with
    | scalar codec => exact codec.read_null name order hc (some later)
    | record schema => simp [Canonical] at hc
  | false =>
    rw [writeOrNull_eq _ _ _ _ hnull]
    cases element with
    | scalar codec => exact (codec.roundTrips name order hs hc hnull).restores
    | record schema =>
      obtain ⟨entries, rfl, hentries⟩ := hc
      have h := (hn schema hs width entries hw hentries).map Value.fields
      have hread : (Element.record schema).read (σ := σ) name order =
          fun window heap => (schema.unpack Fields window heap).map .fields := by
        funext window heap
        exact read_record name order schema window heap
      rw [hread]
      exact h

theorem Element.succeeds (name : String) (order : ByteOrder) {nested : Option Schema}
    {width : Nat} {element : Element} {v : Value} (hs : element.Suits nested width)
    (hn : ∀ t, element = .record t → t.Written σ)
    (hf : ∀ t, element = .record t → t.totalSize = width) (hc : element.Canonical width v) :
    Succeeds (σ := σ) (element.writeOrNull name order width v) := by
  intro heap
  unfold writeOrNull
  split
  · exact ⟨_, heap, rfl⟩
  · rename_i hnull
    cases element with
    | scalar codec =>
      exact (codec.roundTrips (σ := σ) name order hs hc (by simpa using hnull)).succeeds heap
    | record schema =>
      obtain ⟨entries, rfl, hentries⟩ := hc
      have h := hn schema rfl entries hentries heap
      rw [hf schema rfl] at h
      exact h

/-- A run of elements is restored if each of them is. -/
theorem writeRun_restores {write : Value → Option σ → Except Error Bytes × Option σ}
    {read : Bytes → Option σ → Except Error Value} {width : Nat} : ∀ {vs : List Value},
    (∀ v ∈ vs, Restores width
      (fun heap => if v.isNull then (.ok (Codec.zeros width), heap) else write v heap) read v) →
    Restores (width * vs.length) (writeRun write width vs)
      (fun windows heap => readRun (fun run => read run heap) (Codec.runs width vs.length windows))
      vs
  | [], _ => by
    intro heap window after hsound hwrite
    cases hwrite
    exact ⟨heap, rfl, hsound, extends_refl heap, by simp, fun _ _ _ => rfl⟩
  | v :: rest, h => by
    intro heap window after hsound hwrite
    unfold writeRun at hwrite
    split at hwrite
    · cases hwrite
    rename_i first heap₁ hfirst
    obtain ⟨heap₁, rfl, hsound₁, hext₁, hlen₁, hread₁⟩ :=
      h v List.mem_cons_self heap first heap₁ hsound hfirst
    split at hwrite
    · cases hwrite
    rename_i windows heap₂ hrest
    cases hwrite
    obtain ⟨heap', rfl, hsound', hext', hlen', hread'⟩ :=
      writeRun_restores (fun w hw => h w (List.mem_cons_of_mem _ hw)) heap₁ windows after hsound₁
        hrest
    refine ⟨heap', rfl, hsound', extends_trans hext₁ hext', ?_, ?_⟩
    · rw [List.length_append, hlen₁, hlen', List.length_cons, Nat.mul_succ, Nat.add_comm]
    · intro later hlater haddr
      have hhead := hread₁ later (extends_trans hext' hlater) haddr
      have htail := hread' later hlater haddr
      dsimp only at htail
      simp only [List.length_cons, Codec.runs, List.take_left' hlen₁, List.drop_left' hlen₁,
        readRun, hhead]
      rw [htail]
      rfl

omit [Heap σ] [LawfulHeap σ] in
theorem writeRun_succeeds {write : Value → Option σ → Except Error Bytes × Option σ}
    {width : Nat} : ∀ {vs : List Value}, (∀ v ∈ vs, Succeeds (σ := σ)
      (fun heap => if v.isNull then (.ok (Codec.zeros width), heap) else write v heap)) →
    Succeeds (writeRun write width vs)
  | [], _ => fun heap => ⟨[], heap, rfl⟩
  | v :: rest, h => by
    intro heap
    obtain ⟨window, heap₁, hfirst⟩ := h v List.mem_cons_self heap
    obtain ⟨windows, heap', hrest⟩ :=
      writeRun_succeeds (fun w hw => h w (List.mem_cons_of_mem _ hw)) heap₁
    refine ⟨window ++ windows, heap', ?_⟩
    dsimp only at hfirst
    simp only [writeRun, hfirst, hrest]

theorem Kind.restores (order : ByteOrder) {p : Placement} {kind : Kind} {v : Value}
    (hw : p.footprint < 2 ^ 63) (hs : kind.Suits p)
    (hn : ∀ t, p.nested = some t → t.Restored σ) (hc : kind.Canonical p v) :
    Restores (σ := σ) p.footprint (kind.write p order v) (kind.read p order) v := by
  cases kind with
  | single element => exact element.restores p.name order hw hs hn hc
  | array element =>
    obtain ⟨hv, hsuits⟩ := hs
    obtain ⟨elements, rfl, hlen, helements⟩ := hc
    have hfoot := Placement.footprint_eq hv hw
    have hrun : Restores (σ := σ) (p.elementWidth * elements.length)
        (writeRun (element.write p.name order p.elementWidth) p.elementWidth elements)
        (fun windows heap => readRun (fun run => element.read p.name order run heap)
          (Codec.runs p.elementWidth elements.length windows)) elements := by
      refine writeRun_restores fun w hmem => ?_
      have hpos : 0 < p.elements := by
        rw [← hlen]
        exact List.length_pos_of_mem hmem
      have hle : p.elementWidth ≤ p.footprint := by
        rw [hfoot]
        exact Nat.le_mul_of_pos_right _ hpos
      exact element.restores p.name order (by omega) hsuits hn (helements w hmem)
    have hwrite : (Kind.array element).write (σ := σ) p order (.array p.dims elements) =
        writeRun (element.write p.name order p.elementWidth) p.elementWidth elements := by
      funext heap
      simp only [Kind.write, if_true]
    have hread : (Kind.array element).read (σ := σ) p order = fun window heap =>
        (readRun (fun run => element.read p.name order run heap)
          (Codec.runs p.elementWidth elements.length window)).map (.array p.dims) := by
      funext window heap
      rw [hlen]
      rfl
    rw [hfoot, ← hlen, hwrite, hread]
    exact hrun.map (Value.array p.dims)

theorem Kind.succeeds (order : ByteOrder) {p : Placement} {kind : Kind} {v : Value}
    (hs : kind.Suits p) (hf : kind.Fills p)
    (hn : ∀ t, kind = .single (.record t) ∨ kind = .array (.record t) → t.Written σ)
    (hc : kind.Canonical p v) : Succeeds (σ := σ) (kind.write p order v) := by
  cases kind with
  | single element =>
    refine element.succeeds p.name order hs (fun t ht => hn t (.inl (congrArg _ ht))) ?_ hc
    rintro t rfl
    exact hf
  | array element =>
    obtain ⟨-, hsuits⟩ := hs
    obtain ⟨elements, rfl, -, helements⟩ := hc
    have hwrite : (Kind.array element).write (σ := σ) p order (.array p.dims elements) =
        writeRun (element.write p.name order p.elementWidth) p.elementWidth elements := by
      funext heap
      simp only [Kind.write, if_true]
    rw [hwrite]
    refine writeRun_succeeds fun w hmem => ?_
    refine element.succeeds p.name order hsuits (fun t ht => hn t (.inr (congrArg _ ht))) ?_
      (helements w hmem)
    rintro t rfl
    exact hf

/-! ## Members -/

/-- Value of a member in a record, null if it has none. -/
def Member.valueIn (m : Member) (r : Fields) : Value := (Assoc.get? m.name r).getD .null

/-- What a run over some members leaves behind: every window apart from theirs is as it was,
and each mapped member is read from every later heap. -/
structure RunRestores (order : ByteOrder) (ms : List Member) (r : Fields) (buffer : Bytes)
    (heap : σ) (out : Bytes) (heap' : σ) : Prop where
  sound : Sound heap'
  grows : Extends heap heap'
  length : out.length = buffer.length
  frame : ∀ p : Placement, (∀ m ∈ ms, p.Apart m.placement) → p.window out = p.window buffer
  readable : ∀ later, Extends heap' later → Addressable later → ∀ m ∈ ms, m.isMapped = true →
    m.kind.read m.placement order (m.placement.window out) (some later) = .ok (m.valueIn r)

theorem writeMembers_restores (order : ByteOrder) {r : Fields} : ∀ {ms : List Member}
    {position : Nat} {buffer out : Bytes} {heap : σ} {after : Option σ},
    (∀ m ∈ ms, m.isMapped = true → Restores (σ := σ) m.placement.footprint
      (m.kind.write m.placement order (m.valueIn r)) (m.kind.read m.placement order)
      (m.valueIn r)) →
    ms.Pairwise (fun m n => m.placement.Apart n.placement) →
    (∀ m ∈ ms, m.placement.stop ≤ buffer.length) → Sound heap →
    writeMembers order ms (fun name _ => Assoc.get? name r) position buffer (some heap) =
      (.ok out, after) →
    ∃ heap', after = some heap' ∧ RunRestores order ms r buffer heap out heap'
  | [], _, buffer, out, heap, after, _, _, _, hsound, h => by
    cases h
    exact ⟨heap, rfl, hsound, extends_refl heap, rfl, fun _ _ => rfl, by simp⟩
  | ⟨p, kind, binding⟩ :: rest, position, buffer, out, heap, after, hkinds, hapart, hwithin,
      hsound, h => by
    obtain ⟨hfirst, hapart⟩ := List.pairwise_cons.1 hapart
    have hrest : ∀ m ∈ rest, m.isMapped = true → _ :=
      fun m hm => hkinds m (List.mem_cons_of_mem _ hm)
    unfold writeMembers at h
    split at h
    · rename_i hbound
      split at h
      · cases h
      rename_i window heap₁ hwrite
      obtain ⟨heap₁, rfl, hsound₁, hext₁, hlen₁, hread₁⟩ :=
        hkinds _ List.mem_cons_self hbound heap window heap₁ hsound hwrite
      have hstop : p.stop ≤ buffer.length := hwithin _ List.mem_cons_self
      have hlen₁' : window.length = p.footprint := hlen₁
      have hsplice : (splice buffer p.offset window).length = buffer.length :=
        length_splice (by unfold Placement.stop at hstop; omega)
      obtain ⟨heap', hafter, hrun⟩ := writeMembers_restores order hrest hapart
        (fun m hm => hsplice ▸ hwithin m (List.mem_cons_of_mem _ hm)) hsound₁ h
      refine ⟨heap', hafter, hrun.sound, extends_trans hext₁ hrun.grows,
        hrun.length.trans hsplice, ?_, ?_⟩
      · intro q hq
        rw [hrun.frame q fun m hm => hq m (List.mem_cons_of_mem _ hm)]
        exact Placement.window_splice_of_apart (hq _ List.mem_cons_self) hlen₁' hstop
      · intro later hlater haddr m hm hmapped
        rcases List.mem_cons.1 hm with rfl | hm
        · have hwindow : p.window out = window := by
            rw [hrun.frame p hfirst]
            exact Placement.window_splice_self hlen₁' hstop
          change kind.read p order (p.window out) (some later) = _
          rw [hwindow]
          exact hread₁ later (extends_trans hrun.grows hlater) haddr
        · exact hrun.readable later hlater haddr m hm hmapped
    · rename_i hbound
      obtain ⟨heap', hafter, hrun⟩ := writeMembers_restores order hrest hapart
        (fun m hm => hwithin m (List.mem_cons_of_mem _ hm)) hsound h
      refine ⟨heap', hafter, hrun.sound, hrun.grows, hrun.length, ?_, ?_⟩
      · exact fun q hq => hrun.frame q fun m hm => hq m (List.mem_cons_of_mem _ hm)
      · intro later hlater haddr m hm hmapped
        rcases List.mem_cons.1 hm with rfl | hm
        · exact absurd hmapped hbound
        · exact hrun.readable later hlater haddr m hm hmapped

omit [LawfulHeap σ] in
theorem writeMembers_succeeds (order : ByteOrder) {r : Fields} : ∀ {ms : List Member}
    {position : Nat} {buffer : Bytes},
    (∀ m ∈ ms, m.isMapped = true →
      Succeeds (σ := σ) (m.kind.write m.placement order (m.valueIn r))) →
    Succeeds (σ := σ) (writeMembers order ms (fun name _ => Assoc.get? name r) position buffer)
  | [], _, buffer, _ => fun heap => ⟨buffer, heap, rfl⟩
  | ⟨p, kind, binding⟩ :: rest, position, buffer, hkinds => by
    intro heap
    have hrest : ∀ m ∈ rest, m.isMapped = true → _ :=
      fun m hm => hkinds m (List.mem_cons_of_mem _ hm)
    unfold writeMembers
    split
    · rename_i hbound
      obtain ⟨window, heap₁, hwrite⟩ := hkinds _ List.mem_cons_self hbound heap
      obtain ⟨out, heap', h⟩ := writeMembers_succeeds order hrest heap₁
      refine ⟨out, heap', ?_⟩
      change kind.write p order ((Assoc.get? p.name r).getD .null) (some heap) = _ at hwrite
      rw [hwrite]
      exact h
    · exact writeMembers_succeeds order hrest heap

/-! ## Whole records -/

omit [LawfulHeap σ] in
/-- Members that read alike have the same readings. -/
theorem readMembers_eq_of_reads (positional : Bool) (order : ByteOrder) {buffer : Bytes}
    {heap heap' : Option σ} : ∀ {ms : List Member} (position : Nat),
    (∀ m ∈ ms, m.kind.read m.placement order (m.placement.window buffer) heap =
      m.kind.read m.placement order (m.placement.window buffer) heap') →
    readMembers positional order buffer heap ms position =
      readMembers positional order buffer heap' ms position
  | [], _, _ => rfl
  | ⟨p, kind, binding⟩ :: rest, position, h => by
    obtain ⟨hhead, htail⟩ := List.forall_mem_cons.1 h
    dsimp only at hhead
    unfold readMembers
    rw [readMembers_eq_of_reads positional order (position + 1) htail, hhead]

omit [LawfulHeap σ] in
/-- Filling a map with the readings of some members inserts their values in order. -/
theorem fill_readMembers {positional : Bool} {order : ByteOrder} {buffer : Bytes}
    {heap : Option σ} {r : Fields} : ∀ {ms : List Member},
    (∀ m ∈ ms, m.isMapped = true →
      m.kind.read m.placement order (m.placement.window buffer) heap = .ok (m.valueIn r)) →
    (∀ m ∈ ms, m.isMapped = false → positional = true → m.valueIn r = .null) →
    ∀ (position : Nat) (acc : Fields),
      fill (readMembers positional order buffer heap ms position) acc =
      .ok (Assoc.insertAll
        ((ms.filter (Member.isRead positional)).map fun m => (m.name, m.valueIn r)) acc)
  | [], _, _, _, _ => rfl
  | ⟨p, kind, binding⟩ :: rest, hread, hnull, position, acc => by
    have ih := fill_readMembers (fun m hm => hread m (List.mem_cons_of_mem _ hm))
      (fun m hm => hnull m (List.mem_cons_of_mem _ hm)) (position + 1)
    have hhead := hread _ List.mem_cons_self
    have hhead' := hnull _ List.mem_cons_self
    simp only [Member.isMapped] at hhead hhead'
    unfold readMembers
    dsimp only
    cases hb : binding.isBound with
    | true =>
      have hisRead : Member.isRead positional ⟨p, kind, binding⟩ = true := by
        simp [Member.isRead, Member.isMapped, hb]
      simp only [if_true, fill, hhead hb, RecordAccess.setField]
      rw [ih, List.filter_cons_of_pos hisRead]
      rfl
    | false =>
      cases hp : positional with
      | true =>
        have hisRead : Member.isRead true ⟨p, kind, binding⟩ = true := by
          simp [Member.isRead]
        have hvalue := hhead' hb hp
        subst hp
        simp only [Bool.false_eq_true, if_false, if_true, fill, RecordAccess.setField]
        rw [ih, List.filter_cons_of_pos hisRead, List.map_cons, hvalue]
        rfl
      | false =>
        have hisRead : ¬Member.isRead false ⟨p, kind, binding⟩ = true := by
          simp [Member.isRead, Member.isMapped, hb]
        subst hp
        simp only [Bool.false_eq_true, if_false]
        rw [ih, List.filter_cons_of_neg hisRead]

end Heap

/-! ## Canonical records -/

theorem canonicalMembers_iff {positional : Bool} {r : Fields} : ∀ {ms : List Member},
    CanonicalMembers positional ms r ↔ ∀ m ∈ ms,
      if m.isMapped then
        ∃ v, Assoc.get? m.name r = some v ∧ m.kind.Canonical m.placement v
      else positional = true → Assoc.get? m.name r = some .null
  | [] => by simp [CanonicalMembers]
  | ⟨p, kind, binding⟩ :: rest => by
    rw [CanonicalMembers, canonicalMembers_iff, List.forall_mem_cons]
    rfl

namespace Schema

/-- The schema gives a record an entry for every member it has, mapped or not. -/
def isPositional (s : Schema) : Bool := s.outline.kind == .positional

theorem canonical_iff {s : Schema} {r : Fields} :
    s.Canonical r ↔ Assoc.Ascending r ∧
      (∀ key ∈ Assoc.keys r, ∃ m ∈ s.members, m.isRead s.isPositional = true ∧ m.name = key) ∧
      ∀ m ∈ s.members,
        if m.isMapped then
          ∃ v, Assoc.get? m.name r = some v ∧ m.kind.Canonical m.placement v
        else s.isPositional = true → Assoc.get? m.name r = some .null := by
  cases s
  rw [Canonical, canonicalMembers_iff]
  rfl

theorem Canonical.valueIn {s : Schema} {r : Fields} (h : s.Canonical r) {m : Member}
    (hm : m ∈ s.members) (hmapped : m.isMapped = true) :
    m.kind.Canonical m.placement (m.valueIn r) := by
  have hmember := (canonical_iff.1 h).2.2 m hm
  rw [if_pos hmapped] at hmember
  obtain ⟨v, hv, hcanonical⟩ := hmember
  rw [Member.valueIn, hv]
  exact hcanonical

theorem Canonical.get?_of_isRead {s : Schema} {r : Fields} (h : s.Canonical r) {m : Member}
    (hm : m ∈ s.members) (hread : m.isRead s.isPositional = true) :
    Assoc.get? m.name r = some (m.valueIn r) := by
  have hmember := (canonical_iff.1 h).2.2 m hm
  cases hb : m.isMapped with
  | true =>
    rw [if_pos hb] at hmember
    obtain ⟨v, hv, -⟩ := hmember
    rw [Member.valueIn, hv, Option.getD_some]
  | false =>
    rw [if_neg (by simp [hb])] at hmember
    rw [Member.isRead, hb, Bool.false_or] at hread
    rw [Member.valueIn, hmember hread, Option.getD_some]

/-- A canonical record consists of the values of the members that are read. -/
theorem Canonical.eq_insertAll {s : Schema} {r : Fields} (h : s.Canonical r)
    (hn : (s.members.map Member.name).Nodup) :
    Assoc.insertAll ((s.members.filter (Member.isRead s.isPositional)).map fun m =>
      (m.name, m.valueIn r)) [] = r := by
  have hkeys : ((s.members.filter (Member.isRead s.isPositional)).map fun m =>
      (m.name, m.valueIn r)).map Prod.fst =
      (s.members.filter (Member.isRead s.isPositional)).map Member.name := by
    rw [List.map_map]
    rfl
  have hnodup := ((List.filter_sublist (p := Member.isRead s.isPositional)).map
    Member.name).nodup hn
  obtain ⟨hascending, honly, -⟩ := canonical_iff.1 h
  refine Assoc.ext (Assoc.ascending_insertAll Assoc.ascending_nil) hascending fun key => ?_
  by_cases hkey : key ∈ (s.members.filter (Member.isRead s.isPositional)).map Member.name
  · obtain ⟨m, hm, rfl⟩ := List.mem_map.1 hkey
    obtain ⟨hmem, hread⟩ := List.mem_filter.1 hm
    rw [h.get?_of_isRead hmem hread]
    exact Assoc.get?_insertAll_of_mem (hkeys ▸ hnodup) (List.mem_map.2 ⟨m, hm, rfl⟩)
  · rw [Assoc.get?_insertAll_of_notMem (hkeys ▸ hkey)]
    refine (Option.eq_none_iff_forall_ne_some.2 fun v hv => hkey ?_).symm
    have hmem : key ∈ Assoc.keys r := Assoc.isSome_get?_iff.1 (by rw [hv]; rfl)
    obtain ⟨m, hm, hread, rfl⟩ := honly key hmem
    exact List.mem_map_of_mem (List.mem_filter.2 ⟨hm, hread⟩)

variable {σ : Type} [Heap σ]

theorem write_eq (s : Schema) (width : Nat) (value? : String → Nat → Option Value)
    (heap : Option σ) :
    s.write width value? heap =
      if width = s.totalSize then
        writeMembers s.settings.byteOrder s.members value? 0 (Codec.zeros s.totalSize) heap
      else (.error (.bufferSize s.totalSize width), heap) := by
  cases s
  rfl

theorem pack_eq {ρ : Type} [RecordAccess ρ] (s : Schema) (record : ρ) :
    s.pack (σ := σ) record = writeMembers s.settings.byteOrder s.members
      (RecordAccess.field? record) 0 (Codec.zeros s.totalSize) := by
  funext heap
  rw [pack, write_eq, if_pos rfl]

theorem unpack_eq (s : Schema) {bytes : Bytes} (h : bytes.length = s.totalSize)
    (heap : Option σ) :
    s.unpack Fields bytes heap =
      fill (readMembers s.isPositional s.settings.byteOrder bytes heap s.members 0) [] := by
  cases s
  simp only [unpack, readings]
  rw [if_pos h]
  rfl

variable [LawfulHeap σ]

open LawfulHeap

/-- **One level of the round trip**: if the nested schemas are restored, so is this one. -/
theorem restored_of_laidOut {rules : ViewRules} {s : Schema} (hs : s.LaidOut rules)
    (hn : ∀ m ∈ s.members, ∀ t, m.placement.nested = some t → t.Restored σ) : s.Restored σ := by
  intro width r hw hr heap window after hsound hwrite
  rw [write_eq] at hwrite
  split at hwrite
  swap
  · cases hwrite
  rename_i hwidth
  have hkinds : ∀ m ∈ s.members, m.isMapped = true →
      Restores (σ := σ) m.placement.footprint
        (m.kind.write m.placement s.settings.byteOrder (m.valueIn r))
        (m.kind.read m.placement s.settings.byteOrder) (m.valueIn r) := by
    intro m hm hmapped
    have hfoot : m.placement.footprint < 2 ^ 63 := (hs.footprint_le hm).trans_lt (by omega)
    exact Kind.restores _ hfoot (Kind.suits (hs.checked m hm) (hs.chosen m hm)) (hn m hm)
      (hr.valueIn hm hmapped)
  have hwithin : ∀ m ∈ s.members, m.placement.stop ≤ (Codec.zeros s.totalSize).length := by
    intro m hm
    rw [Codec.zeros, List.length_replicate]
    exact hs.within m hm
  obtain ⟨heap', hafter, hrun⟩ := writeMembers_restores _ hkinds hs.apart hwithin hsound hwrite
  have hlen : window.length = s.totalSize := by
    rw [hrun.length, Codec.zeros, List.length_replicate]
  refine ⟨heap', hafter, hrun.sound, hrun.grows, hlen.trans hwidth.symm, ?_⟩
  intro later hlater haddr
  rw [s.unpack_eq hlen, fill_readMembers (hrun.readable later hlater haddr) ?_,
    hr.eq_insertAll hs.names]
  intro m hm hmapped hpositional
  have hmember := (canonical_iff.1 hr).2.2 m hm
  rw [if_neg (by simp [hmapped])] at hmember
  rw [Member.valueIn, hmember hpositional, Option.getD_some]

/-- **Canonical records of a schema laid out at every level are restored.** -/
theorem restored_of_hereditarily {s : Schema}
    (h : s.Hereditarily fun t => ∃ rules, t.LaidOut rules) : s.Restored σ := by
  induction h with
  | intro here _ ih =>
    obtain ⟨rules, hs⟩ := here
    exact restored_of_laidOut hs ih

/-- **One level of writing**: if the records that members are coded by can be written and fill
their windows, so can records of the schema. -/
theorem written_of_laidOut {rules : ViewRules} {s : Schema} (hs : s.LaidOut rules)
    (hf : ∀ m ∈ s.members, m.isMapped = true → m.kind.Fills m.placement)
    (hn : ∀ m ∈ s.members, m.isMapped = true → ∀ t,
      m.kind = .single (.record t) ∨ m.kind = .array (.record t) → t.Written σ) :
    s.Written σ := by
  intro r hr heap
  obtain ⟨window, heap', hwrite⟩ := writeMembers_succeeds (σ := σ) _ (fun m hm hmapped =>
    Kind.succeeds _ (Kind.suits (hs.checked m hm) (hs.chosen m hm)) (hf m hm hmapped)
      (hn m hm hmapped) (hr.valueIn hm hmapped)) heap
  exact ⟨window, heap', by rw [write_eq, if_pos rfl, hwrite]⟩

/-- **Without overrides canonical records can be written.** -/
theorem written_of_hereditarily {s : Schema} (h : s.Hereditarily (LaidOut {})) :
    s.Written σ := by
  induction h with
  | intro hs _ ih =>
    refine written_of_laidOut hs (fun m hm _ => Kind.fills (hs.checked m hm) (hs.chosen m hm))
      fun m hm _ t ht => ih m hm t ?_
    have hsuits := Kind.suits (hs.checked m hm) (hs.chosen m hm)
    rcases ht with ht | ht
    · rw [ht] at hsuits
      exact hsuits
    · rw [ht] at hsuits
      exact hsuits.2

/-- The schema and all schemas nested in it came out of a build. -/
def Built (s : Schema) : Prop := s.Hereditarily fun t => ∃ b : Blueprint, b.build = .ok t

/-- The schema and all schemas nested in it came out of a build without overrides. -/
def BuiltPlainly (s : Schema) : Prop :=
  s.Hereditarily fun t => ∃ b : Blueprint, b.rules = {} ∧ b.build = .ok t

theorem BuiltPlainly.built {s : Schema} (h : s.BuiltPlainly) : s.Built :=
  h.mono fun _ ⟨b, _, hb⟩ => ⟨b, hb⟩

theorem Built.restored {s : Schema} (h : s.Built) : s.Restored σ := by
  refine restored_of_hereditarily (h.mono fun t ⟨b, hb⟩ => ?_)
  exact ⟨b.rules, (Blueprint.laidOut_of_build hb).1⟩

theorem BuiltPlainly.written {s : Schema} (h : s.BuiltPlainly) : s.Written σ := by
  refine written_of_hereditarily (h.mono fun t ⟨b, hrules, hb⟩ => ?_)
  rw [← hrules]
  exact (Blueprint.laidOut_of_build hb).1

end Schema

/-- **Canonical records round trip**, whatever was written to the store before and is written to it
later.  The bound on the size is that of a buffer, so that the exact sums and products of sizes are
those of machine words. -/
theorem canonical_record_roundTrips {s : Schema} (hs : s.Built) (hsize : s.totalSize < 2 ^ 63)
    {r : Fields} (hr : s.Canonical r) (store : TransientStore) :
    (∀ bytes after, s.pack r (some store) = (.ok bytes, after) →
      ∃ store', after = some store' ∧ bytes.length = s.totalSize ∧
        ∀ later : TransientStore, store'.heap <+: later.heap → later.Addressable →
          s.unpack Fields bytes (some later) = .ok r) ∧
    (s.BuiltPlainly → ∃ bytes store', s.pack r (some store) = (.ok bytes, some store')) := by
  constructor
  · intro bytes after hpack
    obtain ⟨store', hafter, -, -, hlen, hread⟩ :=
      hs.restored s.totalSize r hsize hr store bytes after trivial hpack
    exact ⟨store', hafter, hlen, hread⟩
  · intro hplain
    exact hplain.written r hr store

/-! ## A record with an array of records and a text -/

/-- A record of one integer. -/
def cellSchema : Schema :=
  ⟨"Cell", [⟨.integer "x" 0 4, .single (.scalar (.integer true)), .dynamic⟩],
    Shape.openMap.outline, 4, {}⟩

/-- Two cells behind the slot of a text. -/
def rowPlacements : List Placement :=
  [.plain "tag" 0 .string (-1),
    { Placement.plain "cells" 16 .compound 4 with dims := [2], nested := some cellSchema }]

def rowSchema : Schema :=
  ⟨"Row", rowPlacements.zipWith (fun p kind => ⟨p, kind, .dynamic⟩)
      [.single (.scalar (.varyingText .ascii)), .array (.record cellSchema)],
    Shape.openMap.outline, 24, {}⟩

def rowRecord : Fields :=
  [("cells", .array [2] [.fields [("x", .number (.int 1))], .fields [("x", .number (.int (-2)))]]),
    ("tag", .text "ok")]

/-- What an open map with some placements is built from. -/
def openBlueprint (name : String) (placements : List Placement) : Blueprint where
  shape := .openMap
  name := some name
  placements := some placements

theorem build_cellSchema :
    (openBlueprint "Cell" [.integer "x" 0 4]).build = .ok cellSchema := by cbv

theorem builtPlainly_rowSchema : rowSchema.BuiltPlainly := by
  have hrow : (openBlueprint "Row" rowPlacements).build = .ok rowSchema := by cbv
  refine .intro ⟨_, rfl, hrow⟩ fun m hm t ht => ?_
  have ht' : t = cellSchema := by
    simp only [rowSchema, rowPlacements, List.zipWith_cons_cons, List.zipWith_nil_left,
      List.mem_cons, List.not_mem_nil, or_false] at hm
    rcases hm with rfl | rfl
    · cases ht
    · cases ht
      rfl
  subst ht'
  refine .intro ⟨_, rfl, build_cellSchema⟩ fun m hm t ht => ?_
  simp only [cellSchema, List.mem_singleton] at hm
  subst hm
  cases ht

theorem canonical_rowRecord : rowSchema.Canonical rowRecord := by
  have hcell : ∀ i : Int64, Word.FitsSigned 4 i.toInt →
      cellSchema.Canonical [("x", .number (.int i))] := by
    intro i hi
    refine ⟨by simp [Assoc.Ascending], ?_, ?_, trivial⟩
    · intro key hkey
      exact ⟨_, List.mem_singleton_self _, rfl, (List.mem_singleton.1 hkey).symm⟩
    · exact ⟨_, rfl, i, rfl, hi⟩
  refine ⟨by unfold Assoc.Ascending; decide, ?_, ⟨_, rfl, .inr ⟨"ok", rfl, ?_, by decide⟩⟩,
    ⟨_, rfl, _, rfl, rfl, ?_⟩, trivial⟩
  · simp [rowRecord, Assoc.keys, Member.name, rowPlacements, Member.isRead, Member.isMapped,
      Binding.isBound, Placement.plain]
  · intro _
    decide
  · intro w hw
    simp only [List.mem_cons, List.not_mem_nil, or_false] at hw
    rcases hw with rfl | rfl
    · exact ⟨_, rfl, hcell 1 (by decide)⟩
    · exact ⟨_, rfl, hcell (-2) (by decide)⟩

theorem canonical_row_roundTrips :
    rowSchema.Built ∧ rowSchema.totalSize < 2 ^ 63 ∧ rowSchema.Canonical rowRecord ∧
      ∃ bytes store', rowSchema.pack rowRecord (some ({} : TransientStore)) =
        (.ok bytes, some store') ∧ bytes.length = 24 ∧
        rowSchema.unpack Fields bytes (some store') = .ok rowRecord := by
  have hbuilt := builtPlainly_rowSchema.built
  have hsize : rowSchema.totalSize < 2 ^ 63 := by decide
  have hpack : rowSchema.pack rowRecord (some ({} : TransientStore)) =
      (.ok [2, 0, 0, 0, 1, 0, 0, 0, 0, 0, 0, 0, 0, 0, 0, 0, 1, 0, 0, 0, 254, 255, 255, 255],
        some { heap := [[111, 107]] }) := by cbv
  obtain ⟨store', hafter, hlen, hread⟩ :=
    (canonical_record_roundTrips hbuilt hsize canonical_rowRecord {}).1 _ _ hpack
  obtain rfl := Option.some.inj hafter
  refine ⟨hbuilt, hsize, canonical_rowRecord, _, _, hpack, hlen, hread _ ?_ ?_⟩
  · exact List.prefix_refl _
  · change 1 ≤ 2 ^ 64
    decide

end PackedRecord
