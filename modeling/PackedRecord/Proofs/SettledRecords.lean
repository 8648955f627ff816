import Mathlib.Order.Basic
import PackedRecord.Proofs.MirroredStores
import PackedRecord.Proofs.NoFaults
import PackedRecord.Proofs.SharedSchemas
import PackedRecord.Proofs.WriteInduction

/-!
# Written records are read alike from then on

A row holds handles of objects that lie on the heap before the row is written.  Objects are
never changed, so a row is read alike from every later content of the store.

* `Schema.write_preserves`, `Schema.packAll_preserves` — what each put on the heap keeps is kept
  by writing records, also where that fails.
* `Steady` — the same answer from every store that retains some heap objects.
* `Schema.Built.settled` — the induction over nested schemas: each member of a written row,
  mapped or not, reads alike from then on.
-/

namespace PackedRecord

/-! ## What writing keeps -/

/-- Each put on the heap keeps a property of it. -/
def KeptByPut {σ : Type} [Heap σ] (P : σ → Prop) : Prop :=
  ∀ (store store' : σ) (content : Bytes) (handle : Handle), P store →
    Heap.put store content = .ok (handle, store') → P store'

/-- A write keeps a property of the heap, also where it fails. -/
def Preserves {σ : Type} (P : σ → Prop) (write : Option σ → Except Error Bytes × Option σ) :
    Prop :=
  ∀ store, P store → ∃ store', (write (some store)).2 = some store' ∧ P store'

section Preserves

variable {σ : Type} {P : σ → Prop}

/-- A write that leaves the heap alone. -/
theorem Preserves.of_pure (result : Except Error Bytes) : Preserves P fun heap => (result, heap) :=
  fun store h => ⟨store, rfl, h⟩

/-- One write, then another one if the first succeeds. -/
theorem Preserves.andThen {write : Option σ → Except Error Bytes × Option σ}
    {next : Bytes → Option σ → Except Error Bytes × Option σ} (h : Preserves P write)
    (hnext : ∀ window, Preserves P (next window)) :
    Preserves P fun heap =>
      match write heap with
      | (.error e, heap) => (.error e, heap)
      | (.ok window, heap) => next window heap := by
  intro store hstore
  obtain ⟨store₁, hfirst, hstore₁⟩ := h store hstore
  rcases hwrite : write (some store) with ⟨e | window, heap⟩ <;>
    simp only [hwrite] at hfirst ⊢ <;> subst hfirst
  · exact ⟨store₁, rfl, hstore₁⟩
  · exact hnext window store₁ hstore₁

variable [Heap σ]

theorem Codec.storeContent_preserves (hP : KeptByPut P) (name : String) (order : ByteOrder)
    (content : Bytes) : Preserves P (storeContent name order content) := by
  intro store h
  unfold storeContent
  dsimp only
  rcases hput : Heap.put store content with e | ⟨handle, store'⟩
  · exact ⟨store, rfl, h⟩
  · exact ⟨store', rfl, hP store store' content handle h hput⟩

theorem KeptByPut.compositional (hP : KeptByPut P) : Compositional (Preserves P) where
  pure := .of_pure
  store := Codec.storeContent_preserves hP
  andThen := .andThen

/-- Writing a record keeps what each put keeps. -/
theorem Schema.write_preserves (hP : KeptByPut P) (width : Nat) (s : Schema)
    (value? : String → Nat → Option Value) : Preserves P (s.write width value?) :=
  hP.compositional.write width s value?

theorem Schema.packAll_preserves (hP : KeptByPut P) (s : Schema) {ρ : Type} [RecordAccess ρ]
    (records : List ρ) : Preserves P (s.packAll records) :=
  hP.compositional.packAll s records

end Preserves

/-! ## Windows of zeros -/

section Zeros

variable {σ : Type} [Heap σ]

/-- A window of zeros holds no handle of an object. -/
theorem Scalar.read_zeros (name : String) (order : ByteOrder) (codec : Scalar) (size : Nat)
    (heap heap' : Option σ) : codec.read name order (Codec.zeros size) heap =
      codec.read name order (Codec.zeros size) heap' := by
  cases codec with
  | varyingText charset =>
    simp only [read, Codec.readVaryingText, Codec.loadContent_zeros]
  | varyingBytes => simp only [read, Codec.readVaryingBytes, Codec.loadContent_zeros]
  | _ => rfl

mutual

/-- A member of zeros reads alike from every heap. -/
theorem Kind.read_zeros (p : Placement) (order : ByteOrder) (heap heap' : Option σ) :
    ∀ (kind : Kind) (size : Nat), kind.read p order (Codec.zeros size) heap =
      kind.read p order (Codec.zeros size) heap'
  | .single element, size => element.read_zeros p.name order heap heap' size
  | .array element, size => by
    have hruns : ∀ run ∈ Codec.runs p.elementWidth p.elements (Codec.zeros size),
        element.read p.name order run heap = element.read p.name order run heap' := by
      intro run hrun
      obtain ⟨length, rfl⟩ := Codec.exists_zeros_of_mem_runs hrun
      exact element.read_zeros p.name order heap heap' length
    unfold Kind.read
    rw [readRun_congr hruns]

/-- An element of zeros reads alike from every heap. -/
theorem Element.read_zeros (name : String) (order : ByteOrder) (heap heap' : Option σ) :
    ∀ (element : Element) (size : Nat), element.read name order (Codec.zeros size) heap =
      element.read name order (Codec.zeros size) heap'
  | .scalar codec, size => codec.read_zeros name order size heap heap'
  | .record schema, size => by
    unfold Element.read
    rw [schema.readings_zeros heap heap' size]

/-- A record of zeros reads alike from every heap. -/
theorem Schema.readings_zeros (heap heap' : Option σ) : ∀ (s : Schema) (size : Nat),
    s.readings (Codec.zeros size) heap = s.readings (Codec.zeros size) heap'
  | ⟨_, members, outline, totalSize, settings⟩, size => by
    unfold Schema.readings
    rw [readMembers_zeros _ settings.byteOrder size heap heap' members 0]

/-- Members of zeros read alike from every heap. -/
theorem readMembers_zeros (positional : Bool) (order : ByteOrder) (size : Nat)
    (heap heap' : Option σ) : ∀ (ms : List Member) (position : Nat),
    readMembers positional order (Codec.zeros size) heap ms position =
      readMembers positional order (Codec.zeros size) heap' ms position
  | [], _ => rfl
  | ⟨p, kind, binding⟩ :: rest, position => by
    have hwindow : p.window (Codec.zeros size) =
        Codec.zeros (min p.footprint (size - p.offset)) := by
      rw [Placement.window, Codec.zeros, List.drop_replicate, List.take_replicate]
      rfl
    unfold readMembers
    rw [readMembers_zeros positional order size heap heap' rest (position + 1), hwindow,
      kind.read_zeros p order heap heap']

end

end Zeros

/-! ## The same answer from then on -/

section Steady

variable {σ : Type} [RecordStore σ] [Catalog σ] [MirroredStore σ]

open MirroredStore

/-- The first objects on the heap of a store are some objects. -/
def Retains (store : σ) (objects : List Bytes) : Prop :=
  ∃ t : TransientStore, Holds store t ∧ objects <+: t.heap

/-- Every store that retains some heap objects gives the same answer. -/
def Steady {β : Type} (objects : List Bytes) (answer : Option σ → β) : Prop :=
  ∀ store later, Retains store objects → Retains later objects →
    answer (some store) = answer (some later)

namespace Steady

variable {β γ : Type} {objects : List Bytes} {answer : Option σ → β}

theorem of_eq (h : ∀ heap heap', answer heap = answer heap') : Steady objects answer :=
  fun _ _ _ _ => h _ _

theorem mono (h : Steady objects answer) {more : List Bytes} (hmore : objects <+: more) :
    Steady more answer := by
  rintro store later ⟨t, ht, hheap⟩ ⟨t', ht', hheap'⟩
  exact h store later ⟨t, ht, hmore.trans hheap⟩ ⟨t', ht', hmore.trans hheap'⟩

/-- An answer that is settled by one that stays the same. -/
theorem imp (h : Steady objects answer) {other : Option σ → γ}
    (hother : ∀ heap heap', answer heap = answer heap' → other heap = other heap') :
    Steady objects other :=
  fun store later hstore hlater => hother _ _ (h store later hstore hlater)

end Steady

/-- The object of a new handle is there from then on. -/
theorem Codec.loadContent_steady (name : String) (order : ByteOrder) {t t' : TransientStore}
    {content : Bytes} {handle : Handle} (hput : t.put content = .ok (handle, t')) :
    Steady (σ := σ) t'.heap (loadContent name order (handle.write order)) := by
  rintro store later ⟨u, hu, hheap⟩ ⟨v, hv, hheap'⟩
  unfold loadContent
  rw [Handle.read_write]
  dsimp only
  rw [get_holds hu, get_holds hv, TransientStore.get_of_put hput hheap,
    TransientStore.get_of_put hput hheap']

/-- A write that succeeds leaves a window of some width that is read alike from then on. -/
def Settles {β : Type} (width : Nat) (write : Option σ → Except Error Bytes × Option σ)
    (read : Bytes → Option σ → β) : Prop :=
  ∀ (store : σ) (t : TransientStore) (window : Bytes) (after : Option σ), Holds store t →
    write (some store) = (.ok window, after) →
    ∃ store' t', after = some store' ∧ Holds store' t' ∧ t.Grows t' ∧ window.length = width ∧
      Steady t'.heap (read window)

namespace Settles

variable {β γ : Type} {width : Nat} {write : Option σ → Except Error Bytes × Option σ}
  {read : Bytes → Option σ → β}

/-- A write and a read that leave the heap alone. -/
theorem of_pure {result : Except Error Bytes} (hspans : Codec.Spans width result)
    (hread : ∀ window heap heap', read window heap = read window heap') :
    Settles width (fun heap => (result, heap)) read := by
  intro store t window after hstore hwrite
  cases hwrite
  exact ⟨store, t, rfl, hstore, .refl t, hspans window rfl, .of_eq (hread window)⟩

theorem of_error (e : Error) : Settles width (fun heap => (.error e, heap)) read := by
  intro store t window after _ hwrite
  cases hwrite

theorem orNull (h : Settles width write read) (v : Value)
    (hzeros : ∀ heap heap', read (Codec.zeros width) heap = read (Codec.zeros width) heap') :
    Settles width
      (fun heap => if v.isNull then (.ok (Codec.zeros width), heap) else write heap) read := by
  cases v.isNull with
  | false => exact h
  | true =>
    intro store t window after hstore hwrite
    cases hwrite
    exact ⟨store, t, rfl, hstore, .refl t, List.length_replicate, .of_eq hzeros⟩

theorem imp (h : Settles width write read) {other : Bytes → Option σ → γ}
    (hother : ∀ window heap heap', read window heap = read window heap' →
      other window heap = other window heap') : Settles width write other := by
  intro store t window after hstore hwrite
  obtain ⟨store', t', hafter, hstore', hgrows, hlen, hsteady⟩ :=
    h store t window after hstore hwrite
  exact ⟨store', t', hafter, hstore', hgrows, hlen, hsteady.imp (hother window)⟩

end Settles

/-! ### Elements and arrays -/

theorem Codec.storeContent_settles (name : String) (order : ByteOrder) (content : Bytes) :
    Settles (σ := σ) Handle.width (storeContent name order content) (loadContent name order) := by
  intro store t window after hstore hwrite
  unfold storeContent at hwrite
  dsimp only at hwrite
  split at hwrite
  · cases hwrite
  rename_i handle store' hput
  cases hwrite
  obtain ⟨t', hput', hstore'⟩ := put_holds hstore hput
  exact ⟨store', t', rfl, hstore', TransientStore.grows_put hput', Handle.length_write ..,
    loadContent_steady name order hput'⟩

theorem Codec.writeVaryingText_settles (name : String) (order : ByteOrder) (charset : Charset)
    (v : Value) : Settles (σ := σ) Handle.width (writeVaryingText name order charset v)
      (readVaryingText name order) := by
  unfold writeVaryingText
  cases textBytes name charset v with
  | error e => exact .of_error e
  | ok content =>
    refine (storeContent_settles name order content).imp fun window heap heap' h => ?_
    simp only [readVaryingText, h]

theorem Codec.writeVaryingBytes_settles (name : String) (order : ByteOrder) (v : Value) :
    Settles (σ := σ) Handle.width (writeVaryingBytes name order v)
      (readVaryingBytes name order) := by
  unfold writeVaryingBytes
  cases v.bytes? with
  | none => exact .of_error _
  | some content =>
    refine (storeContent_settles name order content).imp fun window heap heap' h => ?_
    simp only [readVaryingBytes, h]

theorem Scalar.settles (name : String) (order : ByteOrder) {width : Nat} {codec : Scalar}
    (hs : codec.Suits width) (v : Value) :
    Settles (σ := σ) width (codec.write name order width v) (codec.read name order) := by
  have hspans := codec.write_spans (σ := σ) name order hs v none
  cases codec with
  | varyingText charset =>
    obtain rfl : width = Handle.width := hs
    exact Codec.writeVaryingText_settles name order charset v
  | varyingBytes =>
    obtain rfl : width = Handle.width := hs
    exact Codec.writeVaryingBytes_settles name order v
  | _ => exact .of_pure hspans fun _ _ _ => rfl

/-- A run of elements settles if each of them does. -/
theorem writeRun_settles {write : Value → Option σ → Except Error Bytes × Option σ}
    {read : Bytes → Option σ → Except Error Value} {width : Nat} : ∀ {vs : List Value},
    (∀ v ∈ vs, Settles width
      (fun heap => if v.isNull then (.ok (Codec.zeros width), heap) else write v heap) read) →
    Settles (width * vs.length) (writeRun write width vs) fun windows heap =>
      readRun (fun run => read run heap) (Codec.runs width vs.length windows)
  | [], _ => .of_pure (Codec.spans_ok rfl) fun _ _ _ => rfl
  | v :: rest, h => by
    intro store t window after hstore hwrite
    unfold writeRun at hwrite
    split at hwrite
    · cases hwrite
    rename_i first heap₁ hfirst
    obtain ⟨store₁, t₁, rfl, hstore₁, hgrows₁, hlen₁, hsteady₁⟩ :=
      h v List.mem_cons_self store t first heap₁ hstore hfirst
    split at hwrite
    · cases hwrite
    rename_i windows heap₂ hrest
    cases hwrite
    obtain ⟨store', t', rfl, hstore', hgrows', hlen', hsteady'⟩ :=
      writeRun_settles (fun w hw => h w (List.mem_cons_of_mem _ hw)) store₁ t₁ windows after
        hstore₁ hrest
    refine ⟨store', t', rfl, hstore', hgrows₁.trans hgrows', ?_, ?_⟩
    · rw [List.length_append, hlen₁, hlen', List.length_cons, Nat.mul_succ, Nat.add_comm]
    · intro early late hearly hlate
      have hhead := hsteady₁.mono hgrows'.heap early late hearly hlate
      have htail := hsteady' early late hearly hlate
      dsimp only at htail
      simp only [List.length_cons, Codec.runs, List.take_left' hlen₁, List.drop_left' hlen₁,
        readRun, hhead]
      rw [htail]

/-- What the members of a row read as, mapped or not. -/
def Schema.contents (s : Schema) (row : Bytes) (heap : Option σ) : List (Except Error Value) :=
  s.members.map fun m =>
    m.kind.read m.placement s.settings.byteOrder (m.placement.window row) heap

/-- Rows of the schema settle at any width. -/
def Schema.Settled (σ : Type) [RecordStore σ] [Catalog σ] [MirroredStore σ] (s : Schema) : Prop :=
  ∀ (width : Nat) (value? : String → Nat → Option Value), width < 2 ^ 63 → ProperValues value? →
    Settles (σ := σ) width (s.write width value?) s.contents

omit [Catalog σ] [MirroredStore σ] in
/-- A row whose members read alike reads alike. -/
theorem Schema.readings_eq_of_contents {s : Schema} {row : Bytes} {heap heap' : Option σ}
    (h : s.contents row heap = s.contents row heap') :
    s.readings row heap = s.readings row heap' := by
  rw [readings_eq, readings_eq, readMembers_eq_of_reads _ _ 0 (List.map_inj_left.1 h)]

theorem Element.settles (name : String) (order : ByteOrder) {nested : Option Schema}
    {width : Nat} {element : Element} (hw : width < 2 ^ 63) (hs : element.Suits nested width)
    (hn : ∀ s, nested = some s → s.Settled σ) {v : Value} (hv : v.WellFormed) :
    Settles (σ := σ) width
      (fun heap => if v.isNull then (.ok (Codec.zeros width), heap)
        else element.write name order width v heap)
      (element.read name order) := by
  refine Settles.orNull ?_ v fun heap heap' => element.read_zeros name order heap heap' width
  cases element with
  | scalar codec => exact codec.settles name order hs v
  | record schema =>
    cases v with
    | fields entries =>
      have hproper : ProperValues fun name _ => Assoc.get? name entries :=
        fun _ _ _ hget => wellFormed_of_get? hv.2 hget
      refine (hn schema hs width _ hw hproper).imp fun window heap heap' h => ?_
      simp only [Element.read, Schema.readings_eq_of_contents h]
    | _ => exact .of_error _

/-- **A member settles** if nested records do. -/
theorem Kind.settles (order : ByteOrder) {p : Placement} {kind : Kind} (hc : p.Checked)
    (hw : p.footprint < 2 ^ 63) (hs : kind.Suits p)
    (hn : ∀ s, p.nested = some s → s.Settled σ) {v : Value} (hv : v.WellFormed) :
    Settles (σ := σ) p.footprint (kind.write p order v) (kind.read p order) := by
  cases kind with
  | single element => exact element.settles p.name order hw hs hn hv
  | array element =>
    obtain ⟨hvarying, hsuits⟩ := hs
    have hwidth : p.elementWidth < 2 ^ 63 := (hc.elementWidth_le hvarying hw).trans_lt hw
    cases v with
    | null =>
      intro store t window after hstore hwrite
      cases hwrite
      exact ⟨store, t, rfl, hstore, .refl t, List.length_replicate,
        .of_eq fun heap heap' => (Kind.array element).read_zeros p order heap heap' _⟩
    | array dims elements =>
      obtain ⟨-, hcount, helements⟩ := hv
      by_cases hdims : dims = p.dims
      swap
      · intro store t window after _ hwrite
        simp only [Kind.write, if_neg hdims] at hwrite
        cases hwrite
      subst hdims
      have hrun := writeRun_settles fun v hmem =>
        element.settles p.name order hwidth hsuits hn (mem_of_wellFormedAll helements hmem)
      have hwrite : (Kind.array element).write (σ := σ) p order (.array p.dims elements) =
          writeRun (element.write p.name order p.elementWidth) p.elementWidth elements := by
        funext heap
        simp only [Kind.write, if_true]
      have hfoot : p.footprint = p.elementWidth * elements.length := by
        rw [Placement.footprint_eq hvarying hw, ← hcount]
        rfl
      rw [hwrite, hfoot]
      refine hrun.imp fun window heap heap' h => ?_
      rw [← hcount] at h
      exact congrArg (Except.map (Value.array p.dims)) h
    | _ => exact .of_error _

/-! ### Members -/

/-- What a run over some members leaves behind: every window apart from theirs is as it was,
and theirs are read alike from then on. -/
structure RunSettles (order : ByteOrder) (ms : List Member) (buffer : Bytes) (t : TransientStore)
    (out : Bytes) (store' : σ) (t' : TransientStore) : Prop where
  holds : Holds store' t'
  grows : t.Grows t'
  length : out.length = buffer.length
  frame : ∀ p : Placement, (∀ m ∈ ms, p.Apart m.placement) → p.window out = p.window buffer
  steady : ∀ m ∈ ms, Steady (σ := σ) t'.heap
    (m.kind.read m.placement order (m.placement.window out))

/-- **A run over some members settles** if each of them does and their windows were read alike
before, which holds of zeros. -/
theorem writeMembers_settles (order : ByteOrder) {value? : String → Nat → Option Value}
    (hproper : ProperValues value?) : ∀ {ms : List Member} {position : Nat} {buffer out : Bytes}
    {store : σ} {t : TransientStore} {after : Option σ},
    (∀ m ∈ ms, ∀ v : Value, v.WellFormed → Settles (σ := σ) m.placement.footprint
      (m.kind.write m.placement order v) (m.kind.read m.placement order)) →
    ms.Pairwise (fun m n => m.placement.Apart n.placement) →
    (∀ m ∈ ms, m.placement.stop ≤ buffer.length) →
    (∀ m ∈ ms, Steady (σ := σ) t.heap
      (m.kind.read m.placement order (m.placement.window buffer))) →
    Holds store t →
    writeMembers order ms value? position buffer (some store) = (.ok out, after) →
    ∃ store' t', after = some store' ∧ RunSettles order ms buffer t out store' t'
  | [], _, buffer, out, store, t, after, _, _, _, _, hstore, h => by
    cases h
    exact ⟨store, t, rfl, hstore, .refl t, rfl, fun _ _ => rfl, nofun⟩
  | ⟨p, kind, binding⟩ :: rest, position, buffer, out, store, t, after, hkinds, hapart, hwithin,
      hsteady, hstore, h => by
    obtain ⟨hfirst, hapart⟩ := List.pairwise_cons.1 hapart
    obtain ⟨hkind, hkinds⟩ := List.forall_mem_cons.1 hkinds
    obtain ⟨hstop, hwithin⟩ := List.forall_mem_cons.1 hwithin
    obtain ⟨hhead, hsteady⟩ := List.forall_mem_cons.1 hsteady
    unfold writeMembers at h
    cases hbound : binding.isBound with
    | false =>
      rw [hbound, if_neg Bool.false_ne_true] at h
      obtain ⟨store', t', hafter, hrun⟩ :=
        writeMembers_settles order hproper hkinds hapart hwithin hsteady hstore h
      refine ⟨store', t', hafter, hrun.holds, hrun.grows, hrun.length, ?_, ?_⟩
      · exact fun q hq => hrun.frame q (List.forall_mem_cons.1 hq).2
      · refine List.forall_mem_cons.2 ⟨?_, hrun.steady⟩
        dsimp only at hhead ⊢
        rw [hrun.frame p hfirst]
        exact hhead.mono hrun.grows.heap
    | true =>
      rw [hbound, if_pos rfl] at h
      split at h
      · cases h
      rename_i window heap₁ hwrite
      have hvalue : ((value? p.name position).getD .null).WellFormed := by
        cases hv : value? p.name position with
        | none => trivial
        | some v => exact hproper p.name position v hv
      obtain ⟨store₁, t₁, rfl, hstore₁, hgrows₁, hlen, hread⟩ :=
        hkind _ hvalue store t window heap₁ hstore hwrite
      have hsplice : (splice buffer p.offset window).length = buffer.length := by
        refine length_splice ?_
        rw [hlen]
        exact hstop
      have hother : ∀ q : Placement, q.Apart p →
          q.window (splice buffer p.offset window) = q.window buffer :=
        fun q hq => Placement.window_splice_of_apart hq hlen hstop
      have hrest : ∀ m ∈ rest, Steady (σ := σ) t₁.heap (m.kind.read m.placement order
          (m.placement.window (splice buffer p.offset window))) := by
        intro m hm
        rw [hother m.placement (hfirst m hm).symm]
        exact (hsteady m hm).mono hgrows₁.heap
      obtain ⟨store', t', hafter, hrun⟩ := writeMembers_settles order hproper hkinds hapart
        (fun m hm => hsplice ▸ hwithin m hm) hrest hstore₁ h
      refine ⟨store', t', hafter, hrun.holds, hgrows₁.trans hrun.grows,
        hrun.length.trans hsplice, ?_, ?_⟩
      · intro q hq
        obtain ⟨hqp, hq⟩ := List.forall_mem_cons.1 hq
        rw [hrun.frame q hq, hother q hqp]
      · refine List.forall_mem_cons.2 ⟨?_, hrun.steady⟩
        dsimp only
        rw [hrun.frame p hfirst, Placement.window_splice_self hlen hstop]
        exact hread.mono hrun.grows.heap

/-! ### Whole records -/

namespace Schema

/-- **One level**: if nested records settle, so do those of this schema. -/
theorem settled_of_laidOut {rules : ViewRules} {s : Schema} (hs : s.LaidOut rules)
    (hn : ∀ m ∈ s.members, ∀ t, m.placement.nested = some t → t.Settled σ) : s.Settled σ := by
  intro width value? hw hproper store t row after hstore hwrite
  rw [write_eq] at hwrite
  split at hwrite
  swap
  · cases hwrite
  rename_i hwidth
  have hkinds : ∀ m ∈ s.members, ∀ v : Value, v.WellFormed →
      Settles (σ := σ) m.placement.footprint (m.kind.write m.placement s.settings.byteOrder v)
        (m.kind.read m.placement s.settings.byteOrder) := by
    intro m hm v hv
    have hc := hs.checked m hm
    have hfoot : m.placement.footprint < 2 ^ 63 := (hs.footprint_le hm).trans_lt (by omega)
    exact Kind.settles _ hc hfoot (Kind.suits hc (hs.chosen m hm)) (hn m hm) hv
  have hlen : (Codec.zeros s.totalSize).length = s.totalSize := List.length_replicate
  have hzeros : ∀ m ∈ s.members, Steady (σ := σ) t.heap (m.kind.read m.placement
      s.settings.byteOrder (m.placement.window (Codec.zeros s.totalSize))) := by
    intro m hm
    rw [Placement.window_zeros (hs.within m hm)]
    exact .of_eq fun heap heap' => m.kind.read_zeros m.placement _ heap heap' _
  obtain ⟨store', t', hafter, hrun⟩ := writeMembers_settles _ hproper hkinds hs.apart
    (fun m hm => (hs.within m hm).trans hlen.ge) hzeros hstore hwrite
  refine ⟨store', t', hafter, hrun.holds, hrun.grows, ?_, ?_⟩
  · exact (hrun.length.trans hlen).trans hwidth.symm
  · intro early late hearly hlate
    exact List.map_congr_left fun m hm => hrun.steady m hm early late hearly hlate

/-- **Records of a built schema settle.** -/
theorem Built.settled {s : Schema} (h : s.Built) : s.Settled σ := by
  induction h with
  | intro here _ ih =>
    obtain ⟨b, hb⟩ := here
    exact settled_of_laidOut (Blueprint.laidOut_of_build hb).1 ih

/-- Each member of the one schema lies and is coded as a member of the other, whatever receives
it. -/
structure Overlays (a b : Schema) : Prop where
  totalSize : a.totalSize = b.totalSize
  byteOrder : a.settings.byteOrder = b.settings.byteOrder
  members : ∀ m ∈ a.members, ∃ n ∈ b.members, m.placement = n.placement ∧ m.kind = n.kind

theorem Overlays.refl (s : Schema) : s.Overlays s := ⟨rfl, rfl, fun m hm => ⟨m, hm, rfl, rfl⟩⟩

variable {a b : Schema} {objects : List Bytes} {row : Bytes}

/-- A row that is read alike is read alike by every schema that overlays its own. -/
theorem Overlays.unpack_steady (h : a.Overlays b)
    (hsteady : Steady (σ := σ) objects (b.contents row)) (ρ : Type) [RecordAccess ρ] :
    Steady (σ := σ) objects (a.unpack ρ row) := by
  refine hsteady.imp fun heap heap' hcontents => ?_
  have hreadings : a.readings row heap = a.readings row heap' := by
    refine readings_eq_of_contents (List.map_congr_left fun m hm => ?_)
    obtain ⟨n, hn, hplace, hkind⟩ := h.members m hm
    rw [hplace, hkind, h.byteOrder]
    exact List.map_inj_left.1 hcontents n hn
  unfold unpack
  rw [hreadings]

end Schema

end Steady

/-- Schemas of one description overlay each other: a type may be read for another shape than it
was written for. -/
theorem Description.overlays {d : Description} {shape other : Shape} {a b : Schema}
    (ha : d.toSchema shape = .ok a) (hb : d.toSchema other = .ok b) : a.Overlays b := by
  obtain ⟨ps, hps, ha⟩ := toSchema_eq ha
  obtain ⟨qs, hqs, hb⟩ := toSchema_eq hb
  cases hps.symm.trans hqs
  obtain ⟨-, -, hsettings, hsize, hmembers⟩ := Blueprint.build_stated rfl rfl ha
  obtain ⟨-, -, hsettings', hsize', hmembers'⟩ := Blueprint.build_stated rfl rfl hb
  refine ⟨Except.ok.inj (hsize.symm.trans hsize'), ?_, fun m hm => ?_⟩
  · rw [hsettings, hsettings']
  · obtain ⟨hplaces, hmember⟩ := Blueprint.members_eq hmembers
    obtain ⟨hplaces', hmember'⟩ := Blueprint.members_eq hmembers'
    have hp : m.placement ∈ b.members.map Member.placement :=
      hplaces'.symm ▸ hplaces ▸ List.mem_map_of_mem hm
    obtain ⟨n, hn, hplace⟩ := List.mem_map.1 hp
    refine ⟨n, hn, hplace.symm, ?_⟩
    have hkind := hmember m hm
    have hkind' := hmember' n hn
    unfold Blueprint.member at hkind hkind'
    rw [hplace] at hkind'
    rcases hk : Kind.ofPlacement {} { byteOrder := d.byteOrder } m.placement with _ | kind <;>
      simp only [hk, Except.map] at hkind hkind'
    · cases hkind
    · rw [← Except.ok.inj hkind, ← Except.ok.inj hkind']

end PackedRecord
