import PackedRecord.Proofs.FixedTexts
import PackedRecord.Proofs.StableRecords

/-!
# Records of zeros

A window of zeros reads as some value whatever the codec, and that value is written as zeros again.
No heap is needed either way, since a slot of zeros holds the handle of no object.

* `Scalar.zero`, `Schema.zero` — what zeros read as, by recursion over the codecs.
* `Scalar.read_zero`, `Scalar.write_zero` — one lemma for each direction, by cases on the codec.
* `Schema.ZeroStable` — both directions for whole records; `Schema.BuiltPlainly.zeroStable` by
  induction over nested schemas.
-/

namespace PackedRecord

/-! ## Values that zeros read as -/

/-- What a window of zeros reads as. -/
def Scalar.zero (width : Nat) : Scalar → Value
  | bool => .bool false
  | integer signed => .number (if signed then .int 0 else .nat 0)
  | float => .number (.float ⟨0⟩)
  | fixedText _ => .text ""
  | varyingText _ | varyingBytes => .null
  | enumeration table => .choice (table.read 0)
  | bitField => .bits (List.replicate ((width + 7) / 8) 0)
  | timestamp _ => .instant .epoch
  | duration unit => .span ⟨0, unit⟩
  | raw => .bytes (Codec.zeros width)

mutual

/-- What a member of zeros reads as. -/
def Kind.zero (p : Placement) : Kind → Value
  | .single element => element.zero p.footprint
  | .array element => .array p.dims (List.replicate p.elements (element.zero p.elementWidth))

/-- What an element of zeros reads as. -/
def Element.zero (width : Nat) : Element → Value
  | .scalar codec => codec.zero width
  | .record schema => .fields schema.zero

/-- What a record of zeros reads as. -/
def Schema.zero : Schema → Fields
  | ⟨_, members, outline, _, _⟩ =>
    Assoc.insertAll (zeroEntries (outline.kind == .positional) members) []

/-- What members of zeros read as; a positional record has nulls for those it does not receive. -/
def zeroEntries (positional : Bool) : List Member → List (String × Value)
  | [] => []
  | ⟨p, kind, binding⟩ :: rest =>
    if binding.isBound then (p.name, kind.zero p) :: zeroEntries positional rest
    else if positional then (p.name, .null) :: zeroEntries positional rest
    else zeroEntries positional rest

end

/-- What a member of zeros gives to a record, null if the record does not receive it. -/
def Member.zero (m : Member) : Value := if m.isMapped then m.kind.zero m.placement else .null

theorem zeroEntries_eq (positional : Bool) (ms : List Member) : zeroEntries positional ms =
    (ms.filter (Member.isRead positional)).map fun m => (m.name, m.zero) := by
  induction ms with
  | nil => rfl
  | cons m rest ih =>
    obtain ⟨p, kind, binding⟩ := m
    rw [zeroEntries, ih]
    cases hb : binding.isBound <;> cases positional <;>
      simp [Member.isRead, Member.isMapped, Member.zero, Member.name, hb]

namespace Schema

variable {s : Schema}

theorem zero_eq (s : Schema) : s.zero = Assoc.insertAll
    ((s.members.filter (Member.isRead s.isPositional)).map fun m => (m.name, m.zero)) [] := by
  cases s
  rw [zero, zeroEntries_eq]
  rfl

/-- The zero record has the zero of each member that is read. -/
theorem get?_zero (hnames : (s.members.map Member.name).Nodup) {m : Member} (hm : m ∈ s.members)
    (hread : m.isRead s.isPositional = true) : Assoc.get? m.name s.zero = some m.zero := by
  have hkeys : ((s.members.filter (Member.isRead s.isPositional)).map fun m =>
      (m.name, m.zero)).map Prod.fst =
        (s.members.filter (Member.isRead s.isPositional)).map Member.name := by
    rw [List.map_map]
    rfl
  rw [zero_eq]
  refine Assoc.get?_insertAll_of_mem ?_ (List.mem_map.2 ⟨m, List.mem_filter.2 ⟨hm, hread⟩, rfl⟩)
  rw [hkeys]
  exact (List.filter_sublist.map Member.name).nodup hnames

theorem get?_zero_of_isMapped (hnames : (s.members.map Member.name).Nodup) {m : Member}
    (hm : m ∈ s.members) (hmapped : m.isMapped = true) :
    Assoc.get? m.name s.zero = some (m.kind.zero m.placement) := by
  rw [get?_zero hnames hm (by rw [Member.isRead, hmapped, Bool.true_or]), Member.zero,
    if_pos hmapped]

end Schema

/-! ## Scalars -/

namespace Word

theorem signedWord_zeros (order : ByteOrder) (n : Nat) :
    Codec.signedWord order (Codec.zeros n) = 0 := by
  rw [Codec.signedWord, Codec.zeros, readSigned, read_zeros, signedValue]
  split <;> simp_all

theorem unsignedWord_zeros (order : ByteOrder) (n : Nat) :
    Codec.unsignedWord order (Codec.zeros n) = 0 := by
  rw [Codec.unsignedWord, Codec.zeros, read_zeros]
  rfl

end Word

namespace Codec

variable (order : ByteOrder) (width : Nat)

theorem readBits_zeros :
    readBits order (zeros width) = .bits (List.replicate ((width + 7) / 8) 0) := by
  obtain ⟨words, hwords, hcount, hnumber⟩ := bitNumber_of_readBits order (zeros width)
  rw [zeros, List.length_replicate] at hcount
  rw [zeros, Word.read_zeros] at hnumber
  rw [hwords, bitNumber_inj (hcount.trans List.length_replicate.symm)
    (hnumber.trans (bitNumber_replicate _).symm)]

theorem writeBits_zero (name : String) (count : Nat) :
    writeBits name order width (.bits (List.replicate count 0)) = .ok (zeros width) := by
  have hfits : Word.FitsUnsigned width (bitNumber (List.replicate count 0)) := by
    rw [bitNumber_replicate]
    exact Nat.pow_pos (by decide)
  rw [writeBits_bits, if_pos hfits, bitNumber_replicate, Word.write_zero]
  rfl

theorem readChoice_zeros (table : EnumTable) :
    readChoice order table (zeros width) = .choice (table.read 0) := by
  rw [readChoice_eq, readCode, Word.signedWord_zeros, Word.unsignedWord_zeros]
  split <;> rfl

theorem epoch_isAt (unit : Time.Unit) : Time.Instant.epoch.IsAt unit 0 := by
  refine ⟨by constructor <;> decide, ?_⟩
  simp [Time.Instant.fromEpoch, Time.Instant.epoch]

end Codec

namespace Scalar

variable {σ : Type} [Heap σ] (name : String) (order : ByteOrder) {width : Nat} {codec : Scalar}

/-- **Zeros are read without a heap**, by every codec. -/
theorem read_zero (hs : codec.Suits width) (heap : Option σ) :
    codec.read name order (Codec.zeros width) heap = .ok (codec.zero width) := by
  cases codec with
  | bool => simp [read, zero, Codec.readFlag, Codec.zeros]
  | integer signed =>
    rw [read, Codec.readInteger, Word.signedWord_zeros, Word.unsignedWord_zeros]
    rfl
  | float =>
    rcases hs with rfl | rfl
    · rw [read, Codec.readFloat, if_pos (by simp [Codec.zeros]), Codec.zeros, Word.read_zeros]
      rfl
    · rw [read, Codec.readFloat, if_neg (by simp [Codec.zeros]), Word.unsignedWord_zeros]
      rfl
  | fixedText charset =>
    have hread := Codec.readFixedText_encode "" width
    exact congrArg Except.ok hread
  | varyingText charset =>
    rw [read, Codec.readVaryingText, Codec.loadContent_zeros]
    rfl
  | varyingBytes =>
    rw [read, Codec.readVaryingBytes, Codec.loadContent_zeros]
    rfl
  | enumeration table => exact congrArg Except.ok (Codec.readChoice_zeros order width table)
  | bitField => exact congrArg Except.ok (Codec.readBits_zeros order width)
  | timestamp unit =>
    refine congrArg Except.ok (Codec.readTimestamp_instant_iff.2 ?_)
    rw [Word.signedWord_zeros]
    exact Codec.epoch_isAt unit
  | duration unit =>
    rw [read, Codec.readDuration, Word.signedWord_zeros]
    rfl
  | raw => rfl

/-- **The zero of a codec of fixed length is written as zeros.** -/
theorem write_zero (hs : codec.Suits width) (hpos : 0 < width)
    (ht : ∀ table, codec = .enumeration table → table.Distinct)
    (hfixed : codec.isVarying = false) (heap : Option σ) :
    codec.write name order width (codec.zero width) heap = (.ok (Codec.zeros width), heap) := by
  cases codec with
  | bool | fixedText | raw => exact write_blank name order hs hpos rfl heap
  | integer signed =>
    cases signed with
    | true => exact congrArg (·, heap) (writeSigned_zero name order width)
    | false => exact congrArg (·, heap) (writeUnsigned_zero name order width)
  | float =>
    rcases hs with rfl | rfl
    · exact congrArg (fun bytes => (Except.ok bytes, heap)) (Word.write_zero order 4)
    · exact congrArg (fun bytes => (Except.ok bytes, heap)) (Word.write_zero order 8)
  | varyingText charset => cases hfixed
  | varyingBytes => cases hfixed
  | enumeration table =>
    have hcode := (EnumTable.code_of_holds (ht table rfl) (Codec.holds_read 0)).1
    have hblank := write_blank (σ := σ) name order hs hpos hfixed heap
    -- The zero and the blank choice have the same code.
    refine Eq.trans (congrArg (·, heap) ?_) hblank
    rw [zero, Codec.writeChoice_eq, hcode]
    rfl
  | bitField => exact congrArg (·, heap) (Codec.writeBits_zero order width name _)
  | timestamp unit =>
    have hepoch : Codec.writeTimestamp name order width unit (.instant .epoch) =
        Codec.writeSigned name order width 0 := Codec.writeTimestamp_of_isAt (Codec.epoch_isAt unit)
    exact congrArg (·, heap) (hepoch.trans (writeSigned_zero name order width))
  | duration unit =>
    exact congrArg (·, heap)
      ((Codec.writeDuration_count ..).trans (writeSigned_zero name order width))

end Scalar

/-! ## Elements and members -/

/-- A record of zeros is read without a heap as the zero record, and that is written as zeros
without a heap. -/
structure Schema.ZeroStable (σ : Type) [Heap σ] (s : Schema) : Prop where
  unpack : ∀ heap : Option σ, s.unpack Fields (Codec.zeros s.totalSize) heap = .ok s.zero
  pack : ∀ heap : Option σ, s.pack s.zero heap = (.ok (Codec.zeros s.totalSize), heap)

variable {σ : Type} [Heap σ] (name : String) (order : ByteOrder)

/-- What has to hold of an element in windows of some width: its codec suits them, its tables are
well formed, and records nested in it fill them and are stable themselves. -/
structure Element.ZeroStable (σ : Type) [Heap σ] (nested : Option Schema) (width : Nat)
    (element : Element) : Prop where
  pos : 0 < width
  suits : element.Suits nested width
  tables : ∀ table, element = .scalar (.enumeration table) → table.Distinct
  records : ∀ t, element = .record t → t.totalSize = width ∧ t.ZeroStable σ

namespace Element

variable {nested : Option Schema} {width : Nat} {element : Element}

theorem read_zero (h : element.ZeroStable σ nested width) (heap : Option σ) :
    element.read name order (Codec.zeros width) heap = .ok (element.zero width) := by
  cases element with
  | scalar codec => exact codec.read_zero name order h.suits heap
  | record t =>
    obtain ⟨rfl, hstable⟩ := h.records t rfl
    rw [read_record, hstable.unpack]
    rfl

theorem write_zero (h : element.ZeroStable σ nested width)
    (hpresent : (element.zero width).isNull = false) (heap : Option σ) :
    element.write name order width (element.zero width) heap = (.ok (Codec.zeros width), heap) := by
  cases element with
  | scalar codec =>
    have hfixed : codec.isVarying = false := by
      cases codec with
      | varyingText | varyingBytes => cases hpresent
      | _ => rfl
    exact codec.write_zero name order h.suits h.pos
      (fun table htable => h.tables table (congrArg Element.scalar htable)) hfixed heap
  | record t =>
    obtain ⟨rfl, hstable⟩ := h.records t rfl
    exact hstable.pack heap

end Element

theorem readRun_replicate {read : Bytes → Except Error Value} {window : Bytes} {v : Value}
    (hread : read window = .ok v) : ∀ n : Nat,
    readRun read (List.replicate n window) = .ok (List.replicate n v)
  | 0 => rfl
  | n + 1 => by
    rw [List.replicate_succ, readRun, hread, readRun_replicate hread n]
    rfl

theorem Codec.runs_zeros (width count : Nat) :
    runs width count (zeros (width * count)) = List.replicate count (zeros width) :=
  List.eq_replicate_iff.2 ⟨length_runs .., fun _ hrun => eq_zeros_of_mem_runs hrun (Nat.le_refl _)⟩

namespace Kind

variable {p : Placement} {kind : Kind}

/-- The codec of the elements suits their windows. -/
theorem Suits.element (hs : kind.Suits p) : kind.element.Suits p.nested (kind.slot p) := by
  cases kind with
  | single element => exact hs
  | array element => exact hs.2

theorem slot_pos (hc : p.Checked) (hs : kind.Suits p) : 0 < kind.slot p := by
  cases kind with
  | single element => exact hc.footprint_pos
  | array element => exact hc.elementWidth_pos hs.1

/-- A member of fixed length is as long as its elements together. -/
theorem footprint_of_suits {element : Element} (hs : (Kind.array element).Suits p)
    (hf : p.footprint < 2 ^ 63) : p.footprint = p.elementWidth * p.elements :=
  Placement.footprint_eq hs.1 hf

theorem read_zero (hs : kind.Suits p) (hf : p.footprint < 2 ^ 63)
    (h : kind.element.ZeroStable σ p.nested (kind.slot p)) (heap : Option σ) :
    kind.read p order (Codec.zeros p.footprint) heap = .ok (kind.zero p) := by
  cases kind with
  | single element => exact element.read_zero p.name order h heap
  | array element =>
    have hread := element.read_zero p.name order h heap
    rw [Kind.read, footprint_of_suits hs hf, Codec.runs_zeros, readRun_replicate hread]
    rfl

theorem write_zero (hs : kind.Suits p) (hf : p.footprint < 2 ^ 63)
    (h : kind.element.ZeroStable σ p.nested (kind.slot p)) (heap : Option σ) :
    kind.write p order (kind.zero p) heap = (.ok (Codec.zeros p.footprint), heap) := by
  cases kind with
  | single element =>
    cases hpresent : (element.zero p.footprint).isNull with
    | true =>
      have hnull : (Kind.single element).zero p = .null := Value.eq_null_of_isNull hpresent
      rw [hnull, Kind.write_null]
    | false =>
      rw [Kind.write, zero, hpresent, if_neg Bool.false_ne_true]
      exact element.write_zero p.name order h hpresent heap
  | array element =>
    have hrun := writeRun_zeros (element.write_zero (σ := σ) p.name order h) heap p.elements
    simp only [footprint_of_suits hs hf, Kind.write, zero, if_true]
    exact hrun

end Kind

/-! ## Records -/

namespace Schema

variable {s : Schema}

/-- **One level of stability**: if the elements of the members are stable, so is the record. -/
theorem zeroStable_of_laidOut {rules : ViewRules} (hs : s.LaidOut rules)
    (hsize : s.totalSize < 2 ^ 63)
    (h : ∀ m ∈ s.members,
      m.kind.element.ZeroStable σ m.placement.nested (m.kind.slot m.placement)) :
    s.ZeroStable σ := by
  have hsuits := fun m hm => Kind.suits (hs.checked m hm) (hs.chosen m hm)
  have hfoot : ∀ m ∈ s.members, m.placement.footprint < 2 ^ 63 :=
    fun m hm => (hs.footprint_le hm).trans_lt hsize
  have hvalue : ∀ m ∈ s.members, m.isRead s.isPositional = true → m.valueIn s.zero = m.zero := by
    intro m hm hread
    rw [Member.valueIn, get?_zero hs.names hm hread, Option.getD_some]
  have hmapped : ∀ m ∈ s.members, m.isMapped = true →
      m.valueIn s.zero = m.kind.zero m.placement := by
    intro m hm hmapped
    rw [Member.valueIn, get?_zero_of_isMapped hs.names hm hmapped, Option.getD_some]
  constructor
  · intro heap
    have hread : ∀ m ∈ s.members, m.isMapped = true → m.kind.read m.placement s.settings.byteOrder
        (m.placement.window (Codec.zeros s.totalSize)) heap = .ok (m.valueIn s.zero) := by
      intro m hm hm'
      rw [window_zeros (hs.within m hm), hmapped m hm hm']
      exact m.kind.read_zero _ (hsuits m hm) (hfoot m hm) (h m hm) heap
    have hnull : ∀ m ∈ s.members, m.isMapped = false → s.isPositional = true →
        m.valueIn s.zero = .null := by
      intro m hm hm' hpositional
      rw [hvalue m hm (by rw [Member.isRead, hpositional, Bool.or_true]), Member.zero, hm']
      rfl
    have hlen : (Codec.zeros s.totalSize).length = s.totalSize := List.length_replicate
    have hentries : ((s.members.filter (Member.isRead s.isPositional)).map fun m =>
        (m.name, m.valueIn s.zero)) =
          (s.members.filter (Member.isRead s.isPositional)).map fun m => (m.name, m.zero) := by
      refine List.map_congr_left fun m hm => ?_
      obtain ⟨hm, hisRead⟩ := List.mem_filter.1 hm
      rw [hvalue m hm hisRead]
    rw [s.unpack_eq hlen, fill_readMembers hread hnull, hentries, zero_eq]
  · intro heap
    rw [pack_eq]
    refine writeMembers_zeros _ (fun m hm hm' i heap => ?_) (fun m hm => ?_) 0 heap
    · have hget : (RecordAccess.field? s.zero m.name i).getD .null = m.valueIn s.zero := rfl
      rw [hget, hmapped m hm hm']
      exact m.kind.write_zero _ (hsuits m hm) (hfoot m hm) (h m hm) heap
    · exact ⟨(hs.within m hm).trans List.length_replicate.ge, window_zeros (hs.within m hm)⟩

/-- **Records of zeros are stable** where schemas were built without overrides. -/
theorem BuiltPlainly.zeroStable (hs : s.BuiltPlainly) (ht : s.TablesDistinct)
    (hsize : s.totalSize < 2 ^ 63) : s.ZeroStable σ := by
  induction hs with
  | @intro s here _ ih =>
    obtain ⟨b, hrules, hb⟩ := here
    obtain ⟨ht, htn⟩ := ht
    have hl := (Blueprint.laidOut_of_build hb).1
    refine zeroStable_of_laidOut hl hsize fun m hm => ?_
    have hc := hl.checked m hm
    have hchosen := hl.chosen m hm
    have hsuits := Kind.suits hc hchosen
    refine ⟨Kind.slot_pos hc hsuits, hsuits.element, ht m hm, fun t hrecord => ?_⟩
    have hnested := Kind.nested_of_element hchosen hrecord
    have hfills := Kind.fills_iff.1 (Kind.fills hc (hrules ▸ hchosen)) t hrecord
    refine ⟨hfills, ih m hm t hnested (htn m hm t hnested) ?_⟩
    have hfoot := (hl.footprint_le hm).trans_lt hsize
    have hslot := (Kind.slot_le hc hchosen hfoot).1
    omega

end Schema

end PackedRecord
