import Mathlib.Algebra.Order.BigOperators.Group.List
import Mathlib.Data.List.Forall2
import PackedRecord.Proofs.ExactCoverage
import PackedRecord.Proofs.FixedTexts
import PackedRecord.Proofs.SingleReads

/-!
# Strings of a declared length

The width of a string field is inferred from its length, with so many bytes for each character,
while the codec counts the bytes that a text really has.  UTF-8 sets two bytes aside for a
character but may need four, so that a text of the declared length can be refused.  The width is a
machine word: lengths for which it wraps around leave too little room for any character set.

* `Blueprint.DeclaresText` — a string field that is stored by an inferred placement.
* `Blueprint.DeclaresText.exists_member` — the member that stores it.
* `Schema.KeepsText` — a text is taken and read back.
* `declared_length_honoured_iff` — which texts are kept, and when all of the declared length are.
* `declared_length_refused` — one character that does not fit a string of length one.
-/

namespace PackedRecord

attribute [local instance] corePow

/-! ## Bytes of a text -/

namespace Text.Utf8

/-- A text of characters of bounded size has a bounded size. -/
theorem utf8ByteSize_le {t : String} {k : Nat} (h : ∀ c ∈ t.toList, c.utf8Size ≤ k) :
    t.utf8ByteSize ≤ t.length * k := by
  rw [← length_encode, encode, List.length_flatMap, ← String.length_toList]
  have hsum := List.sum_le_card_nsmul (t.toList.map fun c => (encodeChar c).length) k <| by
    intro n hn
    obtain ⟨c, hc, rfl⟩ := List.mem_map.1 hn
    rw [length_encodeChar]
    exact h c hc
  simpa using hsum

/-- A repeated character has its size so many times. -/
theorem utf8ByteSize_replicate (c : Char) (n : Nat) :
    (String.ofList (List.replicate n c)).utf8ByteSize = n * c.utf8Size := by
  rw [← length_encode, encode, String.toList_ofList]
  simp [length_encodeChar]

/-- Characters of ASCII take one byte. -/
theorem utf8Size_of_isAscii {t : String} (h : isAscii t = true) {c : Char} (hc : c ∈ t.toList) :
    c.utf8Size ≤ 1 := by
  have hlt := isAscii_iff.1 h c hc
  rw [utf8Size_eq, if_pos (by omega)]

end Text.Utf8

/-! ## Inferred members -/

/-- Some field is a string of a length, which is a machine word, and of a character set.  No
placement is stated for it, and no override applies to the one that is inferred. -/
structure Blueprint.DeclaresText (b : Blueprint) (name : String) (length : Nat)
    (charset : Charset) : Prop where
  word : length < 2 ^ 64
  declared : ∃ encoding, ⟨name, .string length encoding⟩ ∈ b.shape.fields ∧
    encoding.getD b.settings.charset = charset
  inferred : ∀ stated, b.placements = some stated →
    b.inferMissing = true ∧ name ∉ stated.map Placement.name
  plain : Assoc.get? ⟨.string, Placement.sizeOfCount (charset.widthOf length), 0, none⟩
    b.rules.overrides = none

/-- The member holds a text of a width, or a handle if that width is a negative size. -/
structure Member.HoldsText (m : Member) (width : Nat) (charset : Charset) : Prop where
  fixed : ¬Placement.Wraps width → m.kind = .single (.scalar (.fixedText charset)) ∧
    m.placement.footprint = width
  varying : Placement.Wraps width → m.kind = .single (.scalar (.varyingText charset)) ∧
    m.placement.footprint = Handle.width

namespace Blueprint

variable {b : Blueprint} {ps : List Placement} {s : Schema}

theorem exists_of_packFields {settings : Settings} {start : Nat} {fields : List Field}
    (h : packFields settings start fields = .ok ps) {f : Field} (hf : f ∈ fields) :
    ∃ p ∈ ps, ∃ placed, f.type.infer f.name settings = .ok placed ∧ p = placed.moveTo p.offset := by
  obtain ⟨i, hi⟩ := List.getElem?_of_mem hf
  have hrel := getElem?_rel (dense_of_packFields h).2.flip i
  rw [hi] at hrel
  rcases hp : ps[i]? with _ | p <;> rw [hp] at hrel <;> cases hrel
  rename_i hplaced
  exact ⟨p, List.mem_of_getElem? hp, hplaced⟩

/-- A field without a stated placement is stored by the inferred one. -/
theorem Stages.exists_inferred (h : b.Stages ps s) {f : Field} (hf : f ∈ b.shape.fields)
    (hinferred : ∀ stated, b.placements = some stated →
      b.inferMissing = true ∧ f.name ∉ stated.map Placement.name) :
    ∃ m ∈ s.members, ∃ placed, f.type.infer f.name b.settings = .ok placed ∧
      m.placement = placed.moveTo m.placement.offset := by
  have hplaced : ∃ p ∈ ps, ∃ placed, f.type.infer f.name b.settings = .ok placed ∧
      p = placed.moveTo p.offset := by
    have hlaid := h.laidOut
    unfold layOut at hlaid
    split at hlaid
    · exact exists_of_packFields hlaid hf
    · rename_i stated hstated
      obtain ⟨hmissing, hnot⟩ := hinferred stated hstated
      rw [if_pos hmissing] at hlaid
      dsimp only at hlaid
      rcases hpack : packFields b.settings (extentOf stated)
          (b.shape.fields.filter fun f => !stated.any fun p => p.name == f.name) with _ | later <;>
        simp only [hpack, Except.map] at hlaid
      · cases hlaid
      obtain ⟨p, hp, hplaced⟩ := exists_of_packFields hpack
        (List.mem_filter.2 ⟨hf, by simpa using hnot⟩)
      cases hlaid
      exact ⟨p, List.mem_append_right _ hp, hplaced⟩
  obtain ⟨p, hp, placed, hinfer, hmoved⟩ := hplaced
  rw [← h.placements] at hp
  obtain ⟨m, hm, rfl⟩ := List.mem_map.1 hp
  exact ⟨m, hm, placed, hinfer, hmoved⟩

end Blueprint

/-- A string placement without extents holds a text of its width. -/
theorem Member.holdsText_of_placement {rules : ViewRules} {settings : Settings} {m : Member}
    {width : Nat} (hchosen : Kind.ofPlacement rules settings m.placement = .ok m.kind)
    (hclass : m.placement.storageClass = .string) (hdims : m.placement.dims = [])
    (hmeaning : m.placement.meaning = none)
    (hsize : m.placement.size = Placement.sizeOfCount width)
    (hplain : Assoc.get? ⟨.string, Placement.sizeOfCount width, 0, none⟩ rules.overrides = none) :
    m.HoldsText width m.placement.charset := by
  have harray : m.placement.isArray = false := by simp [Placement.isArray, hdims]
  have hkey : m.placement.viewKey = ⟨.string, Placement.sizeOfCount width, 0, none⟩ := by
    simp [Placement.viewKey, Placement.rank, hclass, hdims, hmeaning, hsize]
  have hview : m.placement.view rules = .string := by
    rw [Placement.view, ViewRules.resolve, hkey, hplain]
    rfl
  have hkind : m.kind = .single (.scalar (if m.placement.isVarying then
      .varyingText m.placement.charset else .fixedText m.placement.charset)) := by
    rw [Kind.ofPlacement, harray, if_neg Bool.false_ne_true, hview,
      Element.ofView_string] at hchosen
    exact (Except.ok.inj hchosen).symm
  have hvarying := Placement.isVarying_of_count hsize
  refine ⟨fun hfixed => ?_, fun hwraps => ?_⟩
  · rw [hkind, hvarying, decide_eq_false hfixed, if_neg Bool.false_ne_true,
      Placement.footprint_of_not_isArray harray, Placement.elementWindow_of_count hsize hfixed]
    exact ⟨rfl, rfl⟩
  · rw [decide_eq_true hwraps] at hvarying
    rw [hkind, hvarying, if_pos rfl, Placement.footprint_of_varying hvarying]
    exact ⟨rfl, rfl⟩

/-- **The field is stored by one member, which the record receives.** -/
theorem Blueprint.DeclaresText.exists_member {b : Blueprint} {s : Schema} {name : String}
    {length : Nat} {charset : Charset} (hd : b.DeclaresText name length charset)
    (h : b.build = .ok s) : ∃ m ∈ s.members, m.name = name ∧ m.isMapped = true ∧
      m.HoldsText (charset.widthOf length) charset := by
  obtain ⟨encoding, hf, rfl⟩ := hd.declared
  obtain ⟨ps, hstages⟩ := stages_of_build h
  obtain ⟨hs, houtline, -⟩ := laidOut_of_build h
  obtain ⟨m, hm, placed, hinfer, hmoved⟩ := hstages.exists_inferred hf hd.inferred
  cases hinfer
  have hname : m.name = name := congrArg Placement.name hmoved
  have hcharset : m.placement.charset = encoding.getD b.settings.charset :=
    congrArg Placement.charset hmoved
  refine ⟨m, hm, hname, ?_, ?_⟩
  · rw [hs.isMapped_iff hm, hname, houtline]
    exact .inr (List.mem_map_of_mem hf)
  · rw [← hcharset]
    have hplain := hd.plain
    rw [← hcharset] at hplain
    refine Member.holdsText_of_placement (hs.chosen m hm) (congrArg Placement.storageClass hmoved)
      (congrArg Placement.dims hmoved) (congrArg Placement.meaning hmoved) ?_ hplain
    rw [hcharset]
    exact congrArg Placement.size hmoved

/-! ## Records of one text -/

namespace Schema

/-- A record of that text alone is written without a heap, and the text is read back from it. -/
def KeepsText (s : Schema) (name t : String) : Prop :=
  ∀ {σ : Type} [Heap σ] (heap later : Option σ), ∃ bytes,
    s.pack ([(name, .text t)] : Fields) heap = (.ok bytes, heap) ∧
    s.unpackMember bytes name later = .ok (.text t)

/-- The text is refused: it needs more bytes than the width of the member. -/
def RefusesText (s : Schema) (name t : String) (width : Nat) : Prop :=
  ∀ {σ : Type} [Heap σ] (heap : Option σ), s.pack ([(name, .text t)] : Fields) heap =
    (.error (.textTooLong name (t.utf8ByteSize + 1) width), heap)

/-- Every heap that takes content of the size of the text keeps it, and gives it back later; without
a heap there is nothing to keep it. -/
structure KeepsTextOnHeap (s : Schema) (name t : String) : Prop where
  kept : ∀ {σ : Type} [Heap σ] [LawfulHeap σ] (heap : σ), LawfulHeap.Sound heap →
    t.utf8ByteSize < 2 ^ 32 → ∃ bytes heap',
      s.pack ([(name, .text t)] : Fields) (some heap) = (.ok bytes, some heap') ∧
      ∀ later : σ, LawfulHeap.Extends heap' later → LawfulHeap.Addressable later →
        s.unpackMember bytes name (some later) = .ok (.text t)
  refused : ∀ {σ : Type} [Heap σ],
    s.pack ([(name, .text t)] : Fields) (none : Option σ) = (.error (.heapMissing name), none)

variable {σ : Type} [Heap σ] {s : Schema} {rules : ViewRules} {m : Member}

/-- A record of one value is read from the window that its member wrote. -/
theorem LaidOut.pack_single_ok (hs : s.LaidOut rules) (hm : m ∈ s.members)
    (hmapped : m.isMapped = true) {v : Value} {heap after : Option σ} {window : Bytes}
    (hwrite : m.kind.write m.placement s.settings.byteOrder v heap = (.ok window, after))
    (hlen : window.length = m.placement.footprint) :
    ∃ bytes, s.pack (m.single v) heap = (.ok bytes, after) ∧
      ∀ later : Option σ, s.unpackMember bytes m.name later =
        m.kind.read m.placement s.settings.byteOrder window later := by
  have hstop : m.placement.stop ≤ (Codec.zeros s.totalSize).length := by
    simpa [Codec.zeros] using hs.within m hm
  refine ⟨splice (Codec.zeros s.totalSize) m.placement.offset window, ?_, fun later => ?_⟩
  · rw [pack_single hs hm hmapped, hwrite]
    · rfl
    · rw [hwrite]
      rintro _ ⟨⟩
      exact hlen
  · rw [hs.unpackMember_eq _ hm, Placement.window_splice_self hlen hstop]
    rw [length_splice (by rw [hlen]; exact hstop), Codec.zeros, List.length_replicate]

theorem LaidOut.pack_single_error (hs : s.LaidOut rules) (hm : m ∈ s.members)
    (hmapped : m.isMapped = true) {v : Value} {heap after : Option σ} {e : Error}
    (hwrite : m.kind.write m.placement s.settings.byteOrder v heap = (.error e, after)) :
    s.pack (m.single v) heap = (.error e, after) := by
  rw [pack_single hs hm hmapped, hwrite]
  · rfl
  · rw [hwrite]
    exact nofun

/-! ## Which texts are kept -/

section Texts

variable {width : Nat} {charset : Charset} {t : String}

omit [Heap σ] in
theorem KeepsText.not_refuses {name : String} (h : s.KeepsText name t) :
    ¬s.RefusesText name t width := by
  intro hrefused
  obtain ⟨bytes, hpack, -⟩ := h (none : Option TransientStore) none
  cases hpack.symm.trans (hrefused none)

theorem LaidOut.keepsText (hs : s.LaidOut rules) (hm : m ∈ s.members) (hmapped : m.isMapped = true)
    (hkind : m.kind = .single (.scalar (.fixedText charset)))
    (hfoot : m.placement.footprint = width) (hnul : '\x00' ∉ t.toList) (hallows : charset.Allows t)
    (hfits : t.utf8ByteSize < width) : s.KeepsText m.name t := by
  intro σ _ heap later
  have hlen := Text.Utf8.length_encode t
  obtain ⟨window, hwrite, hwindow, hread⟩ :=
    Codec.fixedText_keeps m.name hnul hallows (by rwa [hlen])
  have hmember : m.kind.write m.placement s.settings.byteOrder (.text t) heap =
      (.ok window, heap) := by
    rw [hkind]
    exact Prod.ext (by rw [← hwrite, ← hfoot]; rfl) rfl
  obtain ⟨bytes, hpack, hunpack⟩ :=
    hs.pack_single_ok hm hmapped hmember (hwindow.trans hfoot.symm)
  refine ⟨bytes, hpack, ?_⟩
  rw [hunpack, hkind]
  exact congrArg Except.ok hread

theorem LaidOut.refusesText (hs : s.LaidOut rules) (hm : m ∈ s.members)
    (hmapped : m.isMapped = true) (hkind : m.kind = .single (.scalar (.fixedText charset)))
    (hfoot : m.placement.footprint = width) (hallows : charset.Allows t)
    (hlong : width ≤ t.utf8ByteSize) : s.RefusesText m.name t width := by
  intro σ _ heap
  have hwrite : Codec.writeFixedText m.name width charset (.text t) =
      .error (.textTooLong m.name (t.utf8ByteSize + 1) width) := by
    rw [Codec.writeFixedText, Codec.textBytes_of_allows m.name hallows]
    dsimp only
    rw [Text.Utf8.length_encode, if_pos (by omega)]
  refine hs.pack_single_error hm hmapped ?_
  rw [hkind]
  exact Prod.ext (by rw [← hwrite, ← hfoot]; rfl) rfl

theorem LaidOut.keepsTextOnHeap (hs : s.LaidOut rules) (hm : m ∈ s.members)
    (hmapped : m.isMapped = true) (hkind : m.kind = .single (.scalar (.varyingText charset)))
    (hfoot : m.placement.footprint = Handle.width) (hallows : charset.Allows t) :
    s.KeepsTextOnHeap m.name t := by
  refine ⟨fun {σ} _ _ heap hsound hsize => ?_, fun {σ} _ => ?_⟩
  · rw [← Text.Utf8.length_encode] at hsize
    obtain ⟨hrestores, hsucceeds⟩ := Codec.varyingText_roundTrips (σ := σ) m.name
      s.settings.byteOrder hallows hsize
    obtain ⟨window, heap', hwrite⟩ := hsucceeds heap
    obtain ⟨_, ⟨⟩, -, -, hwindow, hread⟩ := hrestores heap window _ hsound hwrite
    have hmember : m.kind.write m.placement s.settings.byteOrder (.text t) (some heap) =
        (.ok window, some heap') := by
      rw [hkind]
      exact hwrite
    obtain ⟨bytes, hpack, hunpack⟩ :=
      hs.pack_single_ok hm hmapped hmember (hwindow.trans hfoot.symm)
    refine ⟨bytes, heap', hpack, fun later hext haddr => ?_⟩
    rw [hunpack, hkind]
    exact hread later hext haddr
  · refine hs.pack_single_error hm hmapped ?_
    rw [hkind]
    change Codec.writeVaryingText m.name _ charset (.text t) none = _
    rw [Codec.writeVaryingText, Codec.textBytes_of_allows m.name hallows]
    rfl

end Texts

/-- **Which texts a member of some width keeps**: those that leave room for the terminator. -/
theorem LaidOut.keepsText_iff (hs : s.LaidOut rules) (hm : m ∈ s.members)
    (hmapped : m.isMapped = true) {width : Nat} {charset : Charset}
    (hholds : m.HoldsText width charset) (hfixed : ¬Placement.Wraps width) {t : String}
    (hnul : '\x00' ∉ t.toList) (hallows : charset.Allows t) :
    (s.KeepsText m.name t ↔ t.utf8ByteSize < width) ∧
    (s.RefusesText m.name t width ↔ width ≤ t.utf8ByteSize) := by
  obtain ⟨hkind, hfoot⟩ := hholds.fixed hfixed
  have hkeeps : t.utf8ByteSize < width → s.KeepsText m.name t :=
    hs.keepsText hm hmapped hkind hfoot hnul hallows
  have hrefuses : width ≤ t.utf8ByteSize → s.RefusesText m.name t width :=
    hs.refusesText hm hmapped hkind hfoot hallows
  refine ⟨⟨fun hkept => ?_, hkeeps⟩, ⟨fun hrefused => ?_, hrefuses⟩⟩
  · by_contra hlong
    exact KeepsText.not_refuses hkept (hrefuses (by omega))
  · by_contra hshort
    exact KeepsText.not_refuses (hkeeps (by omega)) hrefused

end Schema

/-! ## Texts of the declared length -/

namespace Charset

variable {charset : Charset} {length : Nat}

theorem allows_utf8 (t : String) : Charset.utf8.Allows t := by
  intro hascii
  cases hascii

/-- Where no character takes more bytes than are set aside for it, a width that does not wrap around
is enough. -/
theorem utf8ByteSize_lt_of_length {t : String}
    (hword : length * charset.bytesPerChar + 1 < 2 ^ 64) (hlen : t.length ≤ length)
    (hchars : ∀ c ∈ t.toList, c.utf8Size ≤ charset.bytesPerChar) :
    t.utf8ByteSize < charset.widthOf length := by
  rw [widthOf_of_lt hword]
  exact Nat.lt_succ_of_le ((Text.Utf8.utf8ByteSize_le hchars).trans (Nat.mul_le_mul_right _ hlen))

/-- Every text of the declared length has room exactly if the characters are those of ASCII, or
there are none. -/
theorem forall_utf8ByteSize_lt_iff (hword : length < 2 ^ 64) (hpos : 0 < charset.widthOf length) :
    (∀ t : String, '\x00' ∉ t.toList → charset.Allows t → t.length ≤ length →
      t.utf8ByteSize < charset.widthOf length) ↔ charset = .ascii ∨ length = 0 := by
  constructor
  · intro hall
    cases charset with
    | ascii => exact .inl rfl
    | utf8 =>
      right
      -- A text of euro signs has three bytes for each character, and two were set aside at most.
      have hsize := Text.Utf8.utf8ByteSize_replicate '€' length
      have hfits := hall (String.ofList (List.replicate length '€')) (by simp) (allows_utf8 _)
        (by simp)
      have hthree : '€'.utf8Size = 3 := rfl
      have hwidth : Charset.utf8.widthOf length ≤ length * 2 + 1 := widthOf_le .utf8 length
      rw [hsize, hthree] at hfits
      omega
  · rintro (rfl | rfl) t hnul hallows hlen
    · -- The one length that wraps around has no room at all.
      have hfits : length * Charset.ascii.bytesPerChar + 1 < 2 ^ 64 := by
        unfold widthOf at hpos
        simp only [bytesPerChar] at hpos ⊢
        omega
      exact utf8ByteSize_lt_of_length hfits hlen
        fun c hc => Text.Utf8.utf8Size_of_isAscii (hallows rfl) hc
    · have hempty : t = "" := by simpa using hlen
      subst hempty
      exact hpos

end Charset

/-- **A declared length is honoured for ASCII only.**  A field that is a string of a length is
stored by a member of that name.  Unless its width is a negative size, a text without NUL that the
character set allows is kept exactly if it has fewer bytes than the width; otherwise it is refused.
Texts of the declared length are kept if none of their characters takes more than its share and the
shares do not wrap around, and all such texts are kept exactly if the character set is ASCII or the
length is zero.  If the width is a negative size the text lies on a heap.  The bound keeps every end
within the bytes that a buffer can have. -/
theorem declared_length_honoured_iff (b : Blueprint) (s : Schema) (h : b.BuildsBelow s (2 ^ 63))
    (name : String) (length : Nat) (charset : Charset) (hd : b.DeclaresText name length charset) :
    (¬Placement.Wraps (charset.widthOf length) →
      (∀ t : String, '\x00' ∉ t.toList → charset.Allows t →
        (s.KeepsText name t ↔ t.utf8ByteSize < charset.widthOf length) ∧
        (s.RefusesText name t (charset.widthOf length) ↔
          charset.widthOf length ≤ t.utf8ByteSize) ∧
        (length * charset.bytesPerChar + 1 < 2 ^ 64 → t.length ≤ length →
          (∀ c ∈ t.toList, c.utf8Size ≤ charset.bytesPerChar) → s.KeepsText name t)) ∧
      ((∀ t : String, '\x00' ∉ t.toList → charset.Allows t → t.length ≤ length →
        s.KeepsText name t) ↔ charset = .ascii ∨ length = 0)) ∧
    (Placement.Wraps (charset.widthOf length) →
      ∀ t : String, charset.Allows t → s.KeepsTextOnHeap name t) := by
  obtain ⟨m, hm, rfl, hmapped, hholds⟩ := hd.exists_member h.build
  obtain ⟨hs, -, -⟩ := Blueprint.laidOut_of_build h.build
  refine ⟨fun hfixed => ?_, fun hwraps t hallows => ?_⟩
  · have hkeeps : ∀ t : String, '\x00' ∉ t.toList → charset.Allows t →
        (s.KeepsText m.name t ↔ t.utf8ByteSize < charset.widthOf length) ∧
        (s.RefusesText m.name t (charset.widthOf length) ↔
          charset.widthOf length ≤ t.utf8ByteSize) :=
      fun t => hs.keepsText_iff hm hmapped hholds hfixed
    have hpos : 0 < charset.widthOf length := by
      rw [← (hholds.fixed hfixed).2]
      exact (hs.checked m hm).footprint_pos
    refine ⟨fun t hnul hallows => ?_, ?_⟩
    · obtain ⟨hkept, hrefused⟩ := hkeeps t hnul hallows
      exact ⟨hkept, hrefused, fun hword hlen hchars =>
        hkept.2 (Charset.utf8ByteSize_lt_of_length hword hlen hchars)⟩
    · rw [← Charset.forall_utf8ByteSize_lt_iff hd.word hpos]
      refine forall_congr' fun t => ?_
      refine forall₂_congr fun hnul hallows => forall_congr' fun _ => ?_
      exact (hkeeps t hnul hallows).1
  · obtain ⟨hkind, hfoot⟩ := hholds.varying hwraps
    exact hs.keepsTextOnHeap hm hmapped hkind hfoot hallows

/-- A code of seven characters of ASCII, and a label of three of any kind behind a stated number. -/
def labelBlueprint : Blueprint where
  shape := .map [⟨"code", .string 7 none⟩, ⟨"label", .string 3 (some .utf8)⟩]
  name := some "Label"
  placements := some [.integer "serial" 0 4]
  inferMissing := true

/-- Seven characters of ASCII fill the code; three of two bytes each fill the label. -/
theorem declared_length_honoured_iff_label : ∃ s, labelBlueprint.build = .ok s ∧
    labelBlueprint.DeclaresText "code" 7 .ascii ∧ labelBlueprint.DeclaresText "label" 3 .utf8 ∧
    (∀ t : String, '\x00' ∉ t.toList → Charset.ascii.Allows t → t.length ≤ 7 →
      s.KeepsText "code" t) ∧
    s.KeepsText "label" "åäö" ∧ s.RefusesText "label" "å€ö" 7 := by
  have hcode : labelBlueprint.DeclaresText "code" 7 .ascii :=
    ⟨by decide, ⟨none, by simp [labelBlueprint, Shape.map], rfl⟩, by
      rintro _ ⟨⟩
      exact ⟨rfl, by simp [Placement.integer, Placement.plain]⟩, rfl⟩
  have hlabel : labelBlueprint.DeclaresText "label" 3 .utf8 :=
    ⟨by decide, ⟨some .utf8, by simp [labelBlueprint, Shape.map], rfl⟩, by
      rintro _ ⟨⟩
      exact ⟨rfl, by simp [Placement.integer, Placement.plain]⟩, rfl⟩
  obtain ⟨s, hs⟩ : ∃ s, labelBlueprint.BuildsBelow s (2 ^ 63) :=
    ⟨_, ⟨by cbv, by decide, by decide⟩⟩
  obtain ⟨hcodes, -⟩ := declared_length_honoured_iff labelBlueprint s hs "code" 7 .ascii hcode
  obtain ⟨hlabels, -⟩ := declared_length_honoured_iff labelBlueprint s hs "label" 3 .utf8 hlabel
  have htexts := (hlabels (by decide)).1
  refine ⟨s, hs.build, hcode, hlabel, (hcodes (by decide)).2.2 (.inl rfl), ?_, ?_⟩
  · exact (htexts "åäö" (by decide) (Charset.allows_utf8 _)).1.2 (by decide)
  · exact (htexts "å€ö" (by decide) (Charset.allows_utf8 _)).2.1.2 (by decide)

/-- A string of one character of any kind. -/
def signBlueprint : Blueprint where
  shape := .map [⟨"sign", .string 1 (some .utf8)⟩]
  name := some "Sign"

/-- **A text of the declared length is refused.**  The sign of the euro is one character of three
bytes, and the width has room for two and the terminator. -/
theorem declared_length_refused : signBlueprint.DeclaresText "sign" 1 .utf8 ∧
    "€".length = 1 ∧ '\x00' ∉ "€".toList ∧ Charset.utf8.Allows "€" ∧
    ∃ s, signBlueprint.build = .ok s ∧
      s.pack ([("sign", .text "€")] : Fields) (none : Option TransientStore) =
        (.error (.textTooLong "sign" 4 3), none) := by
  refine ⟨⟨by decide, ⟨some .utf8, by simp [signBlueprint, Shape.map], rfl⟩, nofun, rfl⟩, rfl,
    by decide, Charset.allows_utf8 _, _, by cbv, by cbv⟩

end PackedRecord
