import Mathlib.Data.List.Forall2
import PackedRecord.Proofs.ScalarRoundTrip

/-!
# Enum tables that store alike

Two tables of the same labels write and read windows of a width alike exactly if they are signed
alike and list the same codes.  Codes that do not fit the window count as one: none of them is
ever stored.

* `EnumTable.StoresAs` — this condition on two tables.
* `EnumTable.StoresAs.writeChoice_congr`, `EnumTable.StoresAs.readChoice_congr` — it suffices.
* `EnumTable.storesAs_of_writeChoice` — tables that write all choices alike meet it.
-/

namespace PackedRecord

/-- Searches of lists related position by position find related entries. -/
theorem find?_rel {α β : Type} {R : α → β → Prop} {p : α → Bool} {q : β → Bool} :
    ∀ {as : List α} {bs : List β}, List.Forall₂ R as bs →
    (∀ a ∈ as, ∀ b ∈ bs, R a b → p a = q b) → Option.Rel R (as.find? p) (bs.find? q)
  | [], [], .nil, _ => .none
  | a :: as, b :: bs, .cons h hrest, hpq => by
    have ih := find?_rel hrest fun a ha b hb =>
      hpq a (List.mem_cons_of_mem _ ha) b (List.mem_cons_of_mem _ hb)
    rw [List.find?_cons, List.find?_cons, hpq a List.mem_cons_self b List.mem_cons_self h]
    split
    · exact .some h
    · exact ih

theorem getElem?_rel {α β : Type} {R : α → β → Prop} : ∀ {as : List α} {bs : List β},
    List.Forall₂ R as bs → ∀ k : Nat, Option.Rel R as[k]? bs[k]?
  | [], [], .nil, _ => .none
  | _ :: _, _ :: _, .cons h _, 0 => .some h
  | _ :: _, _ :: _, .cons _ hrest, k + 1 => getElem?_rel hrest k

theorem forall₂_of_getElem?_rel {α β : Type} {R : α → β → Prop} : ∀ {as : List α} {bs : List β},
    (∀ k : Nat, Option.Rel R as[k]? bs[k]?) → List.Forall₂ R as bs
  | [], [], _ => .nil
  | [], _ :: _, h => nomatch h 0
  | _ :: _, [], h => nomatch h 0
  | _ :: _, _ :: _, h => by
    cases h 0 with
    | some h0 => exact .cons h0 (forall₂_of_getElem?_rel fun k => h (k + 1))

/-! ## One code -/

namespace Codec

/-- A code that does not fit is refused. -/
theorem writeCode_of_not_fits (name : String) (order : ByteOrder) {signed : Bool} {width : Nat}
    {code : Int64} (h : EnumTable.codeFits signed width code = false) :
    writeCode name order signed width code = .error (.outOfRange name width) := by
  cases signed with
  | true =>
    simp only [EnumTable.codeFits, if_true, decide_eq_false_iff_not] at h
    exact if_neg h
  | false =>
    simp only [EnumTable.codeFits, Bool.false_eq_true, if_false, decide_eq_false_iff_not] at h
    simp only [writeCode, Bool.false_eq_true, if_false]
    split
    · rfl
    · rename_i hnn
      refine if_neg fun hfits => h ⟨by omega, ?_⟩
      rwa [toNat_toUInt64_of_nonneg (by omega)] at hfits

theorem length_of_writeCode {name : String} {order : ByteOrder} {signed : Bool} {width : Nat}
    {code : Int64} {window : Bytes} (h : writeCode name order signed width code = .ok window) :
    window.length = width := by
  cases hf : EnumTable.codeFits signed width code with
  | true =>
    obtain ⟨window', hwrite, hlen, -⟩ := code_keeps name order hf
    rw [hwrite] at h
    cases h
    exact hlen
  | false =>
    rw [writeCode_of_not_fits name order hf] at h
    cases h

theorem length_of_writeChoice {name : String} {order : ByteOrder} {width : Nat} {t : EnumTable}
    {v : Value} {window : Bytes} (h : writeChoice name order width t v = .ok window) :
    window.length = width := by
  rw [writeChoice_eq] at h
  cases hc : t.code? v with
  | none =>
    rw [hc] at h
    cases h
  | some code =>
    rw [hc] at h
    exact length_of_writeCode h

/-- A signed window holds its code. -/
theorem toInt_readCode_signed {order : ByteOrder} {window : Bytes} (hw : window.length ≤ 8) :
    (readCode order true window).toInt = Word.readSigned order window :=
  toInt_signedWord hw

/-- A window holds a code that fits it, unless the code is negative and codes are unsigned. -/
theorem codeFits_readCode (order : ByteOrder) (signed : Bool) {width : Nat} {window : Bytes}
    (hw : width ≤ 8) (hlen : window.length ≤ width) :
    EnumTable.codeFits signed width (readCode order signed window) = true ∨
      signed = false ∧ (readCode order signed window).toInt < 0 := by
  have hread := Word.fitsUnsigned_read order window
  cases signed with
  | true =>
    have hfits := Word.fitsSigned_signedValue hread
    refine .inl ?_
    simp only [EnumTable.codeFits, if_true, decide_eq_true_eq,
      toInt_readCode_signed (Nat.le_trans hlen hw)]
    exact hfits.mono hlen
  | false =>
    by_cases hneg : (readCode order false window).toInt < 0
    · exact .inr ⟨rfl, hneg⟩
    · refine .inl ?_
      have hback : (readCode order false window).toInt.toNat ≤ Word.read order window := by
        rw [← toNat_toUInt64_of_nonneg (by omega)]
        exact Nat.mod_le _ _
      have hpow : 256 ^ window.length ≤ 256 ^ width := Nat.pow_le_pow_right (by decide) hlen
      simp only [EnumTable.codeFits, Bool.false_eq_true, if_false, decide_eq_true_eq]
      unfold Word.FitsUnsigned at hread ⊢
      omega

end Codec

/-! ## Tables of codes -/

namespace EnumTable

/-- The codes are stored alike: they are the same, or neither fits. -/
def SameStored (signed : Bool) (width : Nat) (c d : Int64) : Prop :=
  c = d ∨ codeFits signed width c = false ∧ codeFits signed width d = false

/-- The tables are signed alike and store the same codes at a width. -/
structure StoresAs (width : Nat) (s t : EnumTable) : Prop where
  signed : s.isSigned = t.isSigned
  codes : List.Forall₂ (SameStored s.isSigned width) s.codes t.codes

/-- The entries differ at most in codes that do not fit. -/
structure Entry.SameStored (signed : Bool) (width : Nat) (d e : Entry) : Prop where
  ordinal : d.ordinal = e.ordinal
  label : d.label = e.label
  code : EnumTable.SameStored signed width d.code e.code

variable {width : Nat} {s t : EnumTable}

theorem StoresAs.entries (h : s.StoresAs width t) (hlabels : s.labels = t.labels) :
    List.Forall₂ (Entry.SameStored s.isSigned width) s.entries t.entries := by
  obtain ⟨hlen, hcodes⟩ := List.forall₂_iff_get.1 h.codes
  refine List.forall₂_iff_get.2 ⟨?_, ?_⟩
  · simp [EnumTable.entries, hlabels, hlen]
  · intro i hi hi'
    simp only [EnumTable.entries, List.length_mapIdx, List.length_zip] at hi hi'
    have hcode := hcodes i (by omega) (by omega)
    simp only [EnumTable.entries, List.get_eq_getElem, List.getElem_mapIdx, List.getElem_zip,
      hlabels] at hcode ⊢
    exact ⟨rfl, rfl, hcode⟩

theorem SameStored.eq_iff {signed : Bool} {width : Nat} {c d code : Int64}
    (h : SameStored signed width c d) (hf : codeFits signed width code = true) :
    c = code ↔ d = code := by
  rcases h with rfl | ⟨hc, hd⟩
  · rfl
  · constructor
    · rintro rfl
      rw [hc] at hf
      cases hf
    · rintro rfl
      rw [hd] at hf
      cases hf

theorem code_nonneg (hs : s.isSigned = false) {e : Entry} (he : e ∈ s.entries) :
    0 ≤ e.code.toInt := by
  have hmem : e.code ∈ s.codes := List.mem_of_getElem? (mem_entries.1 he).2
  have hnone := List.any_eq_false.1 hs e.code hmem
  simp only [decide_eq_true_eq] at hnone
  omega

/-- **Tables that store alike read alike.** -/
theorem StoresAs.readChoice_congr (h : s.StoresAs width t) (hlabels : s.labels = t.labels)
    (hw : width ≤ 8) (order : ByteOrder) {window : Bytes} (hlen : window.length ≤ width) :
    Codec.readChoice order s window = Codec.readChoice order t window := by
  rw [Codec.readChoice_eq, Codec.readChoice_eq, ← h.signed]
  generalize hcode : Codec.readCode order s.isSigned window = code
  have hentries := List.forall₂_reverse_iff.2 (h.entries hlabels)
  have hsearch : Option.Rel (Entry.SameStored s.isSigned width) (s.entryOfCode? code)
      (t.entryOfCode? code) := by
    refine find?_rel hentries fun d hd e he hde => ?_
    rw [List.mem_reverse] at hd he
    have hiff : d.code = code ↔ e.code = code := by
      rcases Codec.codeFits_readCode order s.isSigned hw hlen with hfits | ⟨hs, hneg⟩
      · rw [hcode] at hfits
        exact hde.code.eq_iff hfits
      · -- Unsigned tables list no negative code.
        rw [hcode] at hneg
        have hdn := code_nonneg hs hd
        have hen := code_nonneg (h.signed ▸ hs) he
        constructor <;>
        · rintro rfl
          omega
    rw [Bool.eq_iff_iff, beq_iff_eq, beq_iff_eq]
    exact hiff
  unfold read
  revert hsearch
  cases s.entryOfCode? code <;> cases t.entryOfCode? code
  · exact fun _ => rfl
  · exact fun h => nomatch h
  · exact fun h => nomatch h
  · rintro ⟨hde⟩
    dsimp only
    rw [hde.ordinal, hde.label]

theorem StoresAs.code?_rel (h : s.StoresAs width t) (hlabels : s.labels = t.labels) (v : Value) :
    Option.Rel (SameStored s.isSigned width) (s.code? v) (t.code? v) := by
  have hlabel : ∀ label : String, Option.Rel (SameStored s.isSigned width)
      ((s.entryOfLabel? label).map Entry.code) ((t.entryOfLabel? label).map Entry.code) := by
    intro label
    have hsearch := find?_rel (p := fun e => e.label == label) (q := fun e => e.label == label)
      (List.forall₂_reverse_iff.2 (h.entries hlabels)) fun d _ e _ hde => by rw [hde.label]
    unfold entryOfLabel?
    revert hsearch
    cases s.entries.reverse.find? _ <;> cases t.entries.reverse.find? _
    · exact fun _ => .none
    · exact fun h => nomatch h
    · exact fun h => nomatch h
    · rintro ⟨hde⟩
      exact .some hde.code
  cases v with
  | text label => exact hlabel label
  | choice c =>
    cases c with
    | known ordinal label => exact hlabel label
    | unlisted code => exact .some (.inl rfl)
  | number n =>
    simp only [code?]
    cases n.toNat? with
    | none => exact .none
    | some k => exact getElem?_rel h.codes k.toNat
  | _ => exact .none

/-- **Tables that store alike write alike.** -/
theorem StoresAs.writeChoice_congr (h : s.StoresAs width t) (htable : s.name = t.name)
    (hlabels : s.labels = t.labels) (name : String) (order : ByteOrder) (v : Value) :
    Codec.writeChoice name order width s v = Codec.writeChoice name order width t v := by
  have hcode := h.code?_rel hlabels v
  rw [Codec.writeChoice_eq, Codec.writeChoice_eq, ← h.signed]
  revert hcode
  cases s.code? v <;> cases t.code? v
  · intro _
    simp only [Codec.noCode, htable]
  · exact fun h => nomatch h
  · exact fun h => nomatch h
  · rintro ⟨rfl | ⟨hc, hd⟩⟩
    · rfl
    · exact (Codec.writeCode_of_not_fits name order hc).trans
        (Codec.writeCode_of_not_fits name order hd).symm

/-- Codes that are written alike are stored alike. -/
theorem sameStored_of_writeCode {name : String} {order : ByteOrder} {signed : Bool} {c d : Int64}
    (h : Codec.writeCode name order signed width c = Codec.writeCode name order signed width d) :
    SameStored signed width c d := by
  cases hc : codeFits signed width c with
  | false =>
    cases hd : codeFits signed width d with
    | false => exact .inr ⟨hc, hd⟩
    | true =>
      obtain ⟨window, hwrite, -⟩ := Codec.code_keeps name order hd
      rw [Codec.writeCode_of_not_fits name order hc, hwrite] at h
      cases h
  | true =>
    obtain ⟨window, hwrite, -, hback⟩ := Codec.code_keeps name order hc
    cases hd : codeFits signed width d with
    | false =>
      rw [Codec.writeCode_of_not_fits name order hd, hwrite] at h
      cases h
    | true =>
      obtain ⟨window', hwrite', -, hback'⟩ := Codec.code_keeps name order hd
      rw [hwrite, hwrite'] at h
      cases h
      exact .inl (hback.symm.trans hback')

/-- A code of a table is never reported as missing from it. -/
theorem writeCode_ne_unlistedLabel (name : String) (order : ByteOrder) (signed : Bool)
    (code : Int64) (member table value : String) :
    Codec.writeCode name order signed width code ≠
      .error (.unlistedLabel member table value) := by
  cases hf : codeFits signed width code with
  | true =>
    obtain ⟨window, hwrite, -⟩ := Codec.code_keeps name order hf
    rw [hwrite]
    exact fun h => nomatch h
  | false =>
    rw [Codec.writeCode_of_not_fits name order hf]
    exact fun h => nomatch h

/-- Signed tables store a code that unsigned ones refuse. -/
theorem writeCode_minus_one (name : String) (order : ByteOrder) (signed : Bool) (hw : 0 < width) :
    (∃ window, Codec.writeCode name order signed width (-1) = .ok window) ↔ signed = true := by
  cases signed with
  | true =>
    have hfits : codeFits true width (-1) = true := by
      have h : Word.FitsSigned width (-1) :=
        Word.FitsSigned.mono (m := 1) (by decide) hw
      exact decide_eq_true h
    obtain ⟨window, hwrite, -⟩ := Codec.code_keeps name order hfits
    exact ⟨fun _ => rfl, fun _ => ⟨window, hwrite⟩⟩
  | false =>
    have hfits : codeFits false width (-1) = false := rfl
    rw [Codec.writeCode_of_not_fits name order hfits]
    simp

/-- **Tables that write all choices and numbers alike store alike**, if ordinals are numbers of
64 bits. -/
theorem storesAs_of_writeChoice {name : String} {order : ByteOrder} (hw : 0 < width)
    (hcount : s.codes.length < 2 ^ 64)
    (h : ∀ v : Value, v.isNull = false →
      Codec.writeChoice name order width s v = Codec.writeChoice name order width t v) :
    s.StoresAs width t := by
  have hsigned : s.isSigned = t.isSigned := by
    have hminus := h (.choice (.unlisted (-1))) rfl
    rw [Codec.writeChoice_eq, Codec.writeChoice_eq] at hminus
    simp only [code?] at hminus
    rw [Bool.eq_iff_iff, ← writeCode_minus_one name order s.isSigned hw,
      ← writeCode_minus_one name order t.isSigned hw, hminus]
  have hcodes : ∀ k : Nat, k < 2 ^ 64 → Option.Rel (SameStored s.isSigned width)
      s.codes[k]? t.codes[k]? := by
    intro k hk
    have hordinal : (UInt64.ofNat k).toNat = k := UInt64.toNat_ofNat_of_lt' hk
    have hwrite := h (.number (.nat (.ofNat k))) rfl
    rw [Codec.writeChoice_eq, Codec.writeChoice_eq, ← hsigned] at hwrite
    simp only [code?, Number.toNat?, Option.bind_some, hordinal] at hwrite
    revert hwrite
    cases s.codes[k]? <;> cases t.codes[k]?
    · exact fun _ => .none
    · exact fun hwrite => (writeCode_ne_unlistedLabel name order _ _ _ _ _ hwrite.symm).elim
    · exact fun hwrite => (writeCode_ne_unlistedLabel name order _ _ _ _ _ hwrite).elim
    · exact fun hwrite => .some (sameStored_of_writeCode hwrite)
  refine ⟨hsigned, forall₂_of_getElem?_rel fun k => ?_⟩
  by_cases hk : k ≤ s.codes.length
  · exact hcodes k (by omega)
  · -- The lists are of one length, as the first list ends before the limit of the numbers.
    have hend := hcodes s.codes.length hcount
    rw [List.getElem?_eq_none (Nat.le_refl _)] at hend
    have hlen : t.codes.length ≤ s.codes.length := by
      refine List.getElem?_eq_none_iff.1 ?_
      cases ht : t.codes[s.codes.length]? with
      | none => rfl
      | some d =>
        rw [ht] at hend
        cases hend
    rw [List.getElem?_eq_none (by omega), List.getElem?_eq_none (by omega)]
    exact .none

end EnumTable

end PackedRecord
