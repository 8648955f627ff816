import Mathlib.Data.List.Forall2
import PackedRecord.Proofs.Delimiters
import PackedRecord.Schema.Fingerprint

/-!
# What a canonical text determines

The text that a fingerprint hashes states the parts of a raw layout one behind the other.  All
parts but two are told apart by their delimiters; names of members and of enum tables stand in
the text as they are, so they must agree or lack the delimiter behind them.

* `Placement.canonicalText_inj`, `Placement.memberText_inj` — the text of one member.
* `Schema.canonicalText_inj` — the text of a schema determines its size, its byte order and
  the layout of its members.
-/

namespace PackedRecord

open Text

/-- Two names that stand before a delimiter are the same or do not contain it. -/
def Separable (c : Char) (s t : String) : Prop := s = t ∨ c ∉ s.toList ∧ c ∉ t.toList

theorem Separable.cut {c : Char} {s t : String} (hst : Separable c s t) {x y : List Char}
    (h : s.toList ++ c :: x = t.toList ++ c :: y) : s = t ∧ x = y := by
  rcases hst with rfl | ⟨hs, ht⟩
  · exact ⟨rfl, (List.cons.inj (List.append_cancel_left h)).2⟩
  · obtain ⟨hst, hxy⟩ := Text.cut hs ht h
    exact ⟨String.toList_inj.1 hst, hxy⟩

/-- A name from a list of fixed ones ends where its delimiter stands. -/
theorem cut_name {α : Type} (name : α → String) {c : Char} (hc : ∀ a, c ∉ (name a).toList)
    (hn : ∀ a b, (name a).toList = (name b).toList → a = b) {a b : α} {x y : List Char}
    (h : (name a).toList ++ c :: x = (name b).toList ++ c :: y) : a = b ∧ x = y := by
  obtain ⟨hab, hxy⟩ := Text.cut (hc a) (hc b) h
  exact ⟨hn a b hab, hxy⟩

/-! ## Placements -/

namespace Placement

/-- What the text of a placement states. -/
structure SameLayout (p q : Placement) : Prop where
  name : p.name = q.name
  offset : p.offset = q.offset
  storageClass : p.storageClass = q.storageClass
  size : p.size = q.size
  signed : p.signed = q.signed
  dims : p.dims = q.dims
  charset : p.charset = q.charset
  meaning : p.meaning = q.meaning

/-- Text of a meaning, if there is one. -/
def meaningText : Option Meaning → String
  | some m => "Some(" ++ m.inspect ++ ")"
  | none => "None"

/-- The end of the part of a member that every member has. -/
def partEnds (c : Char) : Prop := c = '/' ∨ c = '|'

theorem meaningText_inj {m n : Option Meaning} {x y : List Char} (hx : Stops partEnds x)
    (hy : Stops partEnds y)
    (h : (meaningText m).toList ++ x = (meaningText n).toList ++ y) : m = n ∧ x = y := by
  have hchars : ∀ m, (meaningText m).toList.all (fun c => c != '/' && c != '|') = true := by
    rintro (_ | ⟨u | u⟩) <;> first | (cases u <;> decide) | decide
  have hstop : ∀ m, ∀ c ∈ (meaningText m).toList, ¬partEnds c := by
    intro m c hc hend
    have := List.all_eq_true.1 (hchars m) c hc
    rcases hend with rfl | rfl <;> simp at this
  obtain ⟨hmn, hxy⟩ := append_inj_of_stops _ (hstop m) (hstop n) hx hy h
  refine ⟨?_, hxy⟩
  have htext := String.toList_inj.1 hmn
  revert htext
  rcases m with _ | ⟨u | u⟩ <;> rcases n with _ | ⟨v | v⟩ <;>
    first
    | (cases u <;> cases v <;> decide)
    | (cases u <;> decide)
    | (cases v <;> decide)
    | decide

theorem canonicalText_eq (p : Placement) :
    p.canonicalText = "|" ++ p.name ++ "@" ++ toString p.offset ++ ":" ++ p.storageClass.name ++
      "/" ++ toString p.size ++ "/" ++ toString p.signed ++ "/" ++
      bracketed (p.dims.map toString) ++ "/" ++ p.charset.name ++ "/" ++ meaningText p.meaning := by
  unfold canonicalText meaningText numberList bracketed
  rfl

/-- What the text of a placement states behind the name. -/
def layoutText (p : Placement) : List Char :=
  (toString p.offset).toList ++ ':' :: (p.storageClass.name.toList ++ '/' ::
    ((toString p.size).toList ++ '/' :: ((toString p.signed).toList ++ '/' ::
      ((bracketed (p.dims.map toString)).toList ++ '/' :: (p.charset.name.toList ++ '/' ::
        (meaningText p.meaning).toList)))))

theorem toList_canonicalText (p : Placement) :
    p.canonicalText.toList = '|' :: (p.name.toList ++ '@' :: p.layoutText) := by
  rw [canonicalText_eq]
  simp only [layoutText, String.toList_append, String.reduceToList, List.append_assoc,
    List.cons_append, List.nil_append]

/-- **The text of a placement determines its layout.** -/
theorem canonicalText_inj {p q : Placement} (hn : Separable '@' p.name q.name)
    {x y : List Char} (hx : Stops partEnds x) (hy : Stops partEnds y)
    (h : p.canonicalText.toList ++ x = q.canonicalText.toList ++ y) :
    p.SameLayout q ∧ x = y := by
  rw [toList_canonicalText, toList_canonicalText] at h
  simp only [layoutText, List.cons_append, List.append_assoc, List.cons.injEq, true_and] at h
  obtain ⟨hname, h⟩ := hn.cut h
  obtain ⟨hoffset, h⟩ := cut_name (fun n : Nat => toString n) (notMem_toString_nat (by decide))
    (fun _ _ => toList_toString_nat_inj) h
  obtain ⟨hclass, h⟩ := cut_name StorageClass.name
    (by intro c; cases c <;> decide) (by intro c d; cases c <;> cases d <;> decide) h
  obtain ⟨hsize, h⟩ := cut_name (fun i : Int => toString i)
    (notMem_toString_int (by decide) (by decide))
    (fun _ _ => toList_toString_int_inj) h
  obtain ⟨hsigned, h⟩ := cut_name (fun b : Bool => toString b)
    (by decide) (by decide) h
  obtain ⟨hdims, h⟩ := items_append_inj itemlike_nat h
  obtain ⟨hcharset, h⟩ := cut_name Charset.name
    (by intro c; cases c <;> decide) (by intro c d; cases c <;> cases d <;> decide)
    (List.cons.inj h).2
  obtain ⟨hmeaning, h⟩ := meaningText_inj hx hy h
  exact ⟨⟨hname, hoffset, hclass, hsize, hsigned, hdims, hcharset, hmeaning⟩, h⟩

end Placement

/-! ## Enum tables and nested schemas -/

/-- Both members lack an enum table, or the tables agree in what the text states. -/
inductive SameTable : Option EnumTable → Option EnumTable → Prop
  | none : SameTable none none
  | some {s t : EnumTable} (name : s.name = t.name) (labels : s.labels = t.labels) :
      SameTable (some s) (some t)

/-- Text of an enum table, if there is one. -/
def tableText (t : Option EnumTable) : String := (t.map EnumTable.canonicalText).getD ""

theorem toList_canonicalText_table (t : EnumTable) :
    t.canonicalText.toList = '/' :: 'e' :: 'n' :: 'u' :: 'm' :: ':' ::
      (t.name.toList ++ (bracketed (t.labels.map quoted)).toList) := by
  simp only [EnumTable.canonicalText, String.toList_append, String.reduceToList,
    List.cons_append, List.nil_append]

theorem exists_toList_bracketed {α : Type} (text : α → String) (as : List α) :
    ∃ tail, (bracketed (as.map text)).toList = '[' :: tail := by
  cases as with
  | nil => exact ⟨_, toList_bracketed_nil⟩
  | cons a rest => exact ⟨_, toList_bracketed_cons text a rest⟩

/-- The part does not start as the text of an enum table does. -/
def NoTable (x : List Char) : Prop := ∀ cs, x ≠ '/' :: 'e' :: cs

/-- The text of an enum table determines its labels, and its name if that can be told. -/
theorem tableText_inj {s t : Option EnumTable}
    (hn : ∀ a b, s = some a → t = some b → Separable '[' a.name b.name) {x y : List Char}
    (hx : NoTable x) (hy : NoTable y)
    (h : (tableText s).toList ++ x = (tableText t).toList ++ y) : SameTable s t ∧ x = y := by
  unfold tableText at h
  cases s with
  | none =>
    cases t with
    | none => exact ⟨.none, by simpa using h⟩
    | some b =>
      simp only [Option.map_none, Option.map_some, Option.getD_none, Option.getD_some,
        toList_canonicalText_table, String.reduceToList, List.nil_append, List.cons_append] at h
      exact absurd h (hx _)
  | some a =>
    cases t with
    | none =>
      simp only [Option.map_none, Option.map_some, Option.getD_none, Option.getD_some,
        toList_canonicalText_table, String.reduceToList, List.nil_append, List.cons_append] at h
      exact absurd h.symm (hy _)
    | some b =>
      simp only [Option.map_some, Option.getD_some, toList_canonicalText_table,
        List.cons_append, List.append_assoc, List.cons.injEq, true_and] at h
      obtain ⟨u, hu⟩ := exists_toList_bracketed quoted a.labels
      obtain ⟨v, hv⟩ := exists_toList_bracketed quoted b.labels
      rw [hu, hv] at h
      obtain ⟨hname, hrest⟩ := (hn a b rfl rfl).cut h
      have hlist : (bracketed (a.labels.map quoted)).toList ++ x =
          (bracketed (b.labels.map quoted)).toList ++ y := by
        rw [hu, hv]
        exact congrArg ('[' :: ·) hrest
      obtain ⟨hlabels, hxy⟩ := items_append_inj itemlike_quoted hlist
      exact ⟨.some hname hlabels, hxy⟩

namespace Schema

theorem nestedText_eq (p : Placement) :
    nestedText p = (p.nested.map fun schema =>
      "/nested:" ++ toString (fingerprintOf schema.canonicalText).toNat).getD "" := by
  obtain ⟨_, _, _, _, _, _, _, _, _, _, _ | schema⟩ := p <;> rfl

/-- Text of some nested schema; which one is a matter of its hash. -/
theorem exists_nestedText {p : Placement} {t : Schema} (h : p.nested = some t) :
    ∃ hash : Nat, (nestedText p).toList =
      '/' :: 'n' :: 'e' :: 's' :: 't' :: 'e' :: 'd' :: ':' :: (toString hash).toList := by
  refine ⟨(fingerprintOf t.canonicalText).toNat, ?_⟩
  rw [nestedText_eq, h]
  simp only [Option.map_some, Option.getD_some, String.toList_append, String.reduceToList,
    List.cons_append, List.nil_append]

theorem nestedText_none {p : Placement} (h : p.nested = none) : (nestedText p).toList = [] := by
  rw [nestedText_eq, h]
  rfl

/-- What follows the text of an enum table. -/
theorem noTable_nestedText (p : Placement) {x : List Char} (hx : Stops (· = '|') x) :
    NoTable ((nestedText p).toList ++ x) := by
  intro cs h
  cases hp : p.nested with
  | none =>
    rw [nestedText_none hp, List.nil_append] at h
    exact absurd (hx _ _ h) (by decide)
  | some t =>
    obtain ⟨hash, ht⟩ := exists_nestedText hp
    rw [ht] at h
    simp only [List.cons_append, List.cons.injEq, true_and] at h
    exact absurd h.1 (by decide)

/-- What follows the part of a member that every member has. -/
theorem stops_memberTail (p : Placement) {x : List Char} (hx : Stops (· = '|') x) :
    Stops Placement.partEnds ((tableText p.table).toList ++ ((nestedText p).toList ++ x)) := by
  cases ht : p.table with
  | some t =>
    simp only [tableText, Option.map_some, Option.getD_some, toList_canonicalText_table,
      List.cons_append]
    exact stops_cons (.inl rfl)
  | none =>
    simp only [tableText, Option.map_none, Option.getD_none, String.reduceToList,
      List.nil_append]
    cases hp : p.nested with
    | some t =>
      obtain ⟨hash, ht⟩ := exists_nestedText hp
      rw [ht, List.cons_append]
      exact stops_cons (.inl rfl)
    | none =>
      rw [nestedText_none hp, List.nil_append]
      exact fun c cs h => .inr (hx c cs h)

theorem nestedText_inj {p q : Placement} {x y : List Char} (hx : Stops (· = '|') x)
    (hy : Stops (· = '|') y)
    (h : (nestedText p).toList ++ x = (nestedText q).toList ++ y) :
    p.nested.isSome = q.nested.isSome ∧ x = y := by
  cases hp : p.nested with
  | none =>
    rw [nestedText_none hp, List.nil_append] at h
    cases hq : q.nested with
    | none =>
      rw [nestedText_none hq, List.nil_append] at h
      exact ⟨rfl, h⟩
    | some u =>
      obtain ⟨hash, hu⟩ := exists_nestedText hq
      rw [hu, List.cons_append] at h
      exact absurd (hx _ _ h) (by decide)
  | some t =>
    obtain ⟨hash, ht⟩ := exists_nestedText hp
    rw [ht] at h
    cases hq : q.nested with
    | none =>
      rw [nestedText_none hq, List.nil_append, List.cons_append] at h
      exact absurd (hy _ _ h.symm) (by decide)
    | some u =>
      obtain ⟨hash', hu⟩ := exists_nestedText hq
      rw [hu] at h
      simp only [List.cons_append, List.cons.injEq, true_and] at h
      have hbar : ∀ n : Nat, ∀ c ∈ (toString n).toList, c ≠ '|' := by
        rintro n c hc rfl
        exact notMem_toString_nat (by decide) n hc
      exact ⟨rfl, (append_inj_of_stops _ (hbar _) (hbar _) hx hy h).2⟩

/-! ## Members and schemas -/

/-- The members agree in everything the text of a schema states. -/
structure SameText (m n : Member) : Prop where
  layout : m.placement.SameLayout n.placement
  table : SameTable m.placement.table n.placement.table
  nested : m.placement.nested.isSome = n.placement.nested.isSome

/-- The names of two members can be told from what follows them. -/
structure NamesTold (m n : Member) : Prop where
  member : Separable '@' m.name n.name
  table : ∀ s t, m.placement.table = some s → n.placement.table = some t →
    Separable '[' s.name t.name

/-- Members at the same position are related, as far as both lists go. -/
def Positionwise (R : Member → Member → Prop) (ms ns : List Member) : Prop :=
  ∀ (i : Nat) (m n : Member), ms[i]? = some m → ns[i]? = some n → R m n

theorem Positionwise.head {R : Member → Member → Prop} {m n : Member} {ms ns : List Member}
    (h : Positionwise R (m :: ms) (n :: ns)) : R m n := h 0 m n rfl rfl

theorem Positionwise.tail {R : Member → Member → Prop} {m n : Member} {ms ns : List Member}
    (h : Positionwise R (m :: ms) (n :: ns)) : Positionwise R ms ns :=
  fun i a b ha hb => h (i + 1) a b ha hb

theorem canonicalTextOf_cons (m : Member) (rest : List Member) :
    (canonicalTextOf (m :: rest)).toList = m.placement.canonicalText.toList ++
      ((tableText m.placement.table).toList ++ ((nestedText m.placement).toList ++
        (canonicalTextOf rest).toList)) := by
  obtain ⟨p, kind, binding⟩ := m
  rw [canonicalTextOf, String.toList_append, String.toList_append, String.toList_append,
    List.append_assoc, List.append_assoc]
  rfl

theorem stops_canonicalTextOf (ms : List Member) :
    Stops (· = '|') (canonicalTextOf ms).toList := by
  cases ms with
  | nil => exact stops_nil _
  | cons m rest =>
    rw [canonicalTextOf_cons, Placement.toList_canonicalText]
    exact stops_cons rfl

theorem toList_canonicalText (s : Schema) : s.canonicalText.toList =
    (toString s.totalSize).toList ++
      '|' :: (s.settings.byteOrder.name.toList ++ (canonicalTextOf s.members).toList) := by
  cases s
  simp only [canonicalText, String.toList_append, String.reduceToList, List.append_assoc,
    List.cons_append, List.nil_append]

/-- **The text of some members determines their layouts.** -/
theorem canonicalTextOf_inj : ∀ {ms ns : List Member},
    Positionwise NamesTold ms ns →
    (canonicalTextOf ms).toList = (canonicalTextOf ns).toList → List.Forall₂ SameText ms ns
  | [], [], _, _ => .nil
  | [], n :: ns, _, h => by
    rw [canonicalTextOf_cons, Placement.toList_canonicalText] at h
    cases h
  | m :: ms, [], _, h => by
    rw [canonicalTextOf_cons, Placement.toList_canonicalText] at h
    cases h
  | m :: ms, n :: ns, hn, h => by
    obtain ⟨hname, htable⟩ := hn.head
    have hms := stops_canonicalTextOf ms
    have hns := stops_canonicalTextOf ns
    rw [canonicalTextOf_cons, canonicalTextOf_cons] at h
    obtain ⟨hlayout, h⟩ := Placement.canonicalText_inj hname (stops_memberTail _ hms)
      (stops_memberTail _ hns) h
    obtain ⟨htable, h⟩ := tableText_inj htable (noTable_nestedText _ hms)
      (noTable_nestedText _ hns) h
    obtain ⟨hnested, h⟩ := nestedText_inj hms hns h
    exact .cons ⟨hlayout, htable, hnested⟩ (canonicalTextOf_inj hn.tail h)

/-- The text of a schema determines its size, its byte order and the text of its members. -/
theorem canonicalText_parts {a b : Schema} (h : a.canonicalText = b.canonicalText) :
    a.totalSize = b.totalSize ∧ a.settings.byteOrder = b.settings.byteOrder ∧
      (canonicalTextOf a.members).toList = (canonicalTextOf b.members).toList := by
  have hlist := congrArg String.toList h
  rw [toList_canonicalText a, toList_canonicalText b] at hlist
  obtain ⟨hsize, hlist⟩ := cut_name (fun n : Nat => toString n)
    (notMem_toString_nat (by decide)) (fun _ _ => toList_toString_nat_inj) hlist
  have hchars : ∀ o : ByteOrder, o.name.toList.all (· != '|') = true := by
    intro o
    cases o <;> decide
  have hbar : ∀ o : ByteOrder, ∀ c ∈ o.name.toList, c ≠ '|' := fun o c hc =>
    bne_iff_ne.1 (List.all_eq_true.1 (hchars o) c hc)
  obtain ⟨horder, hmembers⟩ := append_inj_of_stops _ (hbar _) (hbar _)
    (stops_canonicalTextOf a.members) (stops_canonicalTextOf b.members) hlist
  have hname : ∀ o o' : ByteOrder, o.name.toList = o'.name.toList → o = o' := by
    intro o o'
    cases o <;> cases o' <;> decide
  exact ⟨hsize, hname _ _ horder, hmembers⟩

/-- **A canonical text determines the raw layout.** -/
theorem canonicalText_inj {a b : Schema}
    (hn : Positionwise NamesTold a.members b.members)
    (h : a.canonicalText = b.canonicalText) :
    a.totalSize = b.totalSize ∧ a.settings.byteOrder = b.settings.byteOrder ∧
      List.Forall₂ SameText a.members b.members := by
  obtain ⟨hsize, horder, hmembers⟩ := canonicalText_parts h
  exact ⟨hsize, horder, canonicalTextOf_inj hn hmembers⟩

end Schema

end PackedRecord
