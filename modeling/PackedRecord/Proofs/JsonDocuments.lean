import Mathlib.Data.List.Sort
import PackedRecord.Proofs.SortedMaps
import PackedRecord.Proofs.Words
import PackedRecord.Value.Document

/-!
# Documents that values give back

A value keeps the members of an object in a map and its numbers in 64 bits or as doubles.  So a
document comes back from its value, members in ascending order, exactly if it gives each name of
an object once, its integers have 64 bits and its other numbers are finite.

* `Json.sorted` — a document with the members of its objects in ascending order.
* `Json.Proper` — what documents have to be like.
* `Value.wellFormed_ofJson`, `Value.sorted_toJson` — values of documents and documents of values.
* `Value.toJson_ofJson_iff` — by the induction over documents.
* `document_returned_iff` — which documents come back.
-/

namespace PackedRecord

attribute [local instance] corePow

/-! ## Pairs with distinct keys -/

/-- Pairs under distinct keys that occur in the same order on both sides are determined by their
keys. -/
theorem eq_of_perm_of_keys {κ ν : Type} {xs ys : List (κ × ν)}
    (hd : (xs.map Prod.fst).Nodup) (hkeys : xs.map Prod.fst = ys.map Prod.fst)
    (hperm : xs.Perm ys) : xs = ys := by
  refine List.ext_getElem hperm.length_eq fun i hi hi' => ?_
  have hkey : xs[i].1 = ys[i].1 := by
    have := congrArg (·[i]?) hkeys
    simpa [hi, hi'] using this
  exact List.inj_on_of_nodup_map hd (List.getElem_mem hi) (hperm.mem_iff.2 (List.getElem_mem hi'))
    hkey

namespace Json

/-! ## Sorted documents -/

/-- The first member may stand before the second one. -/
def ByName (m n : String × Json) : Prop := m.1 ≤ n.1

instance : DecidableRel ByName := fun m n => inferInstanceAs (Decidable (m.1 ≤ n.1))

mutual

/-- The document with the members of every object in ascending order. -/
def sorted : Json → Json
  | array elements => array (sortedAll elements)
  | object members => object ((sortedMembers members).insertionSort ByName)
  | j => j

/-- Every element sorted. -/
def sortedAll : List Json → List Json
  | [] => []
  | j :: rest => j.sorted :: sortedAll rest

/-- Every member sorted, in the order given. -/
def sortedMembers : List (String × Json) → List (String × Json)
  | [] => []
  | (name, j) :: rest => (name, j.sorted) :: sortedMembers rest

end

theorem map_fst_sortedMembers (ms : List (String × Json)) :
    (sortedMembers ms).map Prod.fst = ms.map Prod.fst := by
  induction ms with
  | nil => rfl
  | cons m rest ih =>
    rw [sortedMembers, List.map_cons, List.map_cons, ih]

/-- Ascending members are what any arrangement of them is sorted into. -/
theorem insertionSort_eq {ms ns : List (String × Json)} (ha : Assoc.Ascending ms)
    (hperm : ms.Perm ns) : ns.insertionSort ByName = ms := by
  have hsorted : ms.Pairwise ByName := (List.pairwise_map.1 ha).imp le_of_lt
  have hd : (ms.map Prod.fst).Nodup := ha.imp ne_of_lt
  have hperm' := (List.perm_insertionSort ByName ns).trans hperm.symm
  have htotal : Std.Total ByName := ⟨fun m n => le_total m.1 n.1⟩
  have htrans : IsTrans _ ByName := ⟨fun _ _ _ => le_trans⟩
  have hantisymm : ∀ m n, m ∈ ns.insertionSort ByName → n ∈ ms →
      ByName m n → ByName n m → m = n := by
    intro m n hm hn hmn hnm
    exact List.inj_on_of_nodup_map hd (hperm'.mem_iff.1 hm) hn (le_antisymm hmn hnm)
  exact List.Perm.eq_of_pairwise hantisymm (List.pairwise_insertionSort ByName ns) hsorted hperm'

/-! ## Documents that values can hold -/

mutual

/-- Integers have 64 bits, other numbers are finite, and an object gives each name once. -/
def Proper : Json → Prop
  | integer i => -(2 ^ 63) ≤ i ∧ i < 2 ^ 64
  | float x => x.isNaN = false ∧ x.isInfinite = false
  | array elements => ProperAll elements
  | object members => (members.map Prod.fst).Nodup ∧ ProperMembers members
  | _ => True

/-- Every element is proper. -/
def ProperAll : List Json → Prop
  | [] => True
  | j :: rest => j.Proper ∧ ProperAll rest

/-- Every member is proper. -/
def ProperMembers : List (String × Json) → Prop
  | [] => True
  | (_, j) :: rest => j.Proper ∧ ProperMembers rest

end

end Json

namespace Value

open Json

/-! ## Documents of values -/

theorem toJsonFields_eq (entries : List (String × Value)) :
    toJsonFields entries = entries.map fun e => (e.1, e.2.toJson) := by
  induction entries with
  | nil => rfl
  | cons e rest ih => rw [toJsonFields, ih, List.map_cons]

theorem ofJsonMembers_eq (members : List (String × Json)) :
    ofJsonMembers members = members.map fun m => (m.1, ofJson m.2) := by
  induction members with
  | nil => rfl
  | cons m rest ih => rw [ofJsonMembers, ih, List.map_cons]

theorem map_fst_toJsonFields (entries : List (String × Value)) :
    (toJsonFields entries).map Prod.fst = entries.map Prod.fst := by
  rw [toJsonFields_eq, List.map_map]
  rfl

theorem map_fst_ofJsonMembers (members : List (String × Json)) :
    (ofJsonMembers members).map Prod.fst = members.map Prod.fst := by
  rw [ofJsonMembers_eq, List.map_map]
  rfl

theorem ascending_toJsonFields {entries : Fields} (h : Assoc.Ascending entries) :
    Assoc.Ascending (toJsonFields entries) := by
  rwa [Assoc.Ascending, map_fst_toJsonFields]

/-- The names of the two parts of a span, in ascending order. -/
theorem ascending_spanMembers (unit count : Json) :
    Assoc.Ascending [("unit", unit), ("value", count)] := by
  have hnames : ["unit", "value"].Pairwise (· < ·) := by decide
  exact hnames

theorem sorted_of_integers {α : Type} (f : α → Int) (as : List α) :
    sortedAll (as.map fun a => .integer (f a)) = as.map fun a => .integer (f a) := by
  induction as with
  | nil => rfl
  | cons a rest ih => simp only [List.map_cons, sortedAll, sorted, ih]

theorem sorted_ofDouble (x : Double) : (ofDouble x).sorted = ofDouble x := by
  unfold ofDouble
  split <;> rfl

mutual

/-- **The document of a value is sorted.** -/
theorem sorted_toJson : ∀ v : Value, v.WellFormed → v.toJson.sorted = v.toJson
  | null, _ => rfl
  | bool _, _ => rfl
  | number (.int _), _ => rfl
  | number (.nat _), _ => rfl
  | number (.float x), _ => sorted_ofDouble x
  | text _, _ => rfl
  | choice (.known _ _), _ => rfl
  | choice (.unlisted _), _ => rfl
  | bits words, _ => by rw [toJson, sorted, sorted_of_integers]
  | instant _, _ => rfl
  | span d, _ => by
    simp only [toJson, sorted, sortedMembers,
      insertionSort_eq (ascending_spanMembers _ _) (.refl _)]
  | bytes content, _ => by rw [toJson, sorted, sorted_of_integers]
  | array _ elements, h => by rw [toJson, sorted, sortedAll_toJsonAll elements h.2.2]
  | fields entries, h => by
    have hall := sortedMembers_toJsonFields entries h.2
    rw [toJson, sorted, hall, insertionSort_eq (ascending_toJsonFields h.1) (.refl _)]

theorem sortedAll_toJsonAll : ∀ vs : List Value, WellFormedAll vs →
    sortedAll (toJsonAll vs) = toJsonAll vs
  | [], _ => rfl
  | v :: rest, h => by
    rw [toJsonAll, sortedAll, sorted_toJson v h.1, sortedAll_toJsonAll rest h.2]

theorem sortedMembers_toJsonFields : ∀ entries : List (String × Value), WellFormedFields entries →
    sortedMembers (toJsonFields entries) = toJsonFields entries
  | [], _ => rfl
  | (k, v) :: rest, h => by
    rw [toJsonFields, sortedMembers, sorted_toJson v h.1, sortedMembers_toJsonFields rest h.2]

end

/-! ## Values of documents -/

theorem wellFormed_ofInteger (i : Int) : (ofInteger i).WellFormed := by
  unfold ofInteger
  split
  · trivial
  · split <;> trivial

theorem wellFormed_row {vs : List Value} (h : WellFormedAll vs) : (row vs).WellFormed := by
  refine ⟨?_, ?_, h⟩
  · simp [maxRank]
  · simp [elementCount]

theorem wellFormed_ofFields {pairs : List (String × Value)} (h : WellFormedFields pairs) :
    (ofFields pairs).WellFormed := by
  refine ⟨Assoc.ascending_ofList pairs, wellFormedFields_iff.2 ?_⟩
  intro e he
  exact wellFormedFields_iff.1 h e (Assoc.mem_of_mem_ofList he)

mutual

/-- The value of a document is well formed. -/
theorem wellFormed_ofJson : ∀ j : Json, (ofJson j).WellFormed
  | .null => trivial
  | .bool _ => trivial
  | .integer i => wellFormed_ofInteger i
  | .float _ => trivial
  | .text _ => trivial
  | .array elements => wellFormed_row (wellFormedAll_ofJsonAll elements)
  | .object members => wellFormed_ofFields (wellFormedFields_ofJsonMembers members)

theorem wellFormedAll_ofJsonAll : ∀ js : List Json, WellFormedAll (ofJsonAll js)
  | [] => trivial
  | j :: rest => ⟨wellFormed_ofJson j, wellFormedAll_ofJsonAll rest⟩

theorem wellFormedFields_ofJsonMembers : ∀ ms : List (String × Json),
    WellFormedFields (ofJsonMembers ms)
  | [] => trivial
  | (_, j) :: rest => ⟨wellFormed_ofJson j, wellFormedFields_ofJsonMembers rest⟩

end

/-! ## There and back -/

theorem toJson_ofInteger_iff {i : Int} :
    (ofInteger i).toJson = .integer i ↔ -(2 ^ 63) ≤ i ∧ i < 2 ^ 64 := by
  unfold ofInteger
  split
  · rename_i s hs
    have hi := int64?_eq_some_iff.1 hs
    have hlow := Int64.le_toInt s
    have hhigh := Int64.toInt_lt s
    refine iff_of_true ?_ (by omega)
    rw [hi]
    rfl
  · rename_i hsigned
    split
    · rename_i n hn
      have hi := uint64?_eq_some_iff.1 hn
      have hhigh := n.toNat_lt
      refine iff_of_true ?_ (by omega)
      rw [hi]
      rfl
    · rename_i hunsigned
      have hout : ¬(-(2 ^ 63) ≤ i ∧ i < 2 ^ 64) := by
        unfold int64? at hsigned
        unfold uint64? at hunsigned
        simp only [ite_eq_right_iff, reduceCtorEq, imp_false] at hsigned hunsigned
        omega
      refine iff_of_false ?_ hout
      simp only [toJson, numberJson, ofDouble]
      split <;> simp

theorem ofDouble_eq_float_iff {x : Double} :
    ofDouble x = .float x ↔ x.isNaN = false ∧ x.isInfinite = false := by
  unfold ofDouble
  cases x.isNaN <;> cases x.isInfinite <;> simp

/-- Collecting members in a map and listing them again sorts them, if they are all kept. -/
theorem toJson_ofFields_iff {members : List (String × Json)} :
    (ofFields (ofJsonMembers members)).toJson = (Json.object members).sorted ↔
      (members.map Prod.fst).Nodup ∧
        toJsonFields (ofJsonMembers members) = sortedMembers members := by
  have hascending : Assoc.Ascending (toJsonFields (Assoc.ofList (ofJsonMembers members))) :=
    ascending_toJsonFields (Assoc.ascending_ofList _)
  -- Under distinct names the map holds the members in another order.
  have hkept : (members.map Prod.fst).Nodup →
      (toJsonFields (Assoc.ofList (ofJsonMembers members))).Perm
        (toJsonFields (ofJsonMembers members)) := by
    intro hd
    rw [← map_fst_ofJsonMembers] at hd
    rw [toJsonFields_eq, toJsonFields_eq]
    exact (Assoc.perm_ofList hd).map _
  rw [ofFields, toJson, sorted, Json.object.injEq]
  constructor
  · intro h
    have hperm := List.perm_insertionSort ByName (sortedMembers members)
    rw [← h] at hperm
    have hd : (members.map Prod.fst).Nodup := by
      rw [← map_fst_sortedMembers, ← (hperm.map Prod.fst).nodup_iff]
      exact hascending.imp ne_of_lt
    refine ⟨hd, eq_of_perm_of_keys ?_ ?_ ((hkept hd).symm.trans hperm)⟩
    · rwa [map_fst_toJsonFields, map_fst_ofJsonMembers]
    · rw [map_fst_toJsonFields, map_fst_ofJsonMembers, map_fst_sortedMembers]
  · rintro ⟨hd, h⟩
    rw [← h, insertionSort_eq hascending (hkept hd)]

mutual

/-- **A document comes back sorted exactly if it is proper.** -/
theorem toJson_ofJson_iff : ∀ j : Json, (ofJson j).toJson = j.sorted ↔ j.Proper
  | .null => iff_of_true rfl trivial
  | .bool _ => iff_of_true rfl trivial
  | .integer _ => toJson_ofInteger_iff
  | .float _ => ofDouble_eq_float_iff
  | .text _ => iff_of_true rfl trivial
  | .array elements => by
    rw [ofJson, row, toJson, sorted, Proper, Json.array.injEq]
    exact toJsonAll_ofJsonAll_iff elements
  | .object members => by
    rw [ofJson, toJson_ofFields_iff, Proper, toJsonFields_ofJsonMembers_iff members]

theorem toJsonAll_ofJsonAll_iff : ∀ js : List Json,
    toJsonAll (ofJsonAll js) = sortedAll js ↔ ProperAll js
  | [] => iff_of_true rfl trivial
  | j :: rest => by
    rw [ofJsonAll, toJsonAll, sortedAll, ProperAll, List.cons.injEq, toJson_ofJson_iff j,
      toJsonAll_ofJsonAll_iff rest]

theorem toJsonFields_ofJsonMembers_iff : ∀ ms : List (String × Json),
    toJsonFields (ofJsonMembers ms) = sortedMembers ms ↔ ProperMembers ms
  | [] => iff_of_true rfl trivial
  | (name, j) :: rest => by
    rw [ofJsonMembers, toJsonFields, sortedMembers, ProperMembers, List.cons.injEq, Prod.mk.injEq,
      toJson_ofJson_iff j, toJsonFields_ofJsonMembers_iff rest]
    simp

end

end Value

/-- **Which documents come back from their values.**  The value of a document is well formed.  It
gives the document back, members in ascending order, exactly if the document is proper; so the
document comes back as it was exactly if its members ascend as well. -/
theorem document_returned_iff (j : Json) :
    (Value.ofJson j).WellFormed ∧
    ((Value.ofJson j).toJson = j.sorted ↔ j.Proper) ∧
    ((Value.ofJson j).toJson = j ↔ j.Proper ∧ j.sorted = j) := by
  have hformed := Value.wellFormed_ofJson j
  have hiff := Value.toJson_ofJson_iff j
  refine ⟨hformed, hiff, ?_⟩
  constructor
  · intro h
    have hsorted : j.sorted = j := by
      have := Value.sorted_toJson _ hformed
      rwa [h] at this
    exact ⟨hiff.1 (h.trans hsorted.symm), hsorted⟩
  · rintro ⟨hproper, hsorted⟩
    rw [hiff.2 hproper, hsorted]

/-- The least and the greatest integers of 64 bits, the one between them, and a record. -/
def boundaryDocument : Json :=
  .object
    [("limits", .array [.integer (-9223372036854775808), .integer 9223372036854775808,
        .integer 18446744073709551615]),
      ("nested", .object [("", .null), ("x", .float ⟨0x3fe0000000000000⟩)])]

/-- Numbers on the bounds come back, and those beyond them do not. -/
theorem document_returned_boundary :
    (Value.ofJson boundaryDocument).toJson = boundaryDocument ∧
    (Value.ofJson (.integer 18446744073709551616)).toJson ≠ .integer 18446744073709551616 := by
  have hproper : boundaryDocument.Proper := by
    refine ⟨by decide, ?_, ?_, trivial⟩
    · simp [Json.Proper, Json.ProperAll]
    · exact ⟨by decide, trivial, ⟨by decide, by decide⟩, trivial⟩
  have hsorted : boundaryDocument.sorted = boundaryDocument := by cbv
  obtain ⟨-, -, hback⟩ := document_returned_iff boundaryDocument
  obtain ⟨-, -, hbeyond⟩ := document_returned_iff (.integer 18446744073709551616)
  refine ⟨hback.2 ⟨hproper, hsorted⟩, fun h => ?_⟩
  have hrange := (hbeyond.1 h).1.2
  omega

end PackedRecord
