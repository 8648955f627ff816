import Mathlib.Data.String.Basic
import PackedRecord.Assoc

/-!
# Maps as ascending lists

* `Ascending` — the keys of a map strictly ascend; `ascending_insert` keeps it.
* `insert_of_above` — a key above all others goes to the end.
* `ext` — ascending maps with the same look-ups are the same list.
* `insert_comm` — values under distinct keys are inserted in any order.
* `get?_insertAll_of_mem` — a look-up after some insertions under distinct keys.
* `perm_ofList` — the map of pairs with distinct keys holds just these pairs.
-/

namespace PackedRecord.Assoc

variable {κ ν : Type} [LT κ] [DecidableLT κ] [DecidableEq κ]

/-- The keys strictly ascend. -/
def Ascending (map : Assoc κ ν) : Prop := (map.map Prod.fst).Pairwise (· < ·)

omit [DecidableLT κ] [DecidableEq κ] in
theorem ascending_nil : Ascending ([] : Assoc κ ν) := List.Pairwise.nil

omit [DecidableLT κ] [DecidableEq κ] in
theorem ascending_cons {k : κ} {v : ν} {rest : Assoc κ ν} :
    Ascending ((k, v) :: rest) ↔ (∀ e ∈ rest, k < e.1) ∧ Ascending rest := by
  simp only [Ascending, List.map_cons, List.pairwise_cons, List.mem_map]
  constructor
  · rintro ⟨h, hr⟩
    exact ⟨fun e he => h _ ⟨e, he, rfl⟩, hr⟩
  · rintro ⟨h, hr⟩
    exact ⟨fun _ ⟨e, he, hk⟩ => hk ▸ h e he, hr⟩

/-! ## Membership -/

omit [LT κ] [DecidableLT κ] in
theorem get?_eq_none_iff {key : κ} {map : Assoc κ ν} :
    get? key map = none ↔ ∀ e ∈ map, e.1 ≠ key := by
  induction map with
  | nil => simp [get?]
  | cons e rest ih =>
    obtain ⟨k, v⟩ := e
    simp only [get?, List.mem_cons, forall_eq_or_imp]
    split
    · rename_i h
      simp [h]
    · rename_i h
      rw [ih]
      exact ⟨fun hr => ⟨fun he => h he.symm, hr⟩, And.right⟩

omit [LT κ] [DecidableLT κ] in
theorem mem_of_get? {key : κ} {value : ν} {map : Assoc κ ν} (h : get? key map = some value) :
    (key, value) ∈ map := by
  induction map with
  | nil => cases h
  | cons e rest ih =>
    obtain ⟨k, v⟩ := e
    simp only [get?] at h
    split at h
    · rename_i hk
      cases h
      rw [hk]
      exact List.mem_cons_self
    · exact List.mem_cons_of_mem _ (ih h)

omit [LT κ] [DecidableLT κ] in
theorem isSome_get?_iff {key : κ} {map : Assoc κ ν} :
    (get? key map).isSome ↔ key ∈ keys map := by
  rw [← Option.ne_none_iff_isSome, Ne, get?_eq_none_iff]
  simp [keys]

theorem mem_insert {key : κ} {value : ν} {map : Assoc κ ν} {e : κ × ν}
    (h : e ∈ insert key value map) : e = (key, value) ∨ e ∈ map := by
  induction map with
  | nil => exact .inl (List.mem_singleton.1 h)
  | cons x rest ih =>
    obtain ⟨k, v⟩ := x
    simp only [insert] at h
    split at h
    · obtain rfl | h := List.mem_cons.1 h
      · exact .inl rfl
      · exact .inr (List.mem_cons_of_mem _ h)
    split at h
    · obtain rfl | h := List.mem_cons.1 h
      · exact .inl rfl
      · exact .inr h
    · obtain rfl | h := List.mem_cons.1 h
      · exact .inr List.mem_cons_self
      · exact (ih h).imp id (List.mem_cons_of_mem _)

omit [LT κ] [DecidableLT κ] in
theorem mem_of_mem_erase {key : κ} {map : Assoc κ ν} {e : κ × ν} (h : e ∈ erase key map) :
    e ∈ map := by
  induction map with
  | nil => exact h
  | cons x rest ih =>
    obtain ⟨k, v⟩ := x
    simp only [erase] at h
    split at h
    · exact List.mem_cons_of_mem _ h
    · obtain rfl | h := List.mem_cons.1 h
      · exact List.mem_cons_self
      · exact List.mem_cons_of_mem _ (ih h)

omit [LT κ] [DecidableLT κ] in
theorem get?_erase_of_ne {key other : κ} (h : other ≠ key) (map : Assoc κ ν) :
    get? other (erase key map) = get? other map := by
  induction map with
  | nil => rfl
  | cons e rest ih =>
    obtain ⟨k, v⟩ := e
    rw [erase]
    split
    · rename_i hk
      rw [get?, if_neg (hk ▸ h)]
    · rw [get?, get?, ih]

/-- A key above all others goes to the end. -/
theorem insert_of_above {ν : Type} {key : Nat} {value : ν} {map : Assoc Nat ν}
    (h : ∀ e ∈ map, e.1 < key) : insert key value map = map ++ [(key, value)] := by
  induction map with
  | nil => rfl
  | cons e rest ih =>
    obtain ⟨k, v⟩ := e
    have hk : k < key := h _ List.mem_cons_self
    rw [insert, if_neg (by omega), if_neg (by omega),
      ih fun e he => h e (List.mem_cons_of_mem _ he)]
    rfl

/-- Erasing what was inserted under a new key. -/
theorem erase_insert {key : κ} {map : Assoc κ ν} (h : get? key map = none) (value : ν) :
    erase key (insert key value map) = map := by
  induction map with
  | nil => simp [insert, erase]
  | cons e rest ih =>
    obtain ⟨k, v⟩ := e
    have hk : key ≠ k := by
      rintro rfl
      simp [get?] at h
    rw [get?, if_neg hk] at h
    rw [insert, if_neg hk]
    split
    · rw [erase, if_pos rfl]
    · rw [erase, if_neg hk, ih h]

/-! ## Order -/

section Order

variable [IsTrans κ (· < ·)] [Std.Trichotomous (α := κ) (· < ·)]

theorem ascending_insert {map : Assoc κ ν} (h : Ascending map) (key : κ) (value : ν) :
    Ascending (insert key value map) := by
  induction map with
  | nil => exact ascending_cons.2 ⟨fun _ he => absurd he List.not_mem_nil, ascending_nil⟩
  | cons e rest ih =>
    obtain ⟨k, v⟩ := e
    obtain ⟨hk, hr⟩ := ascending_cons.1 h
    simp only [insert]
    split
    · rename_i he
      exact ascending_cons.2 ⟨he ▸ hk, hr⟩
    split
    · rename_i hlt
      refine ascending_cons.2 ⟨fun e he => ?_, h⟩
      obtain rfl | he := List.mem_cons.1 he
      · exact hlt
      · exact IsTrans.trans _ _ _ hlt (hk e he)
    · rename_i hne hnlt
      have hgt : k < key := by
        by_contra hn
        exact hne (Std.Trichotomous.trichotomous _ _ hnlt hn)
      refine ascending_cons.2 ⟨fun e he => ?_, ih hr⟩
      obtain rfl | he := mem_insert he
      · exact hgt
      · exact hk e he

omit [DecidableLT κ] [IsTrans κ (· < ·)] [Std.Trichotomous (α := κ) (· < ·)] in
/-- Behind the first entry its key does not occur again. -/
theorem get?_tail [Std.Irrefl (α := κ) (· < ·)] {k : κ} {v : ν} {rest : Assoc κ ν}
    (h : Ascending ((k, v) :: rest)) : get? k rest = none := by
  have hirrefl : ¬k < k := Std.Irrefl.irrefl k
  refine get?_eq_none_iff.2 fun e he hkey => hirrefl ?_
  have hlt := (ascending_cons.1 h).1 e he
  rwa [hkey] at hlt

omit [DecidableLT κ] [Std.Trichotomous (α := κ) (· < ·)] in
/-- Below the first key there is nothing. -/
theorem get?_eq_none_of_lt [Std.Irrefl (α := κ) (· < ·)] {key k : κ} {v : ν} {rest : Assoc κ ν}
    (h : Ascending ((k, v) :: rest)) (hlt : key < k) : get? key ((k, v) :: rest) = none := by
  obtain ⟨hk, -⟩ := ascending_cons.1 h
  have hirrefl : ¬key < key := Std.Irrefl.irrefl key
  refine get?_eq_none_iff.2 fun e he hkey => ?_
  obtain rfl | he := List.mem_cons.1 he
  · subst hkey
    exact hirrefl hlt
  · subst hkey
    exact hirrefl (IsTrans.trans _ _ _ hlt (hk e he))

omit [Std.Trichotomous (α := κ) (· < ·)] in
/-- Inserting the old value again undoes an insertion. -/
theorem insert_insert [Std.Irrefl (α := κ) (· < ·)] {key : κ} {value : ν} {map : Assoc κ ν}
    (hm : Ascending map) (h : get? key map = some value) (other : ν) :
    insert key value (insert key other map) = map := by
  induction map with
  | nil => cases h
  | cons e rest ih =>
    obtain ⟨k, v⟩ := e
    by_cases hk : key = k
    · subst hk
      rw [get?, if_pos rfl] at h
      cases h
      rw [insert, if_pos rfl, insert, if_pos rfl]
    · have hlt : ¬key < k := fun hlt => by
        cases (get?_eq_none_of_lt hm hlt).symm.trans h
      rw [get?, if_neg hk] at h
      rw [insert, if_neg hk, if_neg hlt, insert, if_neg hk, if_neg hlt,
        ih (ascending_cons.1 hm).2 h]

omit [DecidableLT κ] in
/-- **Ascending maps with the same look-ups are equal.** -/
theorem ext [Std.Irrefl (α := κ) (· < ·)] : ∀ {map other : Assoc κ ν}, Ascending map →
    Ascending other → (∀ key, get? key map = get? key other) → map = other
  | [], [], _, _, _ => rfl
  | [], (l, w) :: _, _, _, h => by
    have := h l
    simp [get?] at this
  | (k, v) :: _, [], _, _, h => by
    have := h k
    simp [get?] at this
  | (k, v) :: rest, (l, w) :: others, hm, ho, h => by
    -- Neither first key can lie below the other: it would be missing there.
    have hkl : k = l := by
      refine Std.Trichotomous.trichotomous (r := (· < ·)) _ _ (fun hlt => ?_) (fun hlt => ?_)
      · have := h k
        rw [get?_eq_none_of_lt ho hlt] at this
        simp [get?] at this
      · have := h l
        rw [get?_eq_none_of_lt hm hlt] at this
        simp [get?] at this
    subst hkl
    have hvw : v = w := by
      have := h k
      simpa [get?] using this
    subst hvw
    have hrest : rest = others := by
      refine ext (ascending_cons.1 hm).2 (ascending_cons.1 ho).2 fun key => ?_
      by_cases hkey : key = k
      · rw [hkey, get?_tail hm, get?_tail ho]
      · simpa [get?, hkey] using h key
    rw [hrest]

/-- Values under distinct keys are inserted in any order. -/
theorem insert_comm [Std.Irrefl (α := κ) (· < ·)] {map : Assoc κ ν}
    (h : Ascending map) {key other : κ} (hne : key ≠ other) (value w : ν) :
    insert key value (insert other w map) = insert other w (insert key value map) := by
  refine ext (ascending_insert (ascending_insert h ..) ..)
    (ascending_insert (ascending_insert h ..) ..) fun k => ?_
  by_cases hkey : k = key
  · subst hkey
    rw [get?_insert_self, get?_insert_of_ne hne, get?_insert_self]
  · rw [get?_insert_of_ne hkey]
    by_cases hother : k = other
    · subst hother
      rw [get?_insert_self, get?_insert_self]
    · rw [get?_insert_of_ne hother, get?_insert_of_ne hother, get?_insert_of_ne hkey]

end Order

/-! ## Runs of insertions -/

/-- Insert some pairs in order. -/
def insertAll (pairs : List (κ × ν)) (map : Assoc κ ν) : Assoc κ ν :=
  pairs.foldl (fun map e => insert e.1 e.2 map) map

@[simp] theorem insertAll_nil (map : Assoc κ ν) : insertAll [] map = map := rfl

@[simp] theorem insertAll_cons (e : κ × ν) (pairs : List (κ × ν)) (map : Assoc κ ν) :
    insertAll (e :: pairs) map = insertAll pairs (insert e.1 e.2 map) := rfl

theorem ascending_insertAll [IsTrans κ (· < ·)] [Std.Trichotomous (α := κ) (· < ·)]
    {pairs : List (κ × ν)} {map : Assoc κ ν} (h : Ascending map) :
    Ascending (insertAll pairs map) := by
  induction pairs generalizing map with
  | nil => exact h
  | cons e pairs ih => exact ih (ascending_insert h _ _)

theorem get?_insertAll_of_notMem {pairs : List (κ × ν)} {map : Assoc κ ν} {key : κ}
    (h : key ∉ pairs.map Prod.fst) : get? key (insertAll pairs map) = get? key map := by
  induction pairs generalizing map with
  | nil => rfl
  | cons e pairs ih =>
    simp only [List.map_cons, List.mem_cons, not_or] at h
    rw [insertAll_cons, ih h.2, get?_insert_of_ne h.1]

/-- A key is there exactly if a pair has brought it or it was there. -/
theorem mem_keys_insertAll {pairs : List (κ × ν)} {map : Assoc κ ν} {key : κ} :
    key ∈ keys (insertAll pairs map) ↔ key ∈ pairs.map Prod.fst ∨ key ∈ keys map := by
  induction pairs generalizing map with
  | nil => simp
  | cons e pairs ih =>
    have hinsert : key ∈ keys (insert e.1 e.2 map) ↔ key = e.1 ∨ key ∈ keys map := by
      rw [← isSome_get?_iff, ← isSome_get?_iff]
      by_cases hkey : key = e.1
      · subst hkey
        simp
      · simp [get?_insert_of_ne hkey, hkey]
    rw [insertAll_cons, ih, hinsert, List.map_cons, List.mem_cons, or_assoc, or_left_comm]

/-- Of insertions under distinct keys each one is seen. -/
theorem get?_insertAll_of_mem {pairs : List (κ × ν)} (hd : (pairs.map Prod.fst).Nodup)
    {map : Assoc κ ν} {key : κ} {value : ν} (h : (key, value) ∈ pairs) :
    get? key (insertAll pairs map) = some value := by
  induction pairs generalizing map with
  | nil => cases h
  | cons e pairs ih =>
    obtain ⟨hne, hd⟩ := List.nodup_cons.1 hd
    obtain rfl | h := List.mem_cons.1 h
    · rw [insertAll_cons, get?_insertAll_of_notMem hne, get?_insert_self]
    · rw [insertAll_cons]
      exact ih hd h

/-! ## Maps of some pairs -/

theorem ofList_eq_insertAll (pairs : List (κ × ν)) : ofList pairs = insertAll pairs [] := rfl

theorem ascending_ofList [IsTrans κ (· < ·)] [Std.Trichotomous (α := κ) (· < ·)]
    (pairs : List (κ × ν)) : Ascending (ofList pairs) := by
  rw [ofList_eq_insertAll]
  exact ascending_insertAll ascending_nil

theorem perm_insert {key : κ} {map : Assoc κ ν} (h : key ∉ keys map) (value : ν) :
    (insert key value map).Perm ((key, value) :: map) := by
  induction map with
  | nil => exact .refl _
  | cons e rest ih =>
    obtain ⟨k, v⟩ := e
    simp only [keys, List.map_cons, List.mem_cons, not_or] at h
    rw [insert, if_neg h.1]
    split
    · exact .refl _
    · exact ((ih h.2).cons _).trans (.swap ..)

/-- Insertions under new and distinct keys lose nothing. -/
theorem perm_insertAll {pairs : List (κ × ν)} {map : Assoc κ ν}
    (hd : (pairs.map Prod.fst).Nodup) (hnew : ∀ key ∈ pairs.map Prod.fst, key ∉ keys map) :
    (insertAll pairs map).Perm (pairs ++ map) := by
  induction pairs generalizing map with
  | nil => exact .refl _
  | cons e pairs ih =>
    simp only [List.map_cons, List.nodup_cons, List.forall_mem_cons] at hd hnew
    have hinsert := perm_insert hnew.1 e.2
    have hrest : ∀ key ∈ pairs.map Prod.fst, key ∉ keys (insert e.1 e.2 map) := by
      intro key hkey hmem
      have hcons : key ∈ ((e.1, e.2) :: map).map Prod.fst := (hinsert.map Prod.fst).subset hmem
      rcases List.mem_cons.1 hcons with rfl | hmap
      · exact hd.1 hkey
      · exact hnew.2 key hkey hmap
    exact (ih hd.2 hrest).trans ((hinsert.append_left pairs).trans List.perm_middle)

theorem perm_ofList {pairs : List (κ × ν)} (hd : (pairs.map Prod.fst).Nodup) :
    (ofList pairs).Perm pairs := by
  have hperm : (insertAll pairs []).Perm (pairs ++ []) :=
    perm_insertAll hd fun _ _ => List.not_mem_nil
  rwa [List.append_nil, ← ofList_eq_insertAll] at hperm

theorem mem_of_mem_insertAll {pairs : List (κ × ν)} {map : Assoc κ ν} {e : κ × ν}
    (h : e ∈ insertAll pairs map) : e ∈ pairs ∨ e ∈ map := by
  induction pairs generalizing map with
  | nil => exact .inr h
  | cons x pairs ih =>
    rcases ih h with h | h
    · exact .inl (List.mem_cons_of_mem _ h)
    · rcases mem_insert h with rfl | h
      · exact .inl List.mem_cons_self
      · exact .inr h

theorem mem_of_mem_ofList {pairs : List (κ × ν)} {e : κ × ν} (h : e ∈ ofList pairs) :
    e ∈ pairs := by
  rw [ofList_eq_insertAll] at h
  rcases mem_of_mem_insertAll h with h | h
  · exact h
  · cases h

end PackedRecord.Assoc
