/-!
# Association lists in ascending order

A finite map is a list of pairs whose keys strictly ascend, so equal maps are equal lists and
an enumeration is in key order.  Strings ascend by code point, which is the order of their
UTF-8 bytes.

Principal results: `Assoc.get?_insert_self` and `Assoc.get?_insert_of_ne` (an insertion is
seen at its own key and nowhere else).
-/

namespace PackedRecord

/-- Pairs of a key and a value. -/
abbrev Assoc (κ ν : Type) := List (κ × ν)

namespace Assoc

variable {κ ν : Type} [LT κ] [DecidableLT κ] [DecidableEq κ]

/-- Put a value under a key, replacing the one it had. -/
def insert (key : κ) (value : ν) : Assoc κ ν → Assoc κ ν
  | [] => [(key, value)]
  | (k, v) :: rest =>
    if key = k then (key, value) :: rest
    else if key < k then (key, value) :: (k, v) :: rest
    else (k, v) :: insert key value rest

omit [LT κ] [DecidableLT κ] in
/-- Value under a key. -/
def get? (key : κ) : Assoc κ ν → Option ν
  | [] => none
  | (k, v) :: rest => if key = k then some v else get? key rest

omit [LT κ] [DecidableLT κ] in
/-- Drop a key. -/
def erase (key : κ) : Assoc κ ν → Assoc κ ν
  | [] => []
  | (k, v) :: rest => if key = k then rest else (k, v) :: erase key rest

/-- The map of some pairs; of pairs with one key the last wins. -/
def ofList (pairs : List (κ × ν)) : Assoc κ ν :=
  pairs.foldl (fun map (k, v) => insert k v map) []

omit [LT κ] [DecidableLT κ] [DecidableEq κ] in
/-- Keys in order. -/
def keys (map : Assoc κ ν) : List κ := map.map Prod.fst

@[simp] theorem get?_insert_self (key : κ) (value : ν) (map : Assoc κ ν) :
    get? key (insert key value map) = some value := by
  induction map with
  | nil => simp [insert, get?]
  | cons pair rest ih =>
    obtain ⟨k, v⟩ := pair
    simp only [insert]
    split
    · simp [get?]
    · split
      · simp [get?]
      · rename_i h _
        simp [get?, h, ih]

theorem get?_insert_of_ne {key other : κ} (h : other ≠ key) (value : ν) (map : Assoc κ ν) :
    get? other (insert key value map) = get? other map := by
  induction map with
  | nil => simp [insert, get?, h]
  | cons pair rest ih =>
    obtain ⟨k, v⟩ := pair
    simp only [insert]
    split
    · rename_i hk
      subst hk
      simp [get?, h]
    · split
      · simp [get?, h]
      · simp only [get?, ih]

end Assoc

end PackedRecord
