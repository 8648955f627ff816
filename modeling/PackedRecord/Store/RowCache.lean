import PackedRecord.Word

/-!
# Row caches

A cache of bounded size that drops the entry not used for the longest time.  Entries are
listed from the latest used one on.
-/

namespace PackedRecord

/-- Rows by key, the latest used first. -/
structure RowCache (κ : Type) where
  capacity : Nat
  entries : List (κ × Bytes) := []
  deriving Repr

namespace RowCache

variable {κ : Type} [DecidableEq κ]

/-- Keep a row as the latest used one. -/
def put (cache : RowCache κ) (key : κ) (row : Bytes) : RowCache κ :=
  { cache with
    entries := ((key, row) :: cache.entries.filter fun e => e.1 ≠ key).take cache.capacity }

/-- Row under a key; it becomes the latest used one. -/
def get? (cache : RowCache κ) (key : κ) : Option (Bytes × RowCache κ) :=
  match cache.entries.find? fun e => e.1 = key with
  | some (_, row) => some (row, cache.put key row)
  | none => none

omit [DecidableEq κ] in
/-- The same cache without entries. -/
def clear (cache : RowCache κ) : RowCache κ := { cache with entries := [] }

end RowCache

end PackedRecord
