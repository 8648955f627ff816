import PackedRecord.Store.Basic
import PackedRecord.Store.RowCache

/-!
# Stores in a file

Four tables survive closing: rows by type and index, row sizes by type, heap objects by
ascending key, and descriptions by type.  Rows read or written lately are also kept in a cache,
which is lost on closing.
-/

namespace PackedRecord

/-- A store whose tables survive closing. -/
structure DurableStore where
  rows : Assoc String (Assoc Nat Bytes) := []
  allocations : Assoc String Nat := []
  heap : Assoc Nat Bytes := []
  catalog : Assoc String Description := []
  cache : RowCache (String × Nat)

namespace DurableStore

/-- Rows a cache keeps unless told otherwise. -/
def defaultCapacity : Nat := 10000

/-- A new store with a cache of some rows. -/
def empty (capacity : Nat) : DurableStore := { cache := ⟨capacity, []⟩ }

/-- Rows of a type. -/
def rowsOf (s : DurableStore) (name : String) : Assoc Nat Bytes :=
  (Assoc.get? name s.rows).getD []

/-- Key of the next heap object. -/
def nextKey (s : DurableStore) : Nat := nextIndex s.heap

def put (s : DurableStore) (content : Bytes) : Except Error (Handle × DurableStore) :=
  (Handle.ofKey (UInt64.ofNat s.nextKey) content.length).map fun handle =>
    (handle, { s with heap := Assoc.insert s.nextKey content s.heap })

def get (s : DurableStore) (h : Handle) : Except Error Bytes :=
  match h.key?.bind fun key => Assoc.get? key.toNat s.heap with
  | some content =>
    if content.length = h.length.toNat then .ok content else .error h.danglingError
  | none => .error h.danglingError

def allocate (s : DurableStore) (name : String) (rowSize : Nat) :
    Except Error (Allocation × DurableStore) :=
  match Assoc.get? name s.allocations with
  | some held =>
    if held = rowSize then .ok (⟨name, rowSize⟩, s)
    else .error (.conflict name (.allocatedSize held rowSize))
  | none =>
    .ok (⟨name, rowSize⟩, { s with allocations := Assoc.insert name rowSize s.allocations })

/-- A cached row is found without a look at the allocation; an unwritten row has the size the
caller states. -/
def readRow (s : DurableStore) (a : Allocation) (index : Nat) :
    Except Error Bytes × DurableStore :=
  match s.cache.get? (a.name, index) with
  | some (row, cache) => (.ok row, { s with cache := cache })
  | none =>
    if (Assoc.get? a.name s.allocations).isSome then
      match Assoc.get? index (s.rowsOf a.name) with
      | some row => (.ok row, { s with cache := s.cache.put (a.name, index) row })
      | none => (.ok (List.replicate a.rowSize 0), s)
    else (.error (unallocated a.name), s)

def writeRow (s : DurableStore) (a : Allocation) (index : Nat) (row : Bytes) :
    Except Error DurableStore :=
  match Assoc.get? a.name s.allocations with
  | some held =>
    if row.length = held then
      .ok { s with
        rows := Assoc.insert a.name (Assoc.insert index row (s.rowsOf a.name)) s.rows
        cache := s.cache.put (a.name, index) row }
    else .error (.bufferSize held row.length)
  | none => .error (unallocated a.name)

/-- Description of a type, as the table keeps it. -/
def lookup (s : DurableStore) (name : String) : Option Description := Assoc.get? name s.catalog

/-- A description that is found under the name must be the same one; the table gets the new one
only where nothing is found. -/
def register (s : DurableStore) (d : Description) : Except Error DurableStore :=
  match s.lookup d.name with
  | none => .ok { s with catalog := Assoc.insert d.name d s.catalog }
  | some existing =>
    if !existing.equal d then .error (.conflict d.name .divergentDescription) else .ok s

/-- The table is walked in the order of its keys. -/
def typeNames (s : DurableStore) : List String := s.catalog.keys

instance : RecordStore DurableStore where
  put := put
  get := get
  allocate := allocate
  readRow := readRow
  writeRow := writeRow
  rowCount s a := .ok (nextIndex (s.rowsOf a.name))
  reopen s := { s with cache := s.cache.clear }

instance : Catalog DurableStore where
  register := register
  lookup := lookup
  typeNames := typeNames

end DurableStore

end PackedRecord
