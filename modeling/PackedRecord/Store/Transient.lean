import PackedRecord.Store.Basic

/-!
# Stores in memory

Rows are kept per type, heap objects in order of writing; the key of a heap object is its
position.  The catalog is a map without an order, whose names are sorted when they are asked for.
-/

namespace PackedRecord

/-- Raw records of one type. -/
structure Table where
  rowSize : Nat
  rows : Assoc Nat Bytes
  deriving Repr

/-- A store that lives as long as the process. -/
structure TransientStore where
  tables : Assoc String Table := []
  heap : List Bytes := []
  /-- Descriptions by name, in no particular order. -/
  catalog : List (String × Description) := []

namespace TransientStore

def put (s : TransientStore) (content : Bytes) : Except Error (Handle × TransientStore) :=
  (Handle.ofKey (UInt64.ofNat s.heap.length) content.length).map fun handle =>
    (handle, { s with heap := s.heap ++ [content] })

def get (s : TransientStore) (h : Handle) : Except Error Bytes :=
  match h.key?.bind fun key => s.heap[key.toNat]? with
  | some content =>
    if content.length = h.length.toNat then .ok content else .error h.danglingError
  | none => .error h.danglingError

def allocate (s : TransientStore) (name : String) (rowSize : Nat) :
    Except Error (Allocation × TransientStore) :=
  match Assoc.get? name s.tables with
  | some table =>
    if table.rowSize = rowSize then .ok (⟨name, rowSize⟩, s)
    else .error (.conflict name (.allocatedSize table.rowSize rowSize))
  | none =>
    .ok (⟨name, rowSize⟩, { s with tables := Assoc.insert name ⟨rowSize, []⟩ s.tables })

def readRow (s : TransientStore) (a : Allocation) (index : Nat) : Except Error Bytes :=
  match Assoc.get? a.name s.tables with
  | some table => .ok ((Assoc.get? index table.rows).getD (List.replicate table.rowSize 0))
  | none => .error (unallocated a.name)

def writeRow (s : TransientStore) (a : Allocation) (index : Nat) (row : Bytes) :
    Except Error TransientStore :=
  match Assoc.get? a.name s.tables with
  | some table =>
    if row.length = table.rowSize then
      let table := { table with rows := Assoc.insert index row table.rows }
      .ok { s with tables := Assoc.insert a.name table s.tables }
    else .error (.bufferSize table.rowSize row.length)
  | none => .error (unallocated a.name)

def rowCount (s : TransientStore) (a : Allocation) : Except Error Nat :=
  match Assoc.get? a.name s.tables with
  | some table => .ok (nextIndex table.rows)
  | none => .error (unallocated a.name)

/-- A description is entered unless there is one of its name; another one of that name is a
conflict. -/
def register (s : TransientStore) (d : Description) : Except Error TransientStore :=
  match Assoc.get? d.name s.catalog with
  | some existing =>
    if existing.equal d then .ok s else .error (.conflict d.name .divergentDescription)
  | none => .ok { s with catalog := (d.name, d) :: s.catalog }

def lookup (s : TransientStore) (name : String) : Option Description :=
  Assoc.get? name s.catalog

/-- The order of names. -/
def nameLe (name other : String) : Bool := decide (name ≤ other)

def typeNames (s : TransientStore) : List String := (s.catalog.map Prod.fst).mergeSort nameLe

instance : RecordStore TransientStore where
  put := put
  get := get
  allocate := allocate
  readRow s a index := (s.readRow a index, s)
  writeRow := writeRow
  rowCount := rowCount
  reopen s := s

instance : Catalog TransientStore where
  register := register
  lookup := lookup
  typeNames := typeNames

end TransientStore

end PackedRecord
