import PackedRecord.Codec.Record
import PackedRecord.Registry
import PackedRecord.Store.Basic

/-!
# Datasets

A dataset is the records of one compound type in a store.  Creating one registers the type and
allocates its rows; opening one builds the schema from the catalog for the shape at hand,
either anew or through a registry.  Writing a record puts its content of variable length on
the store's heap before the row is written.
-/

namespace PackedRecord

/-- Schema and allocation of the records of a type. -/
structure Dataset where
  schema : Schema
  allocation : Allocation

namespace Dataset

variable {σ : Type} [RecordStore σ] [Catalog σ]

/-- The dataset of a schema whose type is registered. -/
def attach (store : σ) (schema : Schema) : Except Error Dataset × σ :=
  match RecordStore.allocate store schema.name schema.totalSize with
  | .error e => (.error e, store)
  | .ok (allocation, store) => (.ok ⟨schema, allocation⟩, store)

/-- Register the type of a schema and allocate its rows. -/
def create (store : σ) (schema : Schema) : Except Error Dataset × σ :=
  match Catalog.register store schema.describe with
  | .error e => (.error e, store)
  | .ok store => attach store schema

omit [RecordStore σ] in
/-- Schema of a registered type for records of some shape. -/
def storedSchema (store : σ) (name : String) (shape : Shape) : Except Error Schema :=
  match Catalog.lookup store name with
  | some d => d.toSchema shape
  | none => .error (.store (.uncatalogued name))

/-- Open a registered type. -/
def load (store : σ) (name : String) (shape : Shape) : Except Error Dataset × σ :=
  match storedSchema store name shape with
  | .error e => (.error e, store)
  | .ok schema => attach store schema

/-- Open a registered type with the schema a registry has under its name. -/
def loadShared (store : σ) (registry : Registry) (name : String) (shape : Shape) :
    Except Error (Instance × Dataset) × σ × Registry :=
  match registry.getOrBuild name fun r => (storedSchema store name shape, r) with
  | (.error e, registry) => (.error e, store, registry)
  | (.ok shared, registry) =>
    let (result, store) := attach store shared.schema
    (result.map fun d => (shared, d), store, registry)

omit [Catalog σ]

variable {ρ : Type} [RecordAccess ρ]

/-- Write a record at an index. -/
def write (d : Dataset) (store : σ) (index : Nat) (record : ρ) : Except Error Unit × σ :=
  let (packed, heap) := d.schema.pack record (some store)
  let store := heap.getD store
  match packed with
  | .error e => (.error e, store)
  | .ok row =>
    match RecordStore.writeRow store d.allocation index row with
    | .error e => (.error e, store)
    | .ok store => (.ok (), store)

/-- Read the record at an index. -/
def read (ρ : Type) [RecordAccess ρ] (d : Dataset) (store : σ) (index : Nat) :
    Except Error ρ × σ :=
  let (row, store) := RecordStore.readRow store d.allocation index
  (row.bind fun bytes => d.schema.unpack ρ bytes (some store), store)

/-- Write rows at consecutive indices, up to the first failure. -/
def writeRows (d : Dataset) : σ → Nat → List Bytes → Except Error Unit × σ
  | store, _, [] => (.ok (), store)
  | store, index, row :: rest =>
    match RecordStore.writeRow store d.allocation index row with
    | .error e => (.error e, store)
    | .ok store => writeRows d store (index + 1) rest

/-- Write records at consecutive indices; all of them are packed before the first row is
written.  Records of no bytes leave no rows. -/
def writeAll (d : Dataset) (store : σ) (start : Nat) (records : List ρ) : Except Error Unit × σ :=
  let (packed, heap) := d.schema.packAll records (some store)
  let store := heap.getD store
  match packed with
  | .error e => (.error e, store)
  | .ok bytes =>
    let size := d.schema.totalSize
    d.writeRows store start (Codec.runs size (bytes.length / size) bytes)

/-- Read records at consecutive indices, up to the first failure. -/
def readRange (ρ : Type) [RecordAccess ρ] (d : Dataset) : σ → Nat → Nat → Except Error (List ρ) × σ
  | store, _, 0 => (.ok [], store)
  | store, start, count + 1 =>
    match d.read ρ store start with
    | (.error e, store) => (.error e, store)
    | (.ok record, store) =>
      let (later, store) := readRange ρ d store (start + 1) count
      (later.map (record :: ·), store)

/-- One past the highest written index. -/
def size (d : Dataset) (store : σ) : Except Error Nat := RecordStore.rowCount store d.allocation

end Dataset

end PackedRecord
