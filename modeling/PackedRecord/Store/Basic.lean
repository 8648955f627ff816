import PackedRecord.Description.Basic
import PackedRecord.Store.Heap

/-!
# Stores

A store keeps raw records of allocated types by index, content of variable length, and a
catalog of type descriptions.  Operations take the state of the store and give it back; a read
may change it too, since a store may remember what it has read.
-/

namespace PackedRecord

/-- Where the raw records of a type are kept. -/
structure Allocation where
  name : String
  rowSize : Nat
  deriving DecidableEq, Repr

/-- State that keeps raw records of fixed size. -/
class RecordStore (σ : Type) extends Heap σ where
  /-- Allocate a type, or open its allocation if the size is the same. -/
  allocate : σ → String → Nat → Except Error (Allocation × σ)
  /-- Raw record at an index; one never written is all zeros. -/
  readRow : σ → Allocation → Nat → Except Error Bytes × σ
  /-- Keep a raw record at an index. -/
  writeRow : σ → Allocation → Nat → Bytes → Except Error σ
  /-- One past the highest written index. -/
  rowCount : σ → Allocation → Except Error Nat
  /-- State after the store was closed and opened again. -/
  reopen : σ → σ

/-- State that keeps type descriptions. -/
class Catalog (σ : Type) where
  /-- Keep a description; the same one may be registered again. -/
  register : σ → Description → Except Error σ
  /-- Description of a type. -/
  lookup : σ → String → Option Description
  /-- Names of all types, ascending. -/
  typeNames : σ → List String

/-- One past the highest index of some rows. -/
def nextIndex (rows : Assoc Nat Bytes) : Nat :=
  match rows.getLast? with
  | some (last, _) => last + 1
  | none => 0

/-- The type has no allocation. -/
def unallocated (name : String) : Error := .store (.unallocated name)

end PackedRecord
