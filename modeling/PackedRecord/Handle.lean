import PackedRecord.Word

/-!
# Handles of variable-length content

A variable-length member holds a handle of 16 bytes: the length of the content, the collection
and the index within the collection of the heap object.  Collections count from one, so the
handle of an object never is the all-zero window, which stands for no content.
-/

namespace PackedRecord

attribute [local instance] corePow

/-- Reference to an object of a heap. -/
structure Handle where
  length : UInt32
  collection : UInt64
  index : UInt32
  deriving DecidableEq, Repr

namespace Handle

/-- Bytes of a handle. -/
def width : Nat := 16

/-- The handle of no object. -/
def null : Handle := ⟨0, 0, 0⟩

/-- No collection, hence no object. -/
def isNull (h : Handle) : Bool := h.collection == 0

/-- Handle of the object `key` of `length` bytes, if the length fits its field. -/
def ofKey? (key : UInt64) (length : Nat) : Option Handle :=
  if length < 2 ^ 32 then
    some ⟨UInt32.ofNat length, UInt64.ofNat (key.toNat / 2 ^ 32 + 1),
      UInt32.ofNat (key.toNat % 2 ^ 32)⟩
  else none

/-- Key of the object; the high half of a collection number is ignored. -/
def key? (h : Handle) : Option UInt64 :=
  if h.collection = 0 then none
  else some (UInt64.ofNat ((h.collection.toNat - 1) % 2 ^ 32 * 2 ^ 32 + h.index.toNat))

/-- Content of a handle slot: length, collection and index, each in the given byte order. -/
def write (order : ByteOrder) (h : Handle) : Bytes :=
  Word.write order 4 h.length.toNat ++
    (Word.write order 8 h.collection.toNat ++ Word.write order 4 h.index.toNat)

/-- Handle held by a slot. -/
def read (order : ByteOrder) (window : Bytes) : Handle :=
  ⟨UInt32.ofNat (Word.read order (window.take 4)),
    UInt64.ofNat (Word.read order ((window.drop 4).take 8)),
    UInt32.ofNat (Word.read order ((window.drop 12).take 4))⟩

/-- Fields by name, as shown to a programmer. -/
def inspect (h : Handle) : String :=
  "VarLenHandle \x7b length: " ++ toString h.length.toNat ++ ", collection: " ++
    toString h.collection.toNat ++ ", index: " ++ toString h.index.toNat ++ " \x7d"

end Handle

end PackedRecord
