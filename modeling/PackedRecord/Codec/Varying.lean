import PackedRecord.Codec.Characters
import PackedRecord.Store.Heap

/-!
# Codecs of variable length

The slot of such a member holds a handle, the content lies on the heap.  The null handle reads
as an absent value and needs no heap.  Writing hands the heap on even when a later member
fails, since the content already is on it.
-/

namespace PackedRecord.Codec

variable {σ : Type} [Heap σ]

/-- Put content on the heap and write its handle. -/
def storeContent (name : String) (order : ByteOrder) (content : Bytes) (heap : Option σ) :
    Except Error Bytes × Option σ :=
  match heap with
  | none => (.error (.heapMissing name), none)
  | some h =>
    match Heap.put h content with
    | .error e => (.error e, some h)
    | .ok (handle, h) => (.ok (handle.write order), some h)

/-- Content that a slot refers to, if any. -/
def loadContent (name : String) (order : ByteOrder) (window : Bytes) (heap : Option σ) :
    Except Error (Option Bytes) :=
  let handle := Handle.read order window
  if handle.isNull then .ok none
  else
    match heap with
    | none => .error (.heapMissing name)
    | some h => (Heap.get h handle).map some

def writeVaryingText (name : String) (order : ByteOrder) (charset : Charset) (v : Value)
    (heap : Option σ) : Except Error Bytes × Option σ :=
  match textBytes name charset v with
  | .error e => (.error e, heap)
  | .ok content => storeContent name order content heap

def readVaryingText (name : String) (order : ByteOrder) (window : Bytes) (heap : Option σ) :
    Except Error Value :=
  (loadContent name order window heap).map fun content =>
    (content.map fun bytes => .text (Text.Utf8.decode bytes)).getD .null

def writeVaryingBytes (name : String) (order : ByteOrder) (v : Value) (heap : Option σ) :
    Except Error Bytes × Option σ :=
  match v.bytes? with
  | none => (.error (mismatch name "bytes" v), heap)
  | some content => storeContent name order content heap

def readVaryingBytes (name : String) (order : ByteOrder) (window : Bytes) (heap : Option σ) :
    Except Error Value :=
  (loadContent name order window heap).map fun content =>
    (content.map Value.bytes).getD .null

end PackedRecord.Codec
