import PackedRecord.Error

/-!
# Heaps

A heap keeps byte sequences of any length and hands out handles for them.  Codecs know heaps
only by this class; a codec call may also be made without one.
-/

namespace PackedRecord

/-- State that keeps content of variable length. -/
class Heap (σ : Type) where
  /-- Keep some bytes; on failure the state stays as it was. -/
  put : σ → Bytes → Except Error (Handle × σ)
  /-- Bytes a handle was issued for. -/
  get : σ → Handle → Except Error Bytes

/-- Handle of a heap object; a length beyond 32 bits has none. -/
def Handle.ofKey (key : UInt64) (length : Nat) : Except Error Handle :=
  match Handle.ofKey? key length with
  | some h => .ok h
  | none => .error (.store (.oversized length))

/-- The handle refers to no object of its length. -/
def Handle.danglingError (h : Handle) : Error := .store (.dangling h)

end PackedRecord
