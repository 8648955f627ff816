import PackedRecord.Error
import PackedRecord.Value.Basic

/-!
# Codecs of flags, numbers and raw bytes

Each writer returns a window of the given width, each reader takes the whole window.  Integers
are two's complement or unsigned words of 1, 2, 4 or 8 bytes; floats have 4 or 8 bytes.  A flag
is the word 0 or 1 in the first eight bytes of its window and reads as true if any byte is set.
-/

namespace PackedRecord.Codec

/-- The value has another kind than the member takes. -/
def mismatch (name expected : String) (v : Value) : Error :=
  .kindMismatch name expected v.kindName

/-- A window of zeros, which stands for an absent value. -/
def zeros (width : Nat) : Bytes := List.replicate width 0

/-- A number other than zero is true, one that is no number included. -/
def flag? : Value → Option Bool
  | .bool b => some b
  | .number n => some (!n.toDouble.isZero)
  | _ => none

def writeFlag (name : String) (order : ByteOrder) (width : Nat) (v : Value) :
    Except Error Bytes :=
  match flag? v with
  | some b => .ok (Word.write order (min width 8) b.toNat ++ zeros (width - 8))
  | none => .error (mismatch name "bool" v)

/-- Any byte other than zero reads as true. -/
def readFlag (window : Bytes) : Value := .bool (window.any (· != 0))

/-- Write a signed word, if it fits. -/
def writeSigned (name : String) (order : ByteOrder) (width : Nat) (i : Int64) :
    Except Error Bytes :=
  if Word.FitsSigned width i.toInt then .ok (Word.writeSigned order width i.toInt)
  else .error (.outOfRange name width)

/-- Write an unsigned word, if it fits. -/
def writeUnsigned (name : String) (order : ByteOrder) (width : Nat) (n : UInt64) :
    Except Error Bytes :=
  if Word.FitsUnsigned width n.toNat then .ok (Word.write order width n.toNat)
  else .error (.outOfRange name width)

/-- Signed word of a window. -/
def signedWord (order : ByteOrder) (window : Bytes) : Int64 :=
  Int64.ofInt (Word.readSigned order window)

/-- Unsigned word of a window. -/
def unsignedWord (order : ByteOrder) (window : Bytes) : UInt64 :=
  UInt64.ofNat (Word.read order window)

/-- The number an integer member takes from a value: a flag counts as 0 or 1, an unlisted
choice as its code. -/
def integerOf? : Value → Option Number
  | .number n => some n
  | .bool b => some (.nat b.toUInt64)
  | .choice (.unlisted code) => some (.int code)
  | _ => none

def writeInteger (name : String) (order : ByteOrder) (width : Nat) (signed : Bool) (v : Value) :
    Except Error Bytes :=
  match integerOf? v with
  | none => .error (mismatch name "integer" v)
  | some n =>
    if signed then
      match n.toInt? with
      | some i => writeSigned name order width i
      | none => .error (.outOfRange name width)
    else
      match n.toNat? with
      | some m => writeUnsigned name order width m
      | none => .error (.outOfRange name width)

def readInteger (order : ByteOrder) (signed : Bool) (window : Bytes) : Value :=
  .number (if signed then .int (signedWord order window) else .nat (unsignedWord order window))

def writeFloat (name : String) (order : ByteOrder) (width : Nat) (v : Value) :
    Except Error Bytes :=
  match v.double? with
  | none => .error (mismatch name "float" v)
  | some x =>
    if width = 4 then .ok (Word.write order 4 x.toSingle.toNat)
    else .ok (Word.write order 8 x.bits.toNat)

def readFloat (order : ByteOrder) (window : Bytes) : Value :=
  .number (.float
    (if window.length = 4 then .ofSingle (UInt32.ofNat (Word.read order window))
     else ⟨unsignedWord order window⟩))

/-- Raw bytes must fill the window exactly. -/
def writeRaw (name : String) (width : Nat) (v : Value) : Except Error Bytes :=
  match v.bytes? with
  | none => .error (mismatch name "bytes" v)
  | some content =>
    if content.length = width then .ok content
    else .error (.extents name [width] [content.length])

end PackedRecord.Codec
