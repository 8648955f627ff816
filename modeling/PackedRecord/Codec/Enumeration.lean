import PackedRecord.Codec.Integer
import PackedRecord.EnumTable

/-!
# Codecs of enums and bit fields

An enum member holds a code of its table; codes that the table lacks read as unlisted.  A bit
field holds words of eight bytes, least significant first, cut to the window; the byte order
applies to the window as a whole.
-/

namespace PackedRecord.Codec

/-- A value that names no entry of a table, as the error text shows it. -/
def describeChoice : Value → String
  | .choice (.known _ label) => label
  | .text label => label
  | .choice (.unlisted code) => toString code.toInt
  | .number n => "ordinal " ++ Number.plainStyle.text n.toDouble
  | v => v.kindName

/-- Why a value has no code in a table. -/
def noCode (name : String) (table : EnumTable) (v : Value) : Error :=
  match v with
  | .choice _ | .text _ | .number _ => .unlistedLabel name table.name (describeChoice v)
  | _ => mismatch name "enum" v

def writeChoice (name : String) (order : ByteOrder) (width : Nat) (table : EnumTable)
    (v : Value) : Except Error Bytes :=
  match table.code? v with
  | none => .error (noCode name table v)
  | some code =>
    if table.isSigned then writeSigned name order width code
    else if code.toInt < 0 then .error (.outOfRange name width)
    else writeUnsigned name order width code.toUInt64

def readChoice (order : ByteOrder) (table : EnumTable) (window : Bytes) : Value :=
  .choice (table.read
    (if table.isSigned then signedWord order window else (unsignedWord order window).toInt64))

/-- The first `count` runs of `width` bytes. -/
def runs (width : Nat) : Nat → Bytes → List Bytes
  | 0, _ => []
  | count + 1, bytes => bytes.take width :: runs width count (bytes.drop width)

/-- Words of a bit set, as a bit field takes it from a value. -/
def writeBits (name : String) (order : ByteOrder) (width : Nat) (v : Value) :
    Except Error Bytes :=
  let write (words : List UInt64) : Except Error Bytes :=
    let bytes := words.flatMap fun w => Word.digits 8 w.toNat
    if (bytes.drop width).all (· == 0) then
      .ok (order.arrange (bytes.take width ++ zeros (width - bytes.length)))
    else .error (.outOfRange name width)
  match v with
  | .bits words => write words
  | .number n =>
    match n.toNat? with
    | some w => write [w]
    | none => .error (.outOfRange name width)
  | _ => .error (mismatch name "bitfield" v)

def readBits (order : ByteOrder) (window : Bytes) : Value :=
  .bits ((runs 8 ((window.length + 7) / 8) (order.arrange window)).map fun run =>
    UInt64.ofNat (Word.value run))

end PackedRecord.Codec
