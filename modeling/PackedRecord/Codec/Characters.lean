import PackedRecord.Codec.Integer
import PackedRecord.Text.Utf8

/-!
# Codecs of texts

A string of fixed width holds the UTF-8 bytes of the text, a NUL and zeros up to its end, and
reads up to the first NUL.  Bytes that are no UTF-8 read as U+FFFD.
-/

namespace PackedRecord.Codec

/-- The text a string member takes from a value: a text, or the label of a known choice. -/
def textOf? : Value → Option String
  | .text s => some s
  | .choice c => c.label?
  | _ => none

/-- Bytes of a text, if its character set allows it. -/
def textBytes (name : String) (charset : Charset) (v : Value) : Except Error Bytes :=
  match textOf? v with
  | none => .error (mismatch name "string" v)
  | some s =>
    if charset = .ascii ∧ Text.Utf8.isAscii s = false then
      .error (.kindMismatch name "ascii string" "utf-8 string")
    else .ok (Text.Utf8.encode s)

/-- The bytes, one NUL and zeros; the NUL must fit. -/
def writeFixedText (name : String) (width : Nat) (charset : Charset) (v : Value) :
    Except Error Bytes :=
  match textBytes name charset v with
  | .error e => .error e
  | .ok bytes =>
    if width < bytes.length + 1 then .error (.textTooLong name (bytes.length + 1) width)
    else .ok (bytes ++ zeros (width - bytes.length))

/-- The text before the first NUL, or all of the window. -/
def readFixedText (window : Bytes) : Value :=
  .text (Text.Utf8.decode (window.takeWhile (· != 0)))

end PackedRecord.Codec
