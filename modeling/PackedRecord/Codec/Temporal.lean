import PackedRecord.Codec.Integer

/-!
# Codecs of points in time and spans

Both are signed counts of the member's unit.  A plain number is taken for such a count.  A
count beyond the range of points in time reads as the number itself, which writes back.
-/

namespace PackedRecord.Codec

open Time

/-- Write a count taken from a value, if there is one. -/
def writeCount (name : String) (order : ByteOrder) (width : Nat) (count : Option Int64) :
    Except Error Bytes :=
  match count with
  | some i => writeSigned name order width i
  | none => .error (.outOfRange name width)

def writeTimestamp (name : String) (order : ByteOrder) (width : Nat) (unit : Time.Unit)
    (v : Value) : Except Error Bytes :=
  match v with
  | .instant t =>
    writeCount name order width ((int64? t.micros).bind (unit.convert · .microseconds))
  | .number n => writeCount name order width n.toInt?
  | _ => .error (mismatch name "timestamp" v)

def readTimestamp (order : ByteOrder) (unit : Time.Unit) (window : Bytes) : Value :=
  let count := signedWord order window
  match (Unit.microseconds.convert count unit).bind
      fun micros => Instant.ofMicros? micros.toInt with
  | some t => .instant t
  | none => .number (.int count)

def writeDuration (name : String) (order : ByteOrder) (width : Nat) (unit : Time.Unit)
    (v : Value) : Except Error Bytes :=
  match v with
  | .span d => writeCount name order width ((d.convertTo unit).map Span.count)
  | .number n => writeCount name order width n.toInt?
  | _ => .error (mismatch name "duration" v)

def readDuration (order : ByteOrder) (unit : Time.Unit) (window : Bytes) : Value :=
  .span ⟨signedWord order window, unit⟩

end PackedRecord.Codec
