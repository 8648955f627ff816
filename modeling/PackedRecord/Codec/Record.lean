import PackedRecord.Codec.Enumeration
import PackedRecord.Codec.Temporal
import PackedRecord.Codec.Varying
import PackedRecord.Record

/-!
# Codecs of records

A record is written member by member into a window of zeros; absent and null values leave
zeros, and so do unmapped members and padding.  A nested record is a map of its own and keeps
its own byte order.  Reading yields one reading per member that the record receives, in
storage order, and `Schema.unpack` fills a record with them up to the first failure.
-/

namespace PackedRecord

variable {σ : Type} [Heap σ]

/-! ## Elements -/

namespace Scalar

/-- Write a value as a window of `width` bytes. -/
def write (name : String) (order : ByteOrder) (width : Nat) (codec : Scalar) (v : Value)
    (heap : Option σ) : Except Error Bytes × Option σ :=
  match codec with
  | bool => (Codec.writeFlag name order width v, heap)
  | integer signed => (Codec.writeInteger name order width signed v, heap)
  | float => (Codec.writeFloat name order width v, heap)
  | fixedText charset => (Codec.writeFixedText name width charset v, heap)
  | varyingText charset => Codec.writeVaryingText name order charset v heap
  | varyingBytes => Codec.writeVaryingBytes name order v heap
  | enumeration table => (Codec.writeChoice name order width table v, heap)
  | bitField => (Codec.writeBits name order width v, heap)
  | timestamp unit => (Codec.writeTimestamp name order width unit v, heap)
  | duration unit => (Codec.writeDuration name order width unit v, heap)
  | raw => (Codec.writeRaw name width v, heap)

/-- Read the value of a window. -/
def read (name : String) (order : ByteOrder) (codec : Scalar) (window : Bytes)
    (heap : Option σ) : Except Error Value :=
  match codec with
  | bool => .ok (Codec.readFlag window)
  | integer signed => .ok (Codec.readInteger order signed window)
  | float => .ok (Codec.readFloat order window)
  | fixedText _ => .ok (Codec.readFixedText window)
  | varyingText _ => Codec.readVaryingText name order window heap
  | varyingBytes => Codec.readVaryingBytes name order window heap
  | enumeration table => .ok (Codec.readChoice order table window)
  | bitField => .ok (Codec.readBits order window)
  | timestamp unit => .ok (Codec.readTimestamp order unit window)
  | duration unit => .ok (Codec.readDuration order unit window)
  | raw => .ok (.bytes window)

end Scalar

/-- Write elements one behind the other; a null element is a window of zeros. -/
def writeRun (write : Value → Option σ → Except Error Bytes × Option σ) (width : Nat) :
    List Value → Option σ → Except Error Bytes × Option σ
  | [], heap => (.ok [], heap)
  | v :: rest, heap =>
    match if v.isNull then (.ok (Codec.zeros width), heap) else write v heap with
    | (.error e, heap) => (.error e, heap)
    | (.ok window, heap) =>
      match writeRun write width rest heap with
      | (.error e, heap) => (.error e, heap)
      | (.ok windows, heap) => (.ok (window ++ windows), heap)

/-- Read windows up to the first failure. -/
def readRun (read : Bytes → Except Error Value) : List Bytes → Except Error (List Value)
  | [] => .ok []
  | window :: rest =>
    match read window with
    | .error e => .error e
    | .ok v => (readRun read rest).map (v :: ·)

/-- Replace the bytes of a buffer from an offset on. -/
def splice (buffer : Bytes) (offset : Nat) (window : Bytes) : Bytes :=
  buffer.take offset ++ window ++ buffer.drop (offset + window.length)

/-- Bytes of a member in a buffer. -/
def Placement.window (p : Placement) (buffer : Bytes) : Bytes :=
  (buffer.drop p.offset).take p.footprint

/-! ## Writing -/

mutual

/-- Write a member; null is a window of zeros, an array must have the member's extents. -/
def Kind.write (p : Placement) (order : ByteOrder) :
    Kind → Value → Option σ → Except Error Bytes × Option σ
  | .single element, v, heap =>
    if v.isNull then (.ok (Codec.zeros p.footprint), heap)
    else element.write p.name order p.footprint v heap
  | .array element, v, heap =>
    match v with
    | .null => (.ok (Codec.zeros p.footprint), heap)
    | .array dims elements =>
      if dims = p.dims then
        writeRun (element.write p.name order p.elementWidth) p.elementWidth elements heap
      else (.error (.extents p.name p.dims dims), heap)
    | v => (.error (Codec.mismatch p.name "array" v), heap)

/-- Write one element. -/
def Element.write (name : String) (order : ByteOrder) (width : Nat) :
    Element → Value → Option σ → Except Error Bytes × Option σ
  | .scalar codec, v, heap => codec.write name order width v heap
  | .record schema, v, heap =>
    match v with
    | .fields entries => schema.write width (fun name _ => Assoc.get? name entries) heap
    | v => (.error (Codec.mismatch name "compound" v), heap)

/-- Write a record, given by its values under name and position, as `width` bytes. -/
def Schema.write (width : Nat) :
    Schema → (String → Nat → Option Value) → Option σ → Except Error Bytes × Option σ
  | ⟨_, members, _, totalSize, settings⟩, value?, heap =>
    if width = totalSize then
      writeMembers settings.byteOrder members value? 0 (Codec.zeros totalSize) heap
    else (.error (.bufferSize totalSize width), heap)

/-- Write the remaining members, from a position on, into a buffer. -/
def writeMembers (order : ByteOrder) :
    List Member → (String → Nat → Option Value) → Nat → Bytes → Option σ →
      Except Error Bytes × Option σ
  | [], _, _, buffer, heap => (.ok buffer, heap)
  | ⟨p, kind, binding⟩ :: rest, value?, position, buffer, heap =>
    if binding.isBound then
      match kind.write p order ((value? p.name position).getD .null) heap with
      | (.error e, heap) => (.error e, heap)
      | (.ok window, heap) =>
        writeMembers order rest value? (position + 1) (splice buffer p.offset window) heap
    else writeMembers order rest value? (position + 1) buffer heap

end

/-! ## Reading -/

/-- What a record is to receive under a name and a position. -/
structure Reading where
  name : String
  position : Nat
  value : Except Error Value

/-- Set the readings in a record, up to the first failure. -/
def fill {ρ : Type} [RecordAccess ρ] : List Reading → ρ → Except Error ρ
  | [], record => .ok record
  | r :: rest, record =>
    match r.value with
    | .error e => .error e
    | .ok v =>
      match RecordAccess.setField record r.name r.position v with
      | .error e => .error e
      | .ok record => fill rest record

mutual

/-- Read a member from its window. -/
def Kind.read (p : Placement) (order : ByteOrder) :
    Kind → Bytes → Option σ → Except Error Value
  | .single element, window, heap => element.read p.name order window heap
  | .array element, window, heap =>
    (readRun (fun run => element.read p.name order run heap)
      (Codec.runs p.elementWidth p.elements window)).map (.array p.dims)

/-- Read one element from its window. -/
def Element.read (name : String) (order : ByteOrder) :
    Element → Bytes → Option σ → Except Error Value
  | .scalar codec, window, heap => codec.read name order window heap
  | .record schema, window, heap =>
    match schema.readings window heap with
    | .error e => .error e
    | .ok readings => (fill readings ([] : Fields)).map .fields

/-- Readings of all members of a record; unmapped members of a positional record read as
null. -/
def Schema.readings : Schema → Bytes → Option σ → Except Error (List Reading)
  | ⟨_, members, outline, totalSize, settings⟩, buffer, heap =>
    if buffer.length = totalSize then
      .ok (readMembers (outline.kind == .positional) settings.byteOrder buffer heap members 0)
    else .error (.bufferSize totalSize buffer.length)

/-- Readings of the remaining members, from a position on. -/
def readMembers (positional : Bool) (order : ByteOrder) (buffer : Bytes) (heap : Option σ) :
    List Member → Nat → List Reading
  | [], _ => []
  | ⟨p, kind, binding⟩ :: rest, position =>
    let later := readMembers positional order buffer heap rest (position + 1)
    if binding.isBound then
      ⟨p.name, position, kind.read p order (p.window buffer) heap⟩ :: later
    else if positional then ⟨p.name, position, .ok .null⟩ :: later
    else later

end

/-! ## Whole records -/

namespace Schema

variable {ρ : Type} [RecordAccess ρ]

/-- Raw record of an in-memory record. -/
def pack (s : Schema) (record : ρ) (heap : Option σ) : Except Error Bytes × Option σ :=
  s.write s.totalSize (RecordAccess.field? record) heap

/-- Raw record of an in-memory record in place of the content of a buffer. -/
def packInto (s : Schema) (record : ρ) (_previous : Bytes) (heap : Option σ) :
    Except Error Bytes × Option σ :=
  s.pack record heap

/-- Raw records one behind the other, up to the first failure. -/
def packEach (s : Schema) : List ρ → Option σ → Except Error Bytes × Option σ
  | [], heap => (.ok [], heap)
  | record :: rest, heap =>
    match s.pack record heap with
    | (.error e, heap) => (.error e, heap)
    | (.ok bytes, heap) =>
      match packEach s rest heap with
      | (.error e, heap) => (.error e, heap)
      | (.ok later, heap) => (.ok (bytes ++ later), heap)

/-- Raw records one behind the other.  Records of no bytes are not looked at. -/
def packAll (s : Schema) (records : List ρ) (heap : Option σ) : Except Error Bytes × Option σ :=
  if s.totalSize = 0 then (.ok [], heap) else s.packEach records heap

/-- In-memory record of a raw one. -/
def unpack (ρ : Type) [RecordAccess ρ] (s : Schema) (bytes : Bytes) (heap : Option σ) :
    Except Error ρ :=
  match s.readings bytes heap with
  | .error e => .error e
  | .ok readings => fill readings (RecordAccess.empty s.length)

/-- In-memory records of raw ones, up to the first failure. -/
def unpackEach (ρ : Type) [RecordAccess ρ] (s : Schema) (heap : Option σ) :
    List Bytes → Except Error (List ρ)
  | [] => .ok []
  | bytes :: rest =>
    match s.unpack ρ bytes heap with
    | .error e => .error e
    | .ok record => (unpackEach ρ s heap rest).map (record :: ·)

/-- In-memory records of raw ones that lie one behind the other. -/
def unpackAll (ρ : Type) [RecordAccess ρ] (s : Schema) (bytes : Bytes) (heap : Option σ) :
    Except Error (List ρ) :=
  let spare := if s.totalSize = 0 then bytes.length else bytes.length % s.totalSize
  if spare = 0 then
    s.unpackEach ρ heap (Codec.runs s.totalSize (bytes.length / s.totalSize) bytes)
  else .error (.bufferSize (bytes.length - spare) bytes.length)

/-- Value of one member of a raw record, mapped or not. -/
def unpackMember (s : Schema) (bytes : Bytes) (name : String) (heap : Option σ) :
    Except Error Value :=
  if bytes.length = s.totalSize then
    match s.member? name with
    | some m =>
      m.kind.read m.placement s.settings.byteOrder (m.placement.window bytes) heap
    | none => .error (.noSuchField name)
  else .error (.bufferSize s.totalSize bytes.length)

end Schema

end PackedRecord
