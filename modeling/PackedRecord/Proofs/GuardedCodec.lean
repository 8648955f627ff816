import PackedRecord.Codec.Record

/-!
# Codecs on guarded buffers

The same codecs once more, as they work in place: a member is written to a range of the buffer of
its record, an element to a slot of its member, a word to the bytes it occupies.  Each access is
guarded.  A range that is not one of the buffer, an index behind the end of a table, a word of no
bytes or of more than eight, a number that does not fit its word, a copy between windows of
different lengths and a split into runs of no bytes are faults, which are no errors of the codec:
nothing handles them.

Bit fields are written byte by byte within their window and split into words of eight bytes, so
that they have no access to guard.
-/

namespace PackedRecord

/-- What no codec may do. -/
inductive Fault where
  | range (start stop length : Nat)
  | index (position length : Nat)
  | copy (expected actual : Nat)
  /-- A split into runs of no bytes. -/
  | emptyRuns
  | wordWidth (width : Nat)
  | wordValue (width value : Nat)
  /-- The sign bit of a word of no bytes. -/
  | signBit
  deriving DecidableEq, Repr

/-- A computation that may be aborted. -/
abbrev Guarded (α : Type) := Except Fault α

variable {σ : Type} [Heap σ]

namespace Guarded

/-! ## Buffers, tables and words -/

/-- Bytes of a range. -/
def slice (buffer : Bytes) (start stop : Nat) : Guarded Bytes :=
  if start ≤ stop ∧ stop ≤ buffer.length then .ok ((buffer.drop start).take (stop - start))
  else .error (.range start stop buffer.length)

/-- Content that takes the place of a window. -/
def copy (window content : Bytes) : Guarded Bytes :=
  if content.length = window.length then .ok content
  else .error (.copy window.length content.length)

/-- Change the bytes of a range in place. -/
def update (buffer : Bytes) (start stop : Nat) (change : Bytes → Guarded Bytes) :
    Guarded Bytes := do
  let window ← slice buffer start stop
  let content ← copy window (← change window)
  return splice buffer start content

/-- Entry of a table. -/
def entry {α : Type} (table : List α) (position : Nat) : Guarded α :=
  match table[position]? with
  | some a => .ok a
  | none => .error (.index position table.length)

/-- Whole runs of `width` bytes. -/
def chunks (width : Nat) (bytes : Bytes) : Guarded (List Bytes) :=
  if width = 0 then .error .emptyRuns
  else .ok (Codec.runs width (bytes.length / width) bytes)

/-- Write a word to the first bytes of a window. -/
def putWord (order : ByteOrder) (window : Bytes) (width value : Nat) : Guarded Bytes :=
  if width = 0 ∨ 8 < width then .error (.wordWidth width)
  else if window.length < width then .error (.range 0 width window.length)
  else if Word.FitsUnsigned width value then
    .ok (Word.write order width value ++ window.drop width)
  else .error (.wordValue width value)

/-- Word in the first bytes of a window. -/
def word (order : ByteOrder) (window : Bytes) (width : Nat) : Guarded Nat :=
  if width = 0 ∨ 8 < width then .error (.wordWidth width)
  else if window.length < width then .error (.range 0 width window.length)
  else .ok (Word.read order (window.take width))

/-- The number fits a signed word; below eight bytes the place of the sign bit is computed. -/
def fitsSigned (width : Nat) (i : Int64) : Guarded Bool :=
  if 8 ≤ width then .ok true
  else if width = 0 then .error .signBit
  else .ok (decide (Word.FitsSigned width i.toInt))

/-! ## Flags, numbers and raw bytes -/

def writeSigned (name : String) (order : ByteOrder) (window : Bytes) (i : Int64) :
    Guarded (Except Error Bytes) := do
  if ← fitsSigned window.length i then
    return .ok (← putWord order window window.length (Word.complement window.length i.toInt))
  else return .error (.outOfRange name window.length)

def writeUnsigned (name : String) (order : ByteOrder) (window : Bytes) (n : UInt64) :
    Guarded (Except Error Bytes) := do
  if Word.FitsUnsigned window.length n.toNat then
    return .ok (← putWord order window window.length n.toNat)
  else return .error (.outOfRange name window.length)

def signedWord (order : ByteOrder) (window : Bytes) : Guarded Int64 := do
  return Int64.ofInt (Word.signedValue window.length (← word order window window.length))

def unsignedWord (order : ByteOrder) (window : Bytes) : Guarded UInt64 := do
  return UInt64.ofNat (← word order window window.length)

/-- The window is cleared first, since the word may be shorter. -/
def writeFlag (name : String) (order : ByteOrder) (window : Bytes) (v : Value) :
    Guarded (Except Error Bytes) :=
  match Codec.flag? v with
  | none => .ok (.error (Codec.mismatch name "bool" v))
  | some b => do
    let width := min window.length 8
    return .ok (← update (Codec.zeros window.length) 0 width fun head =>
      putWord order head width b.toNat)

def writeInteger (name : String) (order : ByteOrder) (window : Bytes) (signed : Bool)
    (v : Value) : Guarded (Except Error Bytes) :=
  match Codec.integerOf? v with
  | none => .ok (.error (Codec.mismatch name "integer" v))
  | some n =>
    if signed then
      match n.toInt? with
      | some i => writeSigned name order window i
      | none => .ok (.error (.outOfRange name window.length))
    else
      match n.toNat? with
      | some m => writeUnsigned name order window m
      | none => .ok (.error (.outOfRange name window.length))

def readInteger (order : ByteOrder) (signed : Bool) (window : Bytes) : Guarded Value := do
  if signed then return .number (.int (← signedWord order window))
  else return .number (.nat (← unsignedWord order window))

def writeFloat (name : String) (order : ByteOrder) (window : Bytes) (v : Value) :
    Guarded (Except Error Bytes) :=
  match v.double? with
  | none => .ok (.error (Codec.mismatch name "float" v))
  | some x => do
    if window.length = 4 then return .ok (← putWord order window 4 x.toSingle.toNat)
    else return .ok (← putWord order window 8 x.bits.toNat)

def readFloat (order : ByteOrder) (window : Bytes) : Guarded Value := do
  if window.length = 4 then
    return .number (.float (.ofSingle (UInt32.ofNat (← word order window 4))))
  else return .number (.float ⟨UInt64.ofNat (← word order window 8)⟩)

def writeRaw (name : String) (window : Bytes) (v : Value) : Guarded (Except Error Bytes) :=
  match v.bytes? with
  | none => .ok (.error (Codec.mismatch name "bytes" v))
  | some content => do
    if content.length = window.length then return .ok (← copy window content)
    else return .error (.extents name [window.length] [content.length])

/-! ## Texts -/

def writeFixedText (name : String) (window : Bytes) (charset : Charset) (v : Value) :
    Guarded (Except Error Bytes) :=
  match Codec.textBytes name charset v with
  | .error e => .ok (.error e)
  | .ok bytes => do
    if window.length < bytes.length + 1 then
      return .error (.textTooLong name (bytes.length + 1) window.length)
    else
      let window ← update window 0 bytes.length fun head => copy head bytes
      return .ok (← update window bytes.length window.length fun tail =>
        .ok (Codec.zeros tail.length))

def readFixedText (window : Bytes) : Guarded Value := do
  return .text (Text.Utf8.decode (← slice window 0 (window.findIdx (· == 0))))

/-! ## Enums -/

/-- Code of a table for a value; the table of labels leads to that of codes. -/
def codeOf (table : EnumTable) : Value → Guarded (Option Int64)
  | .choice (.known _ label) | .text label =>
    match table.entryOfLabel? label with
    | some e => return some (← entry table.codes e.ordinal)
    | none => return none
  | .choice (.unlisted code) => return some code
  | .number n => return n.toNat?.bind fun ordinal => table.codes[ordinal.toNat]?
  | _ => return none

def writeChoice (name : String) (order : ByteOrder) (window : Bytes) (table : EnumTable)
    (v : Value) : Guarded (Except Error Bytes) := do
  match ← codeOf table v with
  | none => return .error (Codec.noCode name table v)
  | some code =>
    if table.isSigned then writeSigned name order window code
    else if code.toInt < 0 then return .error (.outOfRange name window.length)
    else writeUnsigned name order window code.toUInt64

/-- Choice of a code; the table of codes leads to that of labels. -/
def choiceOf (table : EnumTable) (code : Int64) : Guarded Choice :=
  match table.entryOfCode? code with
  | some e => return .known e.ordinal (← entry table.labels e.ordinal)
  | none => return .unlisted code

def readChoice (order : ByteOrder) (table : EnumTable) (window : Bytes) : Guarded Value := do
  if table.isSigned then return .choice (← choiceOf table (← signedWord order window))
  else return .choice (← choiceOf table (← unsignedWord order window).toInt64)

/-! ## Points in time and spans -/

open Time

def writeCount (name : String) (order : ByteOrder) (window : Bytes) (count : Option Int64) :
    Guarded (Except Error Bytes) :=
  match count with
  | some i => writeSigned name order window i
  | none => .ok (.error (.outOfRange name window.length))

def writeTimestamp (name : String) (order : ByteOrder) (window : Bytes) (unit : Time.Unit)
    (v : Value) : Guarded (Except Error Bytes) :=
  match v with
  | .instant t =>
    writeCount name order window ((int64? t.micros).bind (unit.convert · .microseconds))
  | .number n => writeCount name order window n.toInt?
  | _ => .ok (.error (Codec.mismatch name "timestamp" v))

def readTimestamp (order : ByteOrder) (unit : Time.Unit) (window : Bytes) : Guarded Value := do
  let count ← signedWord order window
  match (Unit.microseconds.convert count unit).bind
      fun micros => Instant.ofMicros? micros.toInt with
  | some t => return .instant t
  | none => return .number (.int count)

def writeDuration (name : String) (order : ByteOrder) (window : Bytes) (unit : Time.Unit)
    (v : Value) : Guarded (Except Error Bytes) :=
  match v with
  | .span d => writeCount name order window ((d.convertTo unit).map Span.count)
  | .number n => writeCount name order window n.toInt?
  | _ => .ok (.error (Codec.mismatch name "duration" v))

def readDuration (order : ByteOrder) (unit : Time.Unit) (window : Bytes) : Guarded Value := do
  return .span ⟨← signedWord order window, unit⟩

/-! ## Handles -/

/-- Write a word to a range. -/
def putField (order : ByteOrder) (window : Bytes) (start stop value : Nat) : Guarded Bytes :=
  update window start stop fun field => putWord order field (stop - start) value

/-- Word in a range. -/
def field (order : ByteOrder) (window : Bytes) (start stop : Nat) : Guarded Nat := do
  word order (← slice window start stop) (stop - start)

/-- The slot must be as wide as a handle. -/
def writeHandle (order : ByteOrder) (h : Handle) (window : Bytes) : Guarded Bytes := do
  if window.length = Handle.width then
    let window ← putField order window 0 4 h.length.toNat
    let window ← putField order window 4 12 h.collection.toNat
    putField order window 12 16 h.index.toNat
  else .error (.copy window.length Handle.width)

def readHandle (order : ByteOrder) (window : Bytes) : Guarded Handle := do
  let length ← field order window 0 4
  let collection ← field order window 4 12
  let index ← field order window 12 16
  return ⟨UInt32.ofNat length, UInt64.ofNat collection, UInt32.ofNat index⟩

def storeContent (name : String) (order : ByteOrder) (content : Bytes) (window : Bytes)
    (heap : Option σ) : Guarded (Except Error Bytes × Option σ) := do
  match heap with
  | none => return (.error (.heapMissing name), none)
  | some h =>
    match Heap.put h content with
    | .error e => return (.error e, some h)
    | .ok (handle, h) => return (.ok (← writeHandle order handle window), some h)

def loadContent (name : String) (order : ByteOrder) (window : Bytes) (heap : Option σ) :
    Guarded (Except Error (Option Bytes)) := do
  let handle ← readHandle order window
  if handle.isNull then return .ok none
  else
    match heap with
    | none => return .error (.heapMissing name)
    | some h => return (Heap.get h handle).map some

def writeVaryingText (name : String) (order : ByteOrder) (charset : Charset) (v : Value)
    (window : Bytes) (heap : Option σ) : Guarded (Except Error Bytes × Option σ) :=
  match Codec.textBytes name charset v with
  | .error e => .ok (.error e, heap)
  | .ok content => storeContent name order content window heap

def readVaryingText (name : String) (order : ByteOrder) (window : Bytes) (heap : Option σ) :
    Guarded (Except Error Value) := do
  return (← loadContent name order window heap).map fun content =>
    (content.map fun bytes => .text (Text.Utf8.decode bytes)).getD .null

def writeVaryingBytes (name : String) (order : ByteOrder) (v : Value) (window : Bytes)
    (heap : Option σ) : Guarded (Except Error Bytes × Option σ) :=
  match v.bytes? with
  | none => .ok (.error (Codec.mismatch name "bytes" v), heap)
  | some content => storeContent name order content window heap

def readVaryingBytes (name : String) (order : ByteOrder) (window : Bytes) (heap : Option σ) :
    Guarded (Except Error Value) := do
  return (← loadContent name order window heap).map fun content =>
    (content.map Value.bytes).getD .null

/-! ## Runs of slots -/

/-- Write items to slots in place, up to the first failure; slots without an item stay. -/
def writeSlots {α : Type}
    (write : α → Bytes → Option σ → Guarded (Except Error Bytes × Option σ)) :
    List α → List Bytes → Option σ → Guarded (Except Error Bytes × Option σ)
  | item :: items, slot :: slots, heap => do
    match ← write item slot heap with
    | (.error e, heap) => return (.error e, heap)
    | (.ok window, heap) =>
      let window ← copy slot window
      match ← writeSlots write items slots heap with
      | (.error e, heap) => return (.error e, heap)
      | (.ok windows, heap) => return (.ok (window ++ windows), heap)
  | [], slots, heap => return (.ok slots.flatten, heap)
  | _, [], heap => return (.ok [], heap)

/-- Read slots up to the first failure. -/
def readSlots {α : Type} (read : Bytes → Guarded (Except Error α)) :
    List Bytes → Guarded (Except Error (List α))
  | [] => return .ok []
  | slot :: slots => do
    match ← read slot with
    | .error e => return .error e
    | .ok a => return (← readSlots read slots).map (a :: ·)

/-- Write items to the slots of a window in place; what is behind the slots stays. -/
def writeRun {α : Type}
    (write : α → Bytes → Option σ → Guarded (Except Error Bytes × Option σ)) (width : Nat)
    (items : List α) (window : Bytes) (heap : Option σ) :
    Guarded (Except Error Bytes × Option σ) := do
  match ← writeSlots write items (← chunks width window) heap with
  | (.error e, heap) => return (.error e, heap)
  | (.ok windows, heap) => return (.ok (windows ++ window.drop windows.length), heap)

/-- Read the slots of a window. -/
def readRun {α : Type} (read : Bytes → Guarded (Except Error α)) (width : Nat)
    (window : Bytes) : Guarded (Except Error (List α)) := do
  readSlots read (← chunks width window)

end Guarded

/-! ## Elements -/

namespace Scalar

/-- Write a value to a window. -/
def guardedWrite (name : String) (order : ByteOrder) (codec : Scalar) (v : Value) (window : Bytes)
    (heap : Option σ) : Guarded (Except Error Bytes × Option σ) :=
  match codec with
  | bool => return (← Guarded.writeFlag name order window v, heap)
  | integer signed => return (← Guarded.writeInteger name order window signed v, heap)
  | float => return (← Guarded.writeFloat name order window v, heap)
  | fixedText charset => return (← Guarded.writeFixedText name window charset v, heap)
  | varyingText charset => Guarded.writeVaryingText name order charset v window heap
  | varyingBytes => Guarded.writeVaryingBytes name order v window heap
  | enumeration table => return (← Guarded.writeChoice name order window table v, heap)
  | bitField => return (Codec.writeBits name order window.length v, heap)
  | timestamp unit => return (← Guarded.writeTimestamp name order window unit v, heap)
  | duration unit => return (← Guarded.writeDuration name order window unit v, heap)
  | raw => return (← Guarded.writeRaw name window v, heap)

/-- Read the value of a window. -/
def guardedRead (name : String) (order : ByteOrder) (codec : Scalar) (window : Bytes)
    (heap : Option σ) : Guarded (Except Error Value) :=
  match codec with
  | bool => return .ok (Codec.readFlag window)
  | integer signed => return .ok (← Guarded.readInteger order signed window)
  | float => return .ok (← Guarded.readFloat order window)
  | fixedText _ => return .ok (← Guarded.readFixedText window)
  | varyingText _ => Guarded.readVaryingText name order window heap
  | varyingBytes => Guarded.readVaryingBytes name order window heap
  | enumeration table => return .ok (← Guarded.readChoice order table window)
  | bitField => return .ok (Codec.readBits order window)
  | timestamp unit => return .ok (← Guarded.readTimestamp order unit window)
  | duration unit => return .ok (← Guarded.readDuration order unit window)
  | raw => return .ok (.bytes window)

end Scalar

/-! ## Records -/

mutual

/-- Write a member to its range. -/
def Kind.guardedWrite (p : Placement) (order : ByteOrder) :
    Kind → Value → Bytes → Option σ → Guarded (Except Error Bytes × Option σ)
  | .single element, v, window, heap =>
    if v.isNull then return (.ok (Codec.zeros window.length), heap)
    else element.guardedWrite p.name order v window heap
  | .array element, v, window, heap =>
    match v with
    | .null => return (.ok (Codec.zeros window.length), heap)
    | .array dims elements =>
      if dims = p.dims then
        Guarded.writeRun (fun v slot heap =>
          if v.isNull then return (.ok (Codec.zeros slot.length), heap)
          else element.guardedWrite p.name order v slot heap) p.elementWidth elements window heap
      else return (.error (.extents p.name p.dims dims), heap)
    | v => return (.error (Codec.mismatch p.name "array" v), heap)

/-- Write one element to its slot. -/
def Element.guardedWrite (name : String) (order : ByteOrder) :
    Element → Value → Bytes → Option σ → Guarded (Except Error Bytes × Option σ)
  | .scalar codec, v, window, heap => codec.guardedWrite name order v window heap
  | .record schema, v, window, heap =>
    match v with
    | .fields entries => schema.guardedWrite (fun name _ => Assoc.get? name entries) window heap
    | v => return (.error (Codec.mismatch name "compound" v), heap)

/-- Write a record to a buffer of its size. -/
def Schema.guardedWrite :
    Schema → (String → Nat → Option Value) → Bytes → Option σ →
      Guarded (Except Error Bytes × Option σ)
  | ⟨_, members, _, totalSize, settings⟩, value?, buffer, heap =>
    if buffer.length = totalSize then
      guardedWriteMembers settings.byteOrder members value? 0 buffer heap
    else return (.error (.bufferSize totalSize buffer.length), heap)

/-- Write the remaining members, from a position on, to their ranges of a buffer. -/
def guardedWriteMembers (order : ByteOrder) :
    List Member → (String → Nat → Option Value) → Nat → Bytes → Option σ →
      Guarded (Except Error Bytes × Option σ)
  | [], _, _, buffer, heap => return (.ok buffer, heap)
  | ⟨p, kind, binding⟩ :: rest, value?, position, buffer, heap => do
    if binding.isBound then
      let window ← Guarded.slice buffer p.offset p.stop
      match ← kind.guardedWrite p order ((value? p.name position).getD .null) window heap with
      | (.error e, heap) => return (.error e, heap)
      | (.ok content, heap) =>
        let content ← Guarded.copy window content
        guardedWriteMembers order rest value? (position + 1) (splice buffer p.offset content) heap
    else guardedWriteMembers order rest value? (position + 1) buffer heap

end

/-- What a record is to receive, once it is read. -/
structure GuardedReading where
  name : String
  position : Nat
  value : Guarded (Except Error Value)

/-- Set the readings in a record, up to the first failure; those behind it are not made. -/
def guardedFill {ρ : Type} [RecordAccess ρ] : List GuardedReading → ρ → Guarded (Except Error ρ)
  | [], record => return .ok record
  | r :: rest, record => do
    match ← r.value with
    | .error e => return .error e
    | .ok v =>
      match RecordAccess.setField record r.name r.position v with
      | .error e => return .error e
      | .ok record => guardedFill rest record

mutual

/-- Read a member from its window. -/
def Kind.guardedRead (p : Placement) (order : ByteOrder) :
    Kind → Bytes → Option σ → Guarded (Except Error Value)
  | .single element, window, heap => element.guardedRead p.name order window heap
  | .array element, window, heap => do
    match ← Guarded.readRun (fun slot => element.guardedRead p.name order slot heap)
      p.elementWidth window with
    | .error e => return .error e
    | .ok elements =>
      match Value.array? p.dims elements with
      | some v => return .ok v
      | none => return .error (.faultyLayout p.name
          (.stated "raw window does not hold the declared extents"))

/-- Read one element from its window. -/
def Element.guardedRead (name : String) (order : ByteOrder) :
    Element → Bytes → Option σ → Guarded (Except Error Value)
  | .scalar codec, window, heap => codec.guardedRead name order window heap
  | .record schema, window, heap => do
    match schema.guardedReadings window heap with
    | .error e => return .error e
    | .ok readings => return (← guardedFill readings ([] : Fields)).map .fields

/-- Readings of all members of a record. -/
def Schema.guardedReadings : Schema → Bytes → Option σ → Except Error (List GuardedReading)
  | ⟨_, members, outline, totalSize, settings⟩, buffer, heap =>
    if buffer.length = totalSize then
      .ok (guardedReadMembers (outline.kind == .positional) settings.byteOrder buffer heap
        members 0)
    else .error (.bufferSize totalSize buffer.length)

/-- Readings of the remaining members, from a position on. -/
def guardedReadMembers (positional : Bool) (order : ByteOrder) (buffer : Bytes)
    (heap : Option σ) : List Member → Nat → List GuardedReading
  | [], _ => []
  | ⟨p, kind, binding⟩ :: rest, position =>
    let later := guardedReadMembers positional order buffer heap rest (position + 1)
    if binding.isBound then
      ⟨p.name, position, do
        kind.guardedRead p order (← Guarded.slice buffer p.offset p.stop) heap⟩ :: later
    else if positional then ⟨p.name, position, return .ok .null⟩ :: later
    else later

end

/-! ## Whole records -/

namespace Schema

variable {ρ : Type} [RecordAccess ρ]

/-- Write a record to a buffer, which is cleared and resized first. -/
def guardedPackInto (s : Schema) (record : ρ) (previous : Bytes) (heap : Option σ) :
    Guarded (Except Error Bytes × Option σ) :=
  s.guardedWrite (RecordAccess.field? record)
    (previous.take 0 ++ Codec.zeros s.totalSize) heap

def guardedPack (s : Schema) (record : ρ) (heap : Option σ) :
    Guarded (Except Error Bytes × Option σ) :=
  s.guardedPackInto record [] heap

/-- Write records to one buffer, one behind the other. -/
def guardedPackAll (s : Schema) (records : List ρ) (heap : Option σ) :
    Guarded (Except Error Bytes × Option σ) :=
  let buffer := Codec.zeros (s.totalSize * records.length)
  if s.totalSize = 0 then return (.ok buffer, heap)
  else
    Guarded.writeRun (fun record => s.guardedWrite (RecordAccess.field? record)) s.totalSize
      records buffer heap

def guardedUnpack (ρ : Type) [RecordAccess ρ] (s : Schema) (bytes : Bytes) (heap : Option σ) :
    Guarded (Except Error ρ) :=
  match s.guardedReadings bytes heap with
  | .error e => return .error e
  | .ok readings => guardedFill readings (RecordAccess.empty s.length)

/-- Read records that lie one behind the other. -/
def guardedUnpackAll (ρ : Type) [RecordAccess ρ] (s : Schema) (bytes : Bytes)
    (heap : Option σ) : Guarded (Except Error (List ρ)) :=
  if s.totalSize = 0 then
    if bytes = [] then return .ok [] else return .error (.bufferSize 0 bytes.length)
  else if bytes.length % s.totalSize = 0 then
    Guarded.readRun (fun run => s.guardedUnpack ρ run heap) s.totalSize bytes
  else return .error (.bufferSize (bytes.length - bytes.length % s.totalSize) bytes.length)

/-- Read one member of a raw record; its position leads to the list of members. -/
def guardedUnpackMember (s : Schema) (bytes : Bytes) (name : String) (heap : Option σ) :
    Guarded (Except Error Value) := do
  if bytes.length = s.totalSize then
    match s.position? name with
    | none => return .error (.noSuchField name)
    | some position =>
      let m ← Guarded.entry s.members position
      let window ← Guarded.slice bytes m.placement.offset m.placement.stop
      m.kind.guardedRead m.placement s.settings.byteOrder window heap
  else return .error (.bufferSize s.totalSize bytes.length)

end Schema

end PackedRecord
