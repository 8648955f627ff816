import PackedRecord.Word

/-!
# UTF-8

`encode` writes each character in its shortest form.  `decode` reads any bytes: a sequence
that no character can continue is replaced by one U+FFFD, and the byte that broke it is read
anew (the replacement of maximal subparts).  On the output of `encode` nothing is replaced.
-/

namespace PackedRecord.Text.Utf8

/-- Bytes of one character. -/
def encodeChar (c : Char) : Bytes :=
  let n := c.toNat
  if n < 0x80 then [UInt8.ofNat n]
  else if n < 0x800 then [UInt8.ofNat (0xc0 + n / 64), UInt8.ofNat (0x80 + n % 64)]
  else if n < 0x10000 then
    [UInt8.ofNat (0xe0 + n / 4096), UInt8.ofNat (0x80 + n / 64 % 64), UInt8.ofNat (0x80 + n % 64)]
  else
    [UInt8.ofNat (0xf0 + n / 262144), UInt8.ofNat (0x80 + n / 4096 % 64),
      UInt8.ofNat (0x80 + n / 64 % 64), UInt8.ofNat (0x80 + n % 64)]

/-- Bytes of a text. -/
def encode (s : String) : Bytes := s.toList.flatMap encodeChar

/-- Progress inside a character: how many bytes are still due, the bounds of the next one and
the code point so far. -/
structure Partial where
  due : Nat
  least : Nat
  greatest : Nat
  code : Nat
  deriving DecidableEq, Repr

/-- The character that stands for bytes that are no character. -/
def replacement : Char := '\ufffd'

/-- Read a byte at the start of a character. -/
def start (b : Nat) : List Char × Option Partial :=
  if b < 0x80 then ([Char.ofNat b], none)
  else if 0xc2 ≤ b ∧ b ≤ 0xdf then ([], some ⟨1, 0x80, 0xbf, b - 0xc0⟩)
  else if b = 0xe0 then ([], some ⟨2, 0xa0, 0xbf, 0⟩)
  else if b = 0xed then ([], some ⟨2, 0x80, 0x9f, 0xd⟩)
  else if 0xe1 ≤ b ∧ b ≤ 0xef then ([], some ⟨2, 0x80, 0xbf, b - 0xe0⟩)
  else if b = 0xf0 then ([], some ⟨3, 0x90, 0xbf, 0⟩)
  else if 0xf1 ≤ b ∧ b ≤ 0xf3 then ([], some ⟨3, 0x80, 0xbf, b - 0xf0⟩)
  else if b = 0xf4 then ([], some ⟨3, 0x80, 0x8f, 4⟩)
  else ([replacement], none)

/-- Read one byte. -/
def step (state : Option Partial) (b : Nat) : List Char × Option Partial :=
  match state with
  | none => start b
  | some p =>
    if p.least ≤ b ∧ b ≤ p.greatest then
      let code := p.code * 64 + (b - 0x80)
      if p.due ≤ 1 then ([Char.ofNat code], none)
      else ([], some ⟨p.due - 1, 0x80, 0xbf, code⟩)
    else
      let (chars, next) := start b
      (replacement :: chars, next)

/-- Characters of the remaining bytes. -/
def decodeFrom (state : Option Partial) : Bytes → List Char
  | [] => if state.isSome then [replacement] else []
  | b :: rest =>
    let (chars, next) := step state b.toNat
    chars ++ decodeFrom next rest

/-- Text of any bytes. -/
def decode (bytes : Bytes) : String := String.ofList (decodeFrom none bytes)

/-- Every character is ASCII. -/
def isAscii (s : String) : Bool := s.toList.all fun c => decide (c.toNat < 0x80)

end PackedRecord.Text.Utf8
