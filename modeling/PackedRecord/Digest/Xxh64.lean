import PackedRecord.Word

/-!
# The 64-bit xxHash

The input is read in stripes of 32 bytes into four lanes; the lanes are merged, the rest is
read in words of eight and four bytes and single bytes, and the result is mixed.  All words
are little-endian and arithmetic is modulo `2 ^ 64`.
-/

namespace PackedRecord.Digest.Xxh64

def prime1 : UInt64 := 0x9E3779B185EBCA87
def prime2 : UInt64 := 0xC2B2AE3D27D4EB4F
def prime3 : UInt64 := 0x165667B19E3779F9
def prime4 : UInt64 := 0x85EBCA77C2B2AE63
def prime5 : UInt64 := 0x27D4EB2F165667C5

def rotateLeft (x : UInt64) (n : UInt64) : UInt64 := (x <<< n) ||| (x >>> (64 - n))

/-- Little-endian word of some bytes. -/
def word (bytes : Bytes) : UInt64 := UInt64.ofNat (Word.value bytes)

def round (acc input : UInt64) : UInt64 :=
  rotateLeft (acc + input * prime2) 31 * prime1

def mergeRound (acc lane : UInt64) : UInt64 :=
  (acc ^^^ round 0 lane) * prime1 + prime4

/-- The four lanes. -/
structure Lanes where
  a : UInt64
  b : UInt64
  c : UInt64
  d : UInt64

def Lanes.ofSeed (seed : UInt64) : Lanes :=
  ⟨seed + prime1 + prime2, seed + prime2, seed, seed - prime1⟩

/-- Read one stripe of 32 bytes. -/
def Lanes.stripe (l : Lanes) (bytes : Bytes) : Lanes :=
  ⟨round l.a (word (bytes.take 8)), round l.b (word ((bytes.drop 8).take 8)),
    round l.c (word ((bytes.drop 16).take 8)), round l.d (word ((bytes.drop 24).take 8))⟩

def Lanes.merge (l : Lanes) : UInt64 :=
  let h := rotateLeft l.a 1 + rotateLeft l.b 7 + rotateLeft l.c 12 + rotateLeft l.d 18
  mergeRound (mergeRound (mergeRound (mergeRound h l.a) l.b) l.c) l.d

/-- Read all whole stripes; the number of stripes is the recursion's measure. -/
def stripes : Nat → Lanes → Bytes → Lanes × Bytes
  | 0, lanes, bytes => (lanes, bytes)
  | n + 1, lanes, bytes => stripes n (lanes.stripe (bytes.take 32)) (bytes.drop 32)

/-- Read whole words of eight bytes. -/
def longWords : Nat → UInt64 → Bytes → UInt64 × Bytes
  | 0, h, bytes => (h, bytes)
  | n + 1, h, bytes =>
    longWords n (rotateLeft (h ^^^ round 0 (word (bytes.take 8))) 27 * prime1 + prime4)
      (bytes.drop 8)

/-- Read a word of four bytes if one is left. -/
def shortWord (h : UInt64) (bytes : Bytes) : UInt64 × Bytes :=
  if 4 ≤ bytes.length then
    (rotateLeft (h ^^^ (word (bytes.take 4) * prime1)) 23 * prime2 + prime3, bytes.drop 4)
  else (h, bytes)

/-- Read a single byte. -/
def byte (h : UInt64) (b : UInt8) : UInt64 :=
  rotateLeft (h ^^^ (b.toUInt64 * prime5)) 11 * prime1

/-- Final mixing. -/
def avalanche (h : UInt64) : UInt64 :=
  let h := (h ^^^ (h >>> 33)) * prime2
  let h := (h ^^^ (h >>> 29)) * prime3
  h ^^^ (h >>> 32)

/-- Hash of some bytes. -/
def hash (seed : UInt64) (bytes : Bytes) : UInt64 :=
  let (lanes, rest) := stripes (bytes.length / 32) (Lanes.ofSeed seed) bytes
  let h := if bytes.length < 32 then seed + prime5 else lanes.merge
  let h := h + UInt64.ofNat bytes.length
  let (h, rest) := longWords (rest.length / 8) h rest
  let (h, rest) := shortWord h rest
  avalanche (rest.foldl byte h)

end PackedRecord.Digest.Xxh64
