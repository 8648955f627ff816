import PackedRecord.Json.Literal
import PackedRecord.Text.Hex

/-!
# Lexemes of JSON texts

Strings, numbers and the three words, read from the head of a text.  Every reader returns what
it has read and the rest of the text, and fails on anything the grammar does not allow.
-/

namespace PackedRecord.Json

/-- Blank, tab, line feed, carriage return. -/
def isBlank (c : Char) : Bool := c == ' ' || c == '\t' || c == '\n' || c == '\r'

def skipBlanks (cs : List Char) : List Char := cs.dropWhile isBlank

/-! ## Strings -/

/-- Four hexadecimal digits. -/
def readUnit? : List Char → Option (Nat × List Char)
  | a :: b :: c :: d :: rest => (Text.hexNumber? [a, b, c, d]).map fun unit => (unit, rest)
  | _ => none

/-- A character after `\u`: one UTF-16 unit, or a pair of surrogates. -/
def readEscapedUnit? (cs : List Char) : Option (Char × List Char) :=
  match readUnit? cs with
  | none => none
  | some (unit, rest) =>
    if 0xdc00 ≤ unit ∧ unit ≤ 0xdfff then none
    else if 0xd800 ≤ unit ∧ unit ≤ 0xdbff then
      match rest with
      | '\\' :: 'u' :: rest =>
        match readUnit? rest with
        | some (low, rest) =>
          if 0xdc00 ≤ low ∧ low ≤ 0xdfff then
            some (Char.ofNat (0x10000 + (unit - 0xd800) * 0x400 + (low - 0xdc00)), rest)
          else none
        | none => none
      | _ => none
    else some (Char.ofNat unit, rest)

/-- Letters after a backslash and the characters they stand for. -/
def escapes : List (Char × Char) :=
  [('"', '"'), ('\\', '\\'), ('/', '/'), ('b', '\x08'), ('f', '\x0c'), ('n', '\n'),
    ('r', '\r'), ('t', '\t')]

/-- A character after a backslash. -/
def readEscape? : List Char → Option (Char × List Char)
  | 'u' :: rest => readEscapedUnit? rest
  | c :: rest => (escapes.lookup c).map fun meant => (meant, rest)
  | [] => none

/-- Control characters must be escaped in a string. -/
def isControl (c : Char) : Bool := decide (c.toNat < 0x20)

/-- The rest of a string after its opening quote, behind the characters already read, which
come in reverse. -/
def readText? : Nat → List Char → List Char → Option (String × List Char)
  | 0, _, _ => none
  | fuel + 1, done, cs =>
    match cs with
    | [] => none
    | '"' :: rest => some (String.ofList done.reverse, rest)
    | '\\' :: rest =>
      match readEscape? rest with
      | some (c, rest) => readText? fuel (c :: done) rest
      | none => none
    | c :: rest => if isControl c then none else readText? fuel (c :: done) rest

/-! ## Numbers and words -/

/-- Leading decimal digits. -/
def readDigits (cs : List Char) : List Nat × List Char :=
  ((cs.takeWhile Char.isDigit).map fun c => c.toNat - '0'.toNat, cs.dropWhile Char.isDigit)

/-- An optional fraction; a point needs a digit after it. -/
def readFraction? (cs : List Char) : Option (Option (List Nat) × List Char) :=
  match cs with
  | '.' :: rest =>
    match readDigits rest with
    | ([], _) => none
    | (digits, rest) => some (some digits, rest)
  | _ => some (none, cs)

/-- Digits of an exponent with a sign. -/
def readPower? (negative : Bool) (cs : List Char) : Option (Option Int × List Char) :=
  match readDigits cs with
  | ([], _) => none
  | (digits, rest) =>
    let n : Nat := digits.foldl (fun n d => n * 10 + d) 0
    some (some (if negative then -(n : Int) else n), rest)

/-- An optional exponent. -/
def readExponent? (cs : List Char) : Option (Option Int × List Char) :=
  match cs with
  | 'e' :: '-' :: rest | 'E' :: '-' :: rest => readPower? true rest
  | 'e' :: '+' :: rest | 'E' :: '+' :: rest => readPower? false rest
  | 'e' :: rest | 'E' :: rest => readPower? false rest
  | _ => some (none, cs)

/-- A number; a leading zero stands alone. -/
def readLiteral? (cs : List Char) : Option (Literal × List Char) :=
  let (negative, cs) := match cs with
    | '-' :: rest => (true, rest)
    | _ => (false, cs)
  match readDigits cs with
  | ([], _) => none
  | (0 :: _ :: _, _) => none
  | (whole, rest) =>
    match readFraction? rest with
    | none => none
    | some (fraction, rest) =>
      match readExponent? rest with
      | none => none
      | some (exponent, rest) => some (⟨negative, whole, fraction, exponent⟩, rest)

/-- A word or a number. -/
def readAtom? : List Char → Option (Json × List Char)
  | 'n' :: 'u' :: 'l' :: 'l' :: rest => some (null, rest)
  | 't' :: 'r' :: 'u' :: 'e' :: rest => some (bool true, rest)
  | 'f' :: 'a' :: 'l' :: 's' :: 'e' :: rest => some (bool false, rest)
  | cs => (readLiteral? cs).map fun (literal, rest) => (literal.toJson, rest)

end PackedRecord.Json
