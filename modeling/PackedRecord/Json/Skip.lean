import PackedRecord.Json.Lexeme

/-!
# Passing over JSON values

`Json.skip?` returns the text behind a value that nobody asks for.  The value must keep to the
grammar, but since nothing is made of it, it may nest to any depth, and the units of its
escapes need not pair up to characters.  The arrays and objects that are open are kept in a
list, so a step looks only at the head of the text.
-/

namespace PackedRecord.Json

/-- An array or object whose end is still to come. -/
inductive Bracket where
  | array
  | object
  deriving DecidableEq, Repr

/-- What comes next in a text. -/
inductive Awaited where
  | value
  /-- A comma or the end of the innermost bracket. -/
  | sequel
  deriving DecidableEq, Repr

/-- The text behind a string whose opening quote is gone. -/
def skipText? : List Char → Option (List Char)
  | [] => none
  | '"' :: rest => some rest
  | '\\' :: 'u' :: a :: b :: c :: d :: rest =>
    if (Text.hexNumber? [a, b, c, d]).isSome then skipText? rest else none
  | '\\' :: c :: rest => if (escapes.lookup c).isSome then skipText? rest else none
  | c :: rest => if isControl c then none else skipText? rest

/-- The text behind the name of a member and its colon. -/
def skipName? (cs : List Char) : Option (List Char) :=
  match skipBlanks cs with
  | '"' :: rest =>
    match (skipText? rest).map skipBlanks with
    | some (':' :: rest) => some rest
    | _ => none
  | _ => none

/-- One step inside some open brackets, the innermost first: the brackets open afterwards,
what comes next there, and the rest of the text. -/
def skipStep? (opened : List Bracket) :
    Awaited → List Char → Option (List Bracket × Awaited × List Char)
  | .value, '"' :: rest => (skipText? rest).map fun rest => (opened, .sequel, rest)
  | .value, '[' :: rest =>
    match skipBlanks rest with
    | ']' :: rest => some (opened, .sequel, rest)
    | rest => some (.array :: opened, .value, rest)
  | .value, '\x7b' :: rest =>
    match skipBlanks rest with
    | '\x7d' :: rest => some (opened, .sequel, rest)
    | rest => (skipName? rest).map fun rest => (.object :: opened, .value, rest)
  | .value, cs => (readAtom? cs).map fun (_, rest) => (opened, .sequel, rest)
  | .sequel, c :: rest =>
    match opened, c with
    | .array :: _, ',' => some (opened, .value, rest)
    | .object :: _, ',' => (skipName? rest).map fun rest => (opened, .value, rest)
    | .array :: outer, ']' => some (outer, .sequel, rest)
    | .object :: outer, '\x7d' => some (outer, .sequel, rest)
    | _, _ => none
  | .sequel, [] => none

/-- Steps up to the end of the outermost bracket. -/
def skipFrom? : Nat → List Bracket → Awaited → List Char → Option (List Char)
  | 0, _, _, _ => none
  | _ + 1, [], .sequel, cs => some cs
  | fuel + 1, opened, awaited, cs =>
    match skipStep? opened awaited (skipBlanks cs) with
    | some (opened, awaited, rest) => skipFrom? fuel opened awaited rest
    | none => none

/-- The text behind a value.  Every step takes at least one character, so fuel beyond the
number of characters is enough. -/
def skip? (fuel : Nat) (cs : List Char) : Option (List Char) := skipFrom? fuel [] .value cs

end PackedRecord.Json
