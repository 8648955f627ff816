import PackedRecord.Json.Skip

/-!
# Reading JSON texts

`Json.read?` accepts exactly the texts of the JSON grammar whose arrays and objects nest less
than 128 deep.  `Json.readPart?` returns the part of a document that a selection asks for:
members it does not ask for are passed over, to any depth, and left out.  Object members come
back in order, repeated names included.  The recursion is bounded by twice the number of
characters, since of two steps in a row at least one takes a character.
-/

namespace PackedRecord.Json

/-- Which members of a document are asked for.  A value of `κ` says what a part of the
document is there for. -/
structure Selection (κ : Type) where
  /-- Purpose of the element of an array at an index. -/
  element : κ → Nat → κ
  /-- Purpose of the member of an object with a name, if it is asked for. -/
  member : κ → String → Option κ

/-- Everything is asked for. -/
def Selection.whole : Selection Unit := ⟨fun _ _ => (), fun _ _ => some ()⟩

variable {κ : Type} (selection : Selection κ)

mutual

/-- A document, which may open `depth` more arrays and objects. -/
def readValue? : Nat → Nat → κ → List Char → Option (Json × List Char)
  | 0, _, _, _ => none
  | fuel + 1, depth, purpose, cs =>
    match skipBlanks cs with
    | '"' :: rest => (readText? fuel [] rest).map fun (s, rest) => (text s, rest)
    | '[' :: rest =>
      if depth = 0 then none
      else
        match skipBlanks rest with
        | ']' :: rest => some (array [], rest)
        | rest =>
          (readElements? fuel (depth - 1) purpose 0 [] rest).map fun (js, rest) =>
            (array js, rest)
    | '\x7b' :: rest =>
      if depth = 0 then none
      else
        match skipBlanks rest with
        | '\x7d' :: rest => some (object [], rest)
        | rest =>
          (readMembers? fuel (depth - 1) purpose [] rest).map fun (ms, rest) => (object ms, rest)
    | cs => readAtom? cs

/-- The elements of an array, from an index on, up to its closing bracket; those already read
come in reverse. -/
def readElements? :
    Nat → Nat → κ → Nat → List Json → List Char → Option (List Json × List Char)
  | 0, _, _, _, _, _ => none
  | fuel + 1, depth, purpose, index, done, cs =>
    match readValue? fuel depth (selection.element purpose index) cs with
    | none => none
    | some (j, rest) =>
      match skipBlanks rest with
      | ',' :: rest => readElements? fuel depth purpose (index + 1) (j :: done) rest
      | ']' :: rest => some ((j :: done).reverse, rest)
      | _ => none

/-- The members of an object up to its closing brace; those already read come in reverse. -/
def readMembers? :
    Nat → Nat → κ → List (String × Json) → List Char → Option (List (String × Json) × List Char)
  | 0, _, _, _, _ => none
  | fuel + 1, depth, purpose, done, cs =>
    match skipBlanks cs with
    | '"' :: rest =>
      match readText? fuel [] rest with
      | none => none
      | some (name, rest) =>
        match skipBlanks rest with
        | ':' :: rest =>
          let read := match selection.member purpose name with
            | some purpose =>
              (readValue? fuel depth purpose rest).map fun (j, rest) => ((name, j) :: done, rest)
            | none => (skip? fuel rest).map fun rest => (done, rest)
          match read with
          | none => none
          | some (done, rest) =>
            match skipBlanks rest with
            | ',' :: rest => readMembers? fuel depth purpose done rest
            | '\x7d' :: rest => some (done.reverse, rest)
            | _ => none
        | _ => none
    | _ => none

end

/-- Arrays and objects may nest this deep. -/
def maxDepth : Nat := 127

/-- The selected part of the document of a text, which is there for `purpose`. -/
def readPart? (purpose : κ) (s : String) : Option Json :=
  let cs := s.toList
  match readValue? selection (2 * cs.length + 2) maxDepth purpose cs with
  | some (j, rest) => if (skipBlanks rest).isEmpty then some j else none
  | none => none

/-- The document of a text. -/
def read? (s : String) : Option Json := readPart? .whole () s

end PackedRecord.Json
