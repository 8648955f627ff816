import PackedRecord.Floating.Text

/-!
# JSON documents

A document keeps its object members as a list, in the order they were given.  Integers and
floating point numbers are told apart.  `Json.render` writes the compact text: floating point
numbers always show a fraction or a power of ten, and only quotes, backslashes and control
characters are escaped.
-/

namespace PackedRecord

/-- A JSON document. -/
inductive Json where
  | null
  | bool (flag : Bool)
  | integer (i : Int)
  | float (x : Double)
  | text (s : String)
  | array (elements : List Json)
  | object (members : List (String × Json))
  deriving Repr

namespace Json

/-- Floating point numbers in JSON: shortest digits, a power of ten below `10 ^ (-5)` and from
`10 ^ 16` on. -/
def floatStyle : Floating.Style :=
  ⟨.even, some (-5, 15), true, "null", "null"⟩

/-- A floating point number, or null if it has no digits. -/
def ofDouble (x : Double) : Json := if x.isNaN || x.isInfinite then null else float x

/-- One character of a string. -/
def escapeChar (c : Char) : List Char :=
  match c with
  | '"' => ['\\', '"']
  | '\\' => ['\\', '\\']
  | '\x08' => ['\\', 'b']
  | '\t' => ['\\', 't']
  | '\n' => ['\\', 'n']
  | '\x0c' => ['\\', 'f']
  | '\r' => ['\\', 'r']
  | c =>
    if c.toNat < 0x20 then
      ['\\', 'u', '0', '0', Nat.digitChar (c.toNat / 16), Nat.digitChar (c.toNat % 16)]
    else [c]

/-- A string between its quotes. -/
def renderText (s : String) : String :=
  String.ofList ('"' :: s.toList.flatMap escapeChar ++ ['"'])

mutual

/-- Compact text of a document. -/
def render : Json → String
  | null => "null"
  | bool true => "true"
  | bool false => "false"
  | integer i => toString i
  | float x => floatStyle.text x
  | text s => renderText s
  | array elements => "[" ++ ",".intercalate (renderAll elements) ++ "]"
  | object members => "\x7b" ++ ",".intercalate (renderMembers members) ++ "\x7d"

/-- Texts of the elements. -/
def renderAll : List Json → List String
  | [] => []
  | j :: rest => j.render :: renderAll rest

/-- Texts of the members. -/
def renderMembers : List (String × Json) → List String
  | [] => []
  | (name, j) :: rest => (renderText name ++ ":" ++ j.render) :: renderMembers rest

end

/-- Members of an object. -/
def members? : Json → Option (List (String × Json))
  | object members => some members
  | _ => none

end Json

end PackedRecord
