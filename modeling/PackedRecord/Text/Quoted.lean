import PackedRecord.Text.Hex
import PackedRecord.Text.Unprintable

/-!
# Quoted texts and bracketed lists

A quoted text stands between double quotes.  The quote, the backslash, tab, line feed,
carriage return and NUL are escaped by a letter, every other character without a visible form
by its code point in hexadecimal.
-/

namespace PackedRecord.Text

/-- One character of a quoted text. -/
def quoteChar (c : Char) : List Char :=
  match c with
  | '"' => ['\\', '"']
  | '\\' => ['\\', '\\']
  | '\n' => ['\\', 'n']
  | '\r' => ['\\', 'r']
  | '\t' => ['\\', 't']
  | '\x00' => ['\\', '0']
  | c => if isUnprintable c then '\\' :: 'u' :: '\x7b' :: hexDigits c.toNat ++ ['\x7d'] else [c]

/-- A text between double quotes. -/
def quoted (s : String) : String :=
  String.ofList ('"' :: s.toList.flatMap quoteChar ++ ['"'])

/-- Items between square brackets, separated by a comma and a blank. -/
def bracketed (items : List String) : String :=
  "[" ++ ", ".intercalate items ++ "]"

end PackedRecord.Text
