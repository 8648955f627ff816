import PackedRecord.Json.Basic
import PackedRecord.Layout.View

/-!
# Views as JSON documents

A view without parts is its name; a number has its size and an array its element and its rank
under the name.
-/

namespace PackedRecord.View

/-- Views without parts. -/
def simple : List View :=
  [bool, string, enumeration, bitField, timePoint, duration, bytes, compound, unknown]

/-- Name of a view. -/
def name : View → String
  | bool => "Bool"
  | integer _ => "Integer"
  | float _ => "Float"
  | string => "String"
  | enumeration => "Enum"
  | bitField => "BitField"
  | timePoint => "TimePoint"
  | duration => "Duration"
  | bytes => "Bytes"
  | compound => "Compound"
  | array .. => "Array"
  | unknown => "Unknown"

/-- The document of a view. -/
def toJson : View → Json
  | integer size => .object [("Integer", .integer size)]
  | float size => .object [("Float", .integer size)]
  | array element rank =>
    .object [("Array", .object [("element", element.toJson), ("rank", .integer rank)])]
  | view => .text view.name

/-- The view of a document. -/
def ofJson? : Json → Option View
  | .text s => simple.find? fun view => view.name == s
  | .object [("Integer", .integer size)] => some (integer size.toNat)
  | .object [("Float", .integer size)] => some (float size.toNat)
  | .object [("Array", .object [("element", element), ("rank", .integer rank)])]
  | .object [("Array", .object [("rank", .integer rank), ("element", element)])] =>
    (ofJson? element).map (array · rank.toNat)
  | _ => none

end PackedRecord.View
