import PackedRecord.Shape

/-!
# Inferred placements

`FieldType.infer` states how a declared field is stored: the width of its class, a string with
room for its terminator, and the unit and the character set of the settings where the field
names none.  An array has the placement of its element with extents added.
-/

namespace PackedRecord

namespace FieldType

/-- The type can be the element of an array. -/
def isArrayElement : FieldType → Bool
  | array .. | varyingString _ | varyingBytes => false
  | _ => true

/-- Placement of a field at offset zero. -/
def infer (name : String) (settings : Settings) : FieldType → Except Error Placement
  | bool => .ok (.plain name 0 .boolean 1)
  | integer size signed =>
    if size ∈ [1, 2, 4, 8] then .ok { Placement.integer name 0 size with signed := signed }
    else .error (.faultyLayout name (.integerWidth size))
  | float size =>
    if size ∈ [4, 8] then .ok (.float name 0 size)
    else .error (.faultyLayout name (.floatWidth size))
  | string length charset =>
    let charset := charset.getD settings.charset
    .ok { Placement.string name 0 (charset.widthOf length) with charset := charset }
  | varyingString charset =>
    .ok { Placement.plain name 0 .string (-1) with charset := charset.getD settings.charset }
  | enumeration table =>
    .ok { Placement.plain name 0 .enumeration (Placement.sizeOfCount table.width) with
      table := some table }
  | bitField bits =>
    if bits = 0 then .error (.faultyLayout name .noBits)
    else .ok (.plain name 0 .bitField ((bits + 7) / 8 : Nat))
  | timestamp unit => .ok (.timestamp name 0 (unit.getD settings.timeUnit))
  | duration unit =>
    .ok { Placement.plain name 0 .integer 8 with meaning := some (.duration unit) }
  | raw size tag =>
    .ok { Placement.plain name 0 .raw (Placement.sizeOfCount size) with tag := tag }
  | varyingBytes => .ok (.plain name 0 .raw (-1))
  | array element dims =>
    if !element.isArrayElement then .error (.faultyLayout name .arrayElement)
    else if dims.isEmpty || decide (maxRank < dims.length) then
      .error (.faultyLayout name (.arrayRank dims.length))
    else (infer name settings element).map (·.withDims dims)
  | compound schema =>
    .ok { Placement.plain name 0 .compound (Placement.sizeOfCount schema.totalSize) with
      nested := some schema }

end FieldType

/-- Placements of some fields, one behind the other from an offset.  The offsets are exact sums,
which are those of machine words as long as every `stop` is below `2 ^ 64`. -/
def packFields (settings : Settings) : Nat → List Field → Except Error (List Placement)
  | _, [] => .ok []
  | offset, f :: rest =>
    match f.type.infer f.name settings with
    | .error e => .error e
    | .ok placed =>
      let p := placed.moveTo offset
      (packFields settings p.stop rest).map (p :: ·)

end PackedRecord
