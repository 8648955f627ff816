import PackedRecord.Schema.Basic

/-!
# Choosing a codec

`Kind.ofPlacement` picks the codec of a member from its view.  A view that does not suit the
width of the member falls back to raw bytes, on the heap if the member has variable length.
A codec of variable length and a member of fixed length never meet, nor the reverse.
-/

namespace PackedRecord

namespace Element

/-- Widths of integers. -/
def isIntegerWidth (size : Int) : Bool := decide (size ∈ [1, 2, 4, 8])

/-- Raw bytes, in place or on the heap. -/
def fallback (p : Placement) : Element :=
  .scalar (if p.isVarying then .varyingBytes else .raw)

/-- Codec for one element of a member with a given view, before the check of its length. -/
def choose (p : Placement) (settings : Settings) (view : View) : Except Error Element :=
  let fits := isIntegerWidth p.size
  let unit := (p.meaning.map Meaning.unit).getD settings.timeUnit
  match view with
  | .bool => .ok (if 0 < p.size then .scalar .bool else fallback p)
  | .integer _ => .ok (if fits then .scalar (.integer p.signed) else fallback p)
  | .float _ => .ok (if p.size ∈ [4, 8] then .scalar .float else fallback p)
  | .string =>
    .ok (.scalar (if p.isVarying then .varyingText p.charset else .fixedText p.charset))
  | .enumeration =>
    match p.table with
    | some table =>
      if fits then .ok (.scalar (.enumeration table))
      else .error (.faultyLayout p.name (.enumWidth p.size))
    | none => .ok (.scalar (if fits then .integer p.signed else .raw))
  | .bitField => .ok (.scalar .bitField)
  | .timePoint => .ok (if fits then .scalar (.timestamp unit) else fallback p)
  | .duration => .ok (if fits then .scalar (.duration unit) else fallback p)
  | .compound =>
    match p.nested with
    | some schema => .ok (.record schema)
    | none => .ok (.scalar .raw)
  | .bytes | .array _ _ | .unknown => .ok (fallback p)

/-- Codec for one element of a member with a given view. -/
def ofView (p : Placement) (settings : Settings) (view : View) : Except Error Element :=
  match choose p settings view with
  | .error e => .error e
  | .ok element =>
    if element.isVarying = p.isVarying then .ok element
    else .error (.faultyLayout p.name (.cannotVary p.storageClass))

/-- The element is kept as raw bytes in place. -/
def isRaw : Element → Bool
  | scalar .raw => true
  | _ => false

end Element

/-- Codec of a member.  An array whose view is one element is read element by element, unless
that element is raw: then the whole member is. -/
def Kind.ofPlacement (rules : ViewRules) (settings : Settings) (p : Placement) :
    Except Error Kind :=
  if p.isArray then
    match p.view rules with
    | .array element _ => (Element.ofView p settings element).map .array
    | view =>
      (Element.ofView p settings view).map fun element =>
        if element.isRaw then .single element else .array element
  else (Element.ofView p settings (p.view rules)).map .single

end PackedRecord
