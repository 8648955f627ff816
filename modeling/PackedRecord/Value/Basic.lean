import PackedRecord.Assoc
import PackedRecord.Number
import PackedRecord.Time.Instant

/-!
# Values of a record

`Value` is the dynamic value of one member.  A nested record is an association list in
ascending key order, an array a list of extents and its elements in row-major order; the
builders `Value.array?`, `Value.row` and `Value.ofFields` keep both conditions, which
`Value.WellFormed` states.
-/

namespace PackedRecord

/-- Value of an enum member: an entry of the table, or a code that the reader's table lacks. -/
inductive Choice where
  | known (ordinal : Nat) (label : String)
  | unlisted (code : Int64)
  deriving DecidableEq, Repr

namespace Choice

def label? : Choice → Option String
  | known _ label => some label
  | unlisted _ => none

def isKnown : Choice → Bool
  | known .. => true
  | unlisted _ => false

end Choice

/-- Highest rank of an array. -/
def maxRank : Nat := 32

/-- Number of elements of an array with the given extents, as an exact product. -/
def elementCount (dims : List Nat) : Nat := dims.foldr (· * ·) 1

/-- A dynamic value. -/
inductive Value where
  | null
  | bool (flag : Bool)
  | number (n : Number)
  | text (s : String)
  | choice (c : Choice)
  /-- Bit set, least significant word first. -/
  | bits (words : List UInt64)
  | instant (t : Time.Instant)
  | span (d : Time.Span)
  | bytes (content : Bytes)
  | array (dims : List Nat) (elements : List Value)
  | fields (entries : List (String × Value))
  deriving Repr

/-- A dynamic record: member name to value. -/
abbrev Fields := Assoc String Value

/-- An array value: extents, outermost first, and elements in row-major order. -/
structure Grid where
  dims : List Nat
  elements : List Value
  deriving Repr

namespace Grid

/-- The grid of some extents, if they match the number of elements. -/
def ofElements? (dims : List Nat) (elements : List Value) : Option Grid :=
  if dims.length ≤ maxRank ∧ elementCount dims = elements.length then some ⟨dims, elements⟩
  else none

/-- The grid of rank one. -/
def row (elements : List Value) : Grid := ⟨[elements.length], elements⟩

end Grid

namespace Value

/-- The array with the given extents, if they match the number of elements. -/
def array? (dims : List Nat) (elements : List Value) : Option Value :=
  (Grid.ofElements? dims elements).map fun g => .array g.dims g.elements

/-- The array of rank one. -/
def row (elements : List Value) : Value := .array [elements.length] elements

/-- The record of some pairs; of pairs with one name the last wins. -/
def ofFields (pairs : List (String × Value)) : Value := .fields (Assoc.ofList pairs)

/-- Name of the kind of value, as error texts give it. -/
def kindName : Value → String
  | null => "null"
  | bool _ => "bool"
  | number (.int _) => "i64"
  | number (.nat _) => "u64"
  | number (.float _) => "f64"
  | text _ => "string"
  | choice _ => "enum"
  | bits _ => "bitfield"
  | instant _ => "timestamp"
  | span _ => "duration"
  | bytes _ => "bytes"
  | array .. => "array"
  | fields _ => "compound"

def isNull : Value → Bool
  | null => true
  | _ => false

def text? : Value → Option String
  | text s => some s
  | _ => none

def number? : Value → Option Number
  | number n => some n
  | _ => none

def bool? : Value → Option Bool
  | bool b => some b
  | _ => none

def instant? : Value → Option Time.Instant
  | instant t => some t
  | _ => none

def span? : Value → Option Time.Span
  | span d => some d
  | _ => none

def choice? : Value → Option Choice
  | choice c => some c
  | _ => none

def fields? : Value → Option Fields
  | fields entries => some entries
  | _ => none

def grid? : Value → Option Grid
  | array dims elements => some ⟨dims, elements⟩
  | _ => none

def bytes? : Value → Option Bytes
  | bytes content => some content
  | _ => none

/-- The nearest double of a number. -/
def double? (v : Value) : Option Double := v.number?.map Number.toDouble

/-- A number as a signed integer. -/
def int? (v : Value) : Option Int64 := v.number?.bind Number.toInt?

/-- A number as an unsigned integer. -/
def nat? (v : Value) : Option UInt64 := v.number?.bind Number.toNat?

/-- Whole milliseconds from the epoch to a point in time. -/
def millis? (v : Value) : Option Int := v.instant?.map Time.Instant.millis

/-- Value under a name of a nested record. -/
def get? (v : Value) (name : String) : Option Value := v.fields?.bind (Assoc.get? name)

mutual

/-- Equality of values; doubles are compared as numbers. -/
def equal : Value → Value → Bool
  | null, null => true
  | bool a, bool b => a == b
  | number a, number b => a.equal b
  | text a, text b => a == b
  | choice a, choice b => a == b
  | bits a, bits b => a == b
  | instant a, instant b => a == b
  | span a, span b => a == b
  | bytes a, bytes b => a == b
  | array ds vs, array es ws => ds == es && equalAll vs ws
  | fields xs, fields ys => equalFields xs ys
  | _, _ => false

/-- Equality element by element. -/
def equalAll : List Value → List Value → Bool
  | [], [] => true
  | v :: vs, w :: ws => equal v w && equalAll vs ws
  | _, _ => false

/-- Equality entry by entry, names included. -/
def equalFields : List (String × Value) → List (String × Value) → Bool
  | [], [] => true
  | (k, v) :: xs, (l, w) :: ys => k == l && equal v w && equalFields xs ys
  | _, _ => false

end

mutual

/-- Arrays have as many elements as their extents say, names of records strictly ascend. -/
def WellFormed : Value → Prop
  | array dims elements =>
    dims.length ≤ maxRank ∧ elementCount dims = elements.length ∧ WellFormedAll elements
  | fields entries => (entries.map Prod.fst).Pairwise (· < ·) ∧ WellFormedFields entries
  | _ => True

/-- Every element is well formed. -/
def WellFormedAll : List Value → Prop
  | [] => True
  | v :: rest => v.WellFormed ∧ WellFormedAll rest

/-- Every entry is well formed. -/
def WellFormedFields : List (String × Value) → Prop
  | [] => True
  | (_, v) :: rest => v.WellFormed ∧ WellFormedFields rest

end

theorem wellFormedAll_iff {vs : List Value} : WellFormedAll vs ↔ ∀ v ∈ vs, v.WellFormed := by
  induction vs with
  | nil => simp [WellFormedAll]
  | cons v rest ih => simp [WellFormedAll, ih]

theorem wellFormedFields_iff {entries : List (String × Value)} :
    WellFormedFields entries ↔ ∀ e ∈ entries, e.2.WellFormed := by
  induction entries with
  | nil => simp [WellFormedFields]
  | cons e rest ih => simp only [WellFormedFields, ih, List.forall_mem_cons]

end Value

end PackedRecord
