import PackedRecord.Word

/-!
# Hexadecimal texts

Numbers and byte windows in lower-case hexadecimal.  A digit of either case is read.
-/

namespace PackedRecord.Text

/-- Lower-case hexadecimal digits of a number. -/
def hexDigits (n : Nat) : List Char := Nat.toDigits 16 n

/-- Digits of a number, at least `width` of them. -/
def paddedHex (width n : Nat) : List Char :=
  List.replicate (width - (hexDigits n).length) '0' ++ hexDigits n

/-- Value of a hexadecimal digit. -/
def hexValue? (c : Char) : Option Nat :=
  if '0' ≤ c ∧ c ≤ '9' then some (c.toNat - '0'.toNat)
  else if 'a' ≤ c ∧ c ≤ 'f' then some (c.toNat - 'a'.toNat + 10)
  else if 'A' ≤ c ∧ c ≤ 'F' then some (c.toNat - 'A'.toNat + 10)
  else none

/-- Number written by some digits. -/
def hexNumber? (digits : List Char) : Option Nat :=
  digits.foldlM (fun n c => (hexValue? c).map (n * 16 + ·)) 0

/-- Two digits for each byte. -/
def hexOfBytes (bytes : Bytes) : String :=
  String.ofList (bytes.flatMap fun b => paddedHex 2 b.toNat)

/-- Bytes of two digits each. -/
def bytesOfHex? : List Char → Option Bytes
  | [] => some []
  | a :: b :: rest =>
    match hexValue? a, hexValue? b with
    | some a, some b => (bytesOfHex? rest).map (UInt8.ofNat (a * 16 + b) :: ·)
    | _, _ => none
  | _ => none

end PackedRecord.Text
