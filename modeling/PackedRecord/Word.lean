import PackedRecord.Power

/-!
# Words in byte windows

A byte window is a list of bytes.  A word of `n` bytes is written in base 256, least
significant digit first, and the byte order only arranges the digits: big order is the
reverse of little order.  Signed words are two's complement.

Principal results: `Word.value_digits` and `Word.digits_value` (the two directions are
inverse on words that fit), `ByteOrder.arrange_arrange` (arranging twice changes nothing).
-/

namespace PackedRecord

attribute [local instance] corePow

/-- Content of a window, first byte first. -/
abbrev Bytes := List UInt8

/-- Arrangement of the digits of a word. -/
inductive ByteOrder where
  | little
  | big
  deriving DecidableEq, Repr

namespace ByteOrder

/-- Turn digits that start with the least significant one into window order, or back. -/
def arrange : ByteOrder → Bytes → Bytes
  | .little, digits => digits
  | .big, digits => digits.reverse

@[simp] theorem arrange_arrange (order : ByteOrder) (bytes : Bytes) :
    order.arrange (order.arrange bytes) = bytes := by
  cases order <;> simp [arrange]

@[simp] theorem length_arrange (order : ByteOrder) (bytes : Bytes) :
    (order.arrange bytes).length = bytes.length := by
  cases order <;> simp [arrange]

end ByteOrder

/-! ## 64-bit integers -/

/-- The signed 64-bit integer equal to `i`, if there is one. -/
def int64? (i : Int) : Option Int64 :=
  if -(2 ^ 63) ≤ i ∧ i < 2 ^ 63 then some (Int64.ofInt i) else none

/-- The unsigned 64-bit integer equal to `i`, if there is one. -/
def uint64? (i : Int) : Option UInt64 :=
  if 0 ≤ i ∧ i < 2 ^ 64 then some (UInt64.ofNat i.toNat) else none

namespace Word

/-- The `n` lowest digits of `v` in base 256, least significant first. -/
def digits : Nat → Nat → Bytes
  | 0, _ => []
  | n + 1, v => UInt8.ofNat (v % 256) :: digits n (v / 256)

/-- Number written by digits in base 256, least significant first. -/
def value : Bytes → Nat
  | [] => 0
  | b :: rest => b.toNat + 256 * value rest

@[simp] theorem length_digits (n v : Nat) : (digits n v).length = n := by
  induction n generalizing v with
  | zero => rfl
  | succ n ih => simp [digits, ih]

theorem value_digits (n v : Nat) : value (digits n v) = v % 256 ^ n := by
  induction n generalizing v with
  | zero => simp [digits, value, Nat.mod_one]
  | succ n ih =>
    have hb : (UInt8.ofNat (v % 256)).toNat = v % 256 := by
      simp
    rw [digits, value, hb, ih, Nat.pow_succ, Nat.mul_comm (256 ^ n) 256, Nat.mod_mul]

theorem digits_value (bytes : Bytes) : digits bytes.length (value bytes) = bytes := by
  induction bytes with
  | nil => rfl
  | cons b rest ih =>
    have hb : b.toNat < 256 := UInt8.toNat_lt b
    have hm : (b.toNat + 256 * value rest) % 256 = b.toNat := by omega
    have hd : (b.toNat + 256 * value rest) / 256 = value rest := by omega
    simp [digits, value, hm, hd, ih]

theorem value_lt (bytes : Bytes) : value bytes < 256 ^ bytes.length := by
  induction bytes with
  | nil => simp [value]
  | cons b rest ih =>
    have hb : b.toNat < 256 := UInt8.toNat_lt b
    simp only [value, List.length_cons, Nat.pow_succ]
    omega

/-- Write `v` as a window of `n` bytes; digits beyond the window are dropped. -/
def write (order : ByteOrder) (n v : Nat) : Bytes :=
  order.arrange (digits n v)

/-- Unsigned number held by a window. -/
def read (order : ByteOrder) (window : Bytes) : Nat :=
  value (order.arrange window)

/-- An unsigned number fits `n` bytes. -/
def FitsUnsigned (n v : Nat) : Prop := v < 256 ^ n

instance (n v : Nat) : Decidable (FitsUnsigned n v) :=
  inferInstanceAs (Decidable (v < 256 ^ n))

/-- A signed number fits `n` bytes in two's complement. -/
def FitsSigned (n : Nat) (v : Int) : Prop :=
  -(256 ^ n : Int) ≤ 2 * v ∧ 2 * v < (256 ^ n : Int)

instance (n : Nat) (v : Int) : Decidable (FitsSigned n v) :=
  inferInstanceAs (Decidable (_ ∧ _))

/-- Two's complement pattern of `v` in `n` bytes. -/
def complement (n : Nat) (v : Int) : Nat :=
  (v % (256 ^ n : Int)).toNat

/-- Number with the two's complement pattern `v` in `n` bytes. -/
def signedValue (n v : Nat) : Int :=
  if 2 * v < 256 ^ n then (v : Int) else (v : Int) - (256 ^ n : Int)

/-- Write a signed number as an `n`-byte two's complement window. -/
def writeSigned (order : ByteOrder) (n : Nat) (v : Int) : Bytes :=
  write order n (complement n v)

/-- Signed number held by a window, the top digit carrying the sign. -/
def readSigned (order : ByteOrder) (window : Bytes) : Int :=
  signedValue window.length (read order window)

@[simp] theorem length_write (order : ByteOrder) (n v : Nat) : (write order n v).length = n := by
  simp [write]

theorem read_write (order : ByteOrder) {n v : Nat} (h : FitsUnsigned n v) :
    read order (write order n v) = v := by
  rw [read, write, ByteOrder.arrange_arrange, value_digits, Nat.mod_eq_of_lt h]

theorem write_read (order : ByteOrder) (window : Bytes) :
    write order window.length (read order window) = window := by
  have h := digits_value (order.arrange window)
  rw [ByteOrder.length_arrange] at h
  rw [write, read, h, ByteOrder.arrange_arrange]

end Word

end PackedRecord
