import PackedRecord.Handle

/-!
# Signed words and handle slots

* `Word.readSigned_writeSigned` — a signed number that fits its window is read back.
* `Handle.read_write` — a handle is read back from its slot.
* `Handle.key?_of_ofKey?` — the handle of an object leads to that object's key.
-/

namespace PackedRecord

attribute [local instance] corePow

/-! ## 64-bit integers -/

theorem int64?_toInt (i : Int64) : int64? i.toInt = some i := by
  have hl := Int64.le_toInt i
  have hu := Int64.toInt_lt i
  rw [int64?, if_pos ⟨hl, hu⟩, Int64.ofInt_toInt]

theorem toInt_of_int64? {i : Int} {n : Int64} (h : int64? i = some n) : n.toInt = i := by
  unfold int64? at h
  split at h
  · rename_i hi
    cases h
    exact Int64.toInt_ofInt_of_le hi.1 hi.2
  · cases h

theorem int64?_eq_some_iff {i : Int} {k : Int64} : int64? i = some k ↔ i = k.toInt := by
  constructor
  · exact fun h => (toInt_of_int64? h).symm
  · intro h
    rw [h, int64?_toInt]

theorem uint64?_eq_some_iff {i : Int} {k : UInt64} : uint64? i = some k ↔ i = k.toNat := by
  have hk := k.toNat_lt
  unfold uint64?
  split
  · rename_i hi
    have hback : (UInt64.ofNat i.toNat).toNat = i.toNat :=
      UInt64.toNat_ofNat_of_lt' (by change _ < 2 ^ 64; omega)
    rw [Option.some.injEq, ← UInt64.toNat_inj, hback]
    omega
  · exact iff_of_false (Option.some_ne_none _).symm (by omega)

theorem int64?_eq_none_iff {i : Int} : int64? i = none ↔ ¬Word.FitsSigned 8 i := by
  unfold int64? Word.FitsSigned
  split <;> simp <;> omega

namespace Word

/-! ## Two's complement -/

@[simp] theorem length_writeSigned (order : ByteOrder) (n : Nat) (v : Int) :
    (writeSigned order n v).length = n := length_write order n _

theorem pow_pos (n : Nat) : (0 : Int) < 256 ^ n := Int.pow_pos (by decide)

theorem complement_lt (n : Nat) (v : Int) : FitsUnsigned n (complement n v) := by
  have hp := pow_pos n
  have hlt := Int.emod_lt_of_pos v hp
  have hnn := Int.emod_nonneg v (Int.ne_of_gt hp)
  unfold FitsUnsigned complement
  rw [← Int.ofNat_lt, Int.toNat_of_nonneg hnn, Int.natCast_pow]
  exact hlt

/-- Reading a pattern as signed undoes the complement on the numbers that fit. -/
theorem signedValue_complement {n : Nat} {v : Int} (h : FitsSigned n v) :
    signedValue n (complement n v) = v := by
  have hp := pow_pos n
  obtain ⟨hl, hu⟩ := h
  have hcast : ((256 ^ n : Nat) : Int) = 256 ^ n := Int.natCast_pow 256 n
  unfold signedValue complement
  by_cases hv : 0 ≤ v
  · have hmod : v % 256 ^ n = v := Int.emod_eq_of_lt hv (by omega)
    rw [hmod, if_pos (by omega), Int.toNat_of_nonneg hv]
  · have hmod : v % 256 ^ n = v + 256 ^ n := by
      rw [← Int.add_emod_right, Int.emod_eq_of_lt (by omega) (by omega)]
    rw [hmod, if_neg (by omega), Int.toNat_of_nonneg (by omega)]
    omega

/-- The pattern of the number that a pattern stands for. -/
theorem complement_signedValue {n v : Nat} (h : FitsUnsigned n v) :
    complement n (signedValue n v) = v := by
  have hcast : ((256 ^ n : Nat) : Int) = 256 ^ n := Int.natCast_pow 256 n
  unfold FitsUnsigned at h
  unfold signedValue complement
  split
  · rw [Int.emod_eq_of_lt (by omega) (by omega), Int.toNat_natCast]
  · rw [← Int.add_emod_right, Int.sub_add_cancel, Int.emod_eq_of_lt (by omega) (by omega),
      Int.toNat_natCast]

theorem readSigned_writeSigned (order : ByteOrder) {n : Nat} {v : Int} (h : FitsSigned n v) :
    readSigned order (writeSigned order n v) = v := by
  rw [readSigned, length_writeSigned, writeSigned, read_write order (complement_lt n v),
    signedValue_complement h]

theorem FitsSigned.mono {m n : Nat} {v : Int} (h : FitsSigned m v) (hmn : m ≤ n) :
    FitsSigned n v := by
  have hpow : 256 ^ m ≤ 256 ^ n := Nat.pow_le_pow_right (by decide) hmn
  have hm : ((256 ^ m : Nat) : Int) = 256 ^ m := Int.natCast_pow 256 m
  have hn : ((256 ^ n : Nat) : Int) = 256 ^ n := Int.natCast_pow 256 n
  obtain ⟨hl, hu⟩ := h
  constructor <;> omega

/-- The number that a pattern stands for fits as many bytes. -/
theorem fitsSigned_signedValue {n v : Nat} (h : FitsUnsigned n v) :
    FitsSigned n (signedValue n v) := by
  have hcast : ((256 ^ n : Nat) : Int) = 256 ^ n := Int.natCast_pow 256 n
  unfold FitsUnsigned at h
  unfold FitsSigned signedValue
  split <;> omega

theorem fitsUnsigned_read (order : ByteOrder) (window : Bytes) :
    FitsUnsigned window.length (read order window) := by
  have h := value_lt (order.arrange window)
  rwa [ByteOrder.length_arrange] at h

theorem writeSigned_readSigned (order : ByteOrder) (window : Bytes) :
    writeSigned order window.length (readSigned order window) = window := by
  rw [writeSigned, readSigned, complement_signedValue (fitsUnsigned_read order window), write_read]

/-! ## Numbers of 64 bits -/

theorem FitsSigned.toInt_ofInt {n : Nat} {v : Int} (h : FitsSigned n v) (hn : n ≤ 8) :
    (Int64.ofInt v).toInt = v := by
  obtain ⟨hl, hu⟩ := h.mono hn
  exact Int64.toInt_ofInt_of_le (by omega) (by omega)

theorem FitsUnsigned.toNat_ofNat {n v : Nat} (h : FitsUnsigned n v) (hn : n ≤ 8) :
    (UInt64.ofNat v).toNat = v :=
  UInt64.toNat_ofNat_of_lt' (Nat.lt_of_lt_of_le h (Nat.pow_le_pow_right (by decide) hn))

/-- The integer that a whole word stands for. -/
theorem toInt_toInt64 (w : UInt64) : w.toInt64.toInt = signedValue 8 w.toNat := by
  have hcond := BitVec.toInt_eq_toNat_cond w.toBitVec
  change w.toInt64.toInt = if 2 * w.toNat < 2 ^ 64 then (w.toNat : Int)
    else (w.toNat : Int) - (2 ^ 64 : Nat) at hcond
  rw [hcond]
  rfl

/-! ## Windows of zeros -/

theorem value_zeros (n : Nat) : value (List.replicate n 0) = 0 := by
  induction n with
  | zero => rfl
  | succ n ih => simp [List.replicate_succ, value, ih]

theorem value_append (a b : Bytes) : value (a ++ b) = value a + 256 ^ a.length * value b := by
  induction a with
  | nil => simp [value]
  | cons x a ih =>
    simp only [List.cons_append, value, ih, List.length_cons, Nat.pow_succ]
    rw [Nat.mul_add, ← Nat.mul_assoc, Nat.mul_comm 256 (256 ^ a.length), Nat.add_assoc]

theorem eq_zeros_of_value {bytes : Bytes} (h : value bytes = 0) :
    bytes = List.replicate bytes.length 0 := by
  have hd := digits_value bytes
  have hz := digits_value (List.replicate bytes.length 0)
  rw [value_zeros, List.length_replicate] at hz
  rw [h, hz] at hd
  exact hd.symm

theorem read_zeros (order : ByteOrder) (n : Nat) : read order (List.replicate n 0) = 0 := by
  cases order <;> simp [read, ByteOrder.arrange, value_zeros]

end Word

/-! ## Handles -/

namespace Handle

theorem exists_ofKey? (key : UInt64) {length : Nat} (h : length < 2 ^ 32) :
    ∃ handle, ofKey? key length = some handle := ⟨_, if_pos h⟩

/-- **The handle of an object leads back to its key and states its length.** -/
theorem key?_of_ofKey? {key : UInt64} {length : Nat} {h : Handle}
    (ho : ofKey? key length = some h) :
    h.key? = some key ∧ h.length.toNat = length ∧ h.isNull = false := by
  have hk := key.toNat_lt
  unfold ofKey? at ho
  split at ho
  · rename_i hlen
    cases ho
    have hcoll : (UInt64.ofNat (key.toNat / 2 ^ 32 + 1)).toNat = key.toNat / 2 ^ 32 + 1 :=
      UInt64.toNat_ofNat_of_lt' (by change _ < 2 ^ 64; omega)
    have hne : UInt64.ofNat (key.toNat / 2 ^ 32 + 1) ≠ 0 := by
      intro h0
      have := congrArg UInt64.toNat h0
      rw [hcoll] at this
      exact absurd this (Nat.succ_ne_zero _)
    have hindex : (UInt32.ofNat (key.toNat % 2 ^ 32)).toNat = key.toNat % 2 ^ 32 :=
      UInt32.toNat_ofNat_of_lt' (by change _ < 2 ^ 32; omega)
    refine ⟨?_, UInt32.toNat_ofNat_of_lt' hlen, by simpa [isNull] using hne⟩
    rw [key?, if_neg hne]
    simp only [hcoll, hindex]
    have hkey : (key.toNat / 2 ^ 32 + 1 - 1) % 2 ^ 32 * 2 ^ 32 + key.toNat % 2 ^ 32 =
        key.toNat := by omega
    rw [hkey, UInt64.ofNat_toNat]
  · cases ho

@[simp] theorem length_write (order : ByteOrder) (h : Handle) :
    (h.write order).length = width := by
  simp [write, width]

/-- A slot consists of the windows of its three fields. -/
theorem exists_fields {window : Bytes} (hw : window.length = width) : ∃ a b c : Bytes,
    window = a ++ (b ++ c) ∧ a.length = 4 ∧ b.length = 8 ∧ c.length = 4 := by
  refine ⟨window.take 4, (window.drop 4).take 8, (window.drop 4).drop 8, ?_, ?_, ?_, ?_⟩
  · rw [List.take_append_drop, List.take_append_drop]
  all_goals
    simp only [List.length_take, List.length_drop, hw]
    decide

/-- A slot is read field by field. -/
theorem read_append (order : ByteOrder) {a b c : Bytes} (ha : a.length = 4) (hb : b.length = 8)
    (hc : c.length = 4) : read order (a ++ (b ++ c)) = ⟨UInt32.ofNat (Word.read order a),
      UInt64.ofNat (Word.read order b), UInt32.ofNat (Word.read order c)⟩ := by
  unfold read
  rw [List.take_left' ha, List.drop_left' ha, List.take_left' hb, ← List.append_assoc,
    List.drop_left' (by simp [ha, hb]), List.take_of_length_le (by omega)]

theorem read_write (order : ByteOrder) (h : Handle) : read order (h.write order) = h := by
  have hl : Word.FitsUnsigned 4 h.length.toNat := h.length.toNat_lt
  have hc : Word.FitsUnsigned 8 h.collection.toNat := h.collection.toNat_lt
  have hi : Word.FitsUnsigned 4 h.index.toNat := h.index.toNat_lt
  rw [write, read_append order (Word.length_write ..) (Word.length_write ..)
      (Word.length_write ..), Word.read_write order hl, Word.read_write order hc,
    Word.read_write order hi, UInt32.ofNat_toNat, UInt64.ofNat_toNat, UInt32.ofNat_toNat]

/-- Zeros are the handle of no object. -/
theorem read_zeros (order : ByteOrder) (n : Nat) :
    read order (List.replicate n 0) = null := by
  simp [read, null, List.take_replicate, List.drop_replicate, Word.read_zeros]

/-- A slot of zeros holds no handle. -/
theorem isNull_read_zeros (order : ByteOrder) (n : Nat) :
    (read order (List.replicate n 0)).isNull = true := by
  rw [read_zeros]
  rfl

end Handle

end PackedRecord
