import BinaryFormat.Proofs.Reading

/-!
# Integers of a few bytes

An integer is read into a machine word of eight bytes. Fields have eight bytes at most, so the word holds
the very integer that the bytes write: nothing is cut off, with or without a sign.
-/

namespace BinaryFormat

/-! ## The range of some bytes -/

theorem shiftLeft_bytes_succ (n : Nat) : 1 <<< (8 * (n + 1)) = 256 * 1 <<< (8 * n) := by
  rw [Nat.shiftLeft_eq, Nat.shiftLeft_eq, Nat.mul_succ, Nat.pow_add]
  omega

theorem shiftLeft_bytes_pos (n : Nat) : 0 < 1 <<< (8 * n) := by
  rw [Nat.shiftLeft_eq, Nat.one_mul]
  exact Nat.pow_pos (by decide)

theorem shiftLeft_bytes_le {n : Nat} (h : n ≤ 8) : 1 <<< (8 * n) ≤ UInt64.size := by
  rw [Nat.shiftLeft_eq, Nat.one_mul]
  exact Nat.pow_le_pow_right (by decide) (show 8 * n ≤ 64 by omega)

namespace ByteOrder

/-- The value of some bytes is less than two to the number of their bits. -/
theorem value_lt (order : ByteOrder) (bytes : List UInt8) :
    order.value bytes < 1 <<< (8 * bytes.length) := by
  have hbyte : ∀ b : UInt8, b.toNat < 256 := fun b => b.toNat_lt
  cases order with
  | little =>
      induction bytes with
      | nil => exact Nat.one_pos
      | cons b bytes ih =>
          have hb := hbyte b
          show b.toNat + 256 * value little bytes < 1 <<< (8 * (bytes.length + 1))
          rw [shiftLeft_bytes_succ]
          omega
  | big =>
      -- the digits read so far count in units of what is still to come
      have hgeneral : ∀ (bytes : List UInt8) (n : Nat),
          bytes.foldl (fun n b => 256 * n + b.toNat) n < (n + 1) * 1 <<< (8 * bytes.length) := by
        intro bytes
        induction bytes with
        | nil => intro n; simp
        | cons b bytes ih =>
            intro n
            have hb := hbyte b
            calc (b :: bytes).foldl (fun n b => 256 * n + b.toNat) n
                < (256 * n + b.toNat + 1) * 1 <<< (8 * bytes.length) := ih _
              _ ≤ ((n + 1) * 256) * 1 <<< (8 * bytes.length) := Nat.mul_le_mul_right _ (by omega)
              _ = (n + 1) * 1 <<< (8 * (b :: bytes).length) := by
                rw [List.length_cons, shiftLeft_bytes_succ, Nat.mul_assoc]
      have := hgeneral bytes 0
      simpa [value] using this

/-- The integer that some bytes write, in two's complement if it may be negative. -/
def integer (order : ByteOrder) (isSigned : Bool) (bytes : List UInt8) : Int :=
  if isSigned then order.signedValue bytes else order.value bytes

/-- Eight bytes fit into a word. -/
theorem value_lt_word (order : ByteOrder) {bytes : List UInt8} (h : bytes.length ≤ 8) :
    order.value bytes < UInt64.size :=
  Nat.lt_of_lt_of_le (order.value_lt bytes) (shiftLeft_bytes_le h)

/-- A signed number of up to eight bytes fits into a signed word. -/
theorem signedValue_bounds (order : ByteOrder) {bytes : List UInt8} (h : bytes.length ≤ 8) :
    Int64.minValue.toInt ≤ order.signedValue bytes ∧ order.signedValue bytes ≤ Int64.maxValue.toInt := by
  have hle := shiftLeft_bytes_le h
  have hpos := shiftLeft_bytes_pos bytes.length
  have h1 := Int.le_bmod (x := order.value bytes) hpos
  have h2 := Int.bmod_lt (x := order.value bytes) hpos
  have hsize : UInt64.size = 18446744073709551616 := rfl
  have hmin : Int64.minValue.toInt = -9223372036854775808 := rfl
  have hmax : Int64.maxValue.toInt = 9223372036854775807 := rfl
  show _ ≤ Int.bmod (order.value bytes) (1 <<< (8 * bytes.length)) ∧
    Int.bmod (order.value bytes) (1 <<< (8 * bytes.length)) ≤ _
  generalize 1 <<< (8 * bytes.length) = m at *
  omega

/-- The lower half of the patterns is that of the integers that are not negative. -/
theorem signedValue_eq (order : ByteOrder) (bytes : List UInt8) :
    order.signedValue bytes =
      if 2 * order.value bytes < 1 <<< (8 * bytes.length) then (order.value bytes : Int)
      else order.value bytes - (1 <<< (8 * bytes.length) : Nat) := by
  have hlt := order.value_lt bytes
  unfold signedValue
  generalize 1 <<< (8 * bytes.length) = m at *
  have hmod : (order.value bytes : Int) % m = order.value bytes :=
    Int.emod_eq_of_lt (Int.natCast_nonneg _) (Int.ofNat_lt.mpr hlt)
  rw [Int.bmod_def, hmod]
  by_cases hlower : 2 * order.value bytes < m
  · rw [if_pos hlower, if_pos (by omega)]
  · rw [if_neg hlower, if_neg (by omega)]

/-- A signed number is negative exactly if the highest bit of its bytes is set. -/
theorem integer_nonneg_iff (order : ByteOrder) (isSigned : Bool) (bytes : List UInt8) :
    0 ≤ order.integer isSigned bytes ↔ isSigned = false ∨ 2 * order.value bytes < 1 <<< (8 * bytes.length) := by
  cases isSigned with
  | false => exact ⟨fun _ => .inl rfl, fun _ => Int.natCast_nonneg _⟩
  | true =>
      have hlt := order.value_lt bytes
      show 0 ≤ order.signedValue bytes ↔ _
      rw [signedValue_eq]
      split
      · exact ⟨fun _ => .inr ‹_›, fun _ => Int.natCast_nonneg _⟩
      · refine ⟨fun _ => by omega, fun h => ?_⟩
        obtain h | h := h
        · cases h
        · contradiction

/-- An integer that does not come out negative is the same one with and without a sign. -/
theorem integer_eq_value {order : ByteOrder} {isSigned : Bool} {bytes : List UInt8}
    (h : 0 ≤ order.integer isSigned bytes) : order.integer isSigned bytes = order.value bytes := by
  obtain rfl | hlower := (order.integer_nonneg_iff isSigned bytes).mp h
  · rfl
  · cases isSigned with
    | false => rfl
    | true => exact (order.signedValue_eq bytes).trans (if_pos hlower)

end ByteOrder

/-- The register of an integer is its pattern of 64 bits. -/
theorem Node.Number.toNat_toUInt64 (n : Number) : (n.toUInt64.toNat : Int) = n.toInt % UInt64.size := by
  cases n with
  | unsigned n => exact (Int.emod_eq_of_lt (Int.natCast_nonneg _) (Int.ofNat_lt.mpr n.toNat_lt)).symm
  | signed n =>
      show (n.toBitVec.toNat : Int) = n.toBitVec.toInt % UInt64.size
      have hmod : n.toBitVec.toInt % UInt64.size = n.toBitVec.toNat % UInt64.size := by
        rw [BitVec.toInt_eq_toNat_bmod]
        exact Int.bmod_emod
      rw [hmod]
      exact (Int.emod_eq_of_lt (Int.natCast_nonneg _) (Int.ofNat_lt.mpr n.toBitVec.isLt)).symm

/-- A word of 32 bits is the pattern of an integer only if it is the integer itself. A negative integer has all the
upper bits of its pattern set, and the word has none of them. -/
theorem Node.Number.toUInt64_eq_iff (n : Number) (word : UInt32) :
    word.toUInt64 = n.toUInt64 ↔ n.toInt = word.toNat := by
  have hbounds : -2 ^ 63 ≤ n.toInt ∧ n.toInt < 2 ^ 64 := by
    cases n with
    | unsigned n => exact ⟨by show (-2 ^ 63 : Int) ≤ n.toNat; omega, Int.ofNat_lt.mpr n.toNat_lt⟩
    | signed n => exact ⟨n.le_toInt, Int.lt_trans n.toInt_lt (by decide)⟩
  have hpattern : (n.toUInt64.toNat : Int) = n.toInt % 2 ^ 64 := n.toNat_toUInt64
  have hword : word.toNat < 2 ^ 32 := word.toNat_lt
  rw [← UInt64.toNat_inj, UInt32.toNat_toUInt64]
  omega

namespace Reader

theorem length_of_read {r r' : Reader} {n : Nat} {bytes : List UInt8} (h : r.read n = .ok (bytes, r')) :
    bytes.length = n := by
  obtain ⟨rfl, -, -, hsize⟩ := read_eq_ok h
  rw [Buffer.length_window]
  omega

theorem isWidth_le {width : Nat} (h : isWidth width = true) : width ≤ 8 := by
  unfold isWidth at h
  simp only [Bool.or_eq_true, beq_iff_eq] at h
  omega

/-- An unsigned integer is the one that its bytes write. -/
theorem readUnsigned_exact {r r' : Reader} {width : Nat} {n : UInt64}
    (h : r.readUnsigned width = .ok (n, r')) :
    ∃ bytes, r.read width = .ok (bytes, r') ∧ n.toNat = r.byteOrder.value bytes := by
  obtain ⟨hw, bytes, hr, rfl⟩ := readUnsigned_eq_ok h
  refine ⟨bytes, hr, ?_⟩
  have hlen : bytes.length ≤ 8 := length_of_read hr ▸ isWidth_le hw
  exact UInt64.toNat_ofNat_of_lt' (r.byteOrder.value_lt_word hlen)

/-- A signed integer is the one that its bytes write. -/
theorem readSigned_exact {r r' : Reader} {width : Nat} {n : Int64}
    (h : r.readSigned width = .ok (n, r')) :
    ∃ bytes, r.read width = .ok (bytes, r') ∧ n.toInt = r.byteOrder.signedValue bytes := by
  obtain ⟨hw, bytes, hr, rfl⟩ := readSigned_eq_ok h
  refine ⟨bytes, hr, ?_⟩
  have hlen : bytes.length ≤ 8 := length_of_read hr ▸ isWidth_le hw
  obtain ⟨h1, h2⟩ := r.byteOrder.signedValue_bounds hlen
  exact Int64.toInt_ofInt_of_le h1 (Int.lt_of_le_of_lt h2 (by decide))

end Reader

end BinaryFormat
