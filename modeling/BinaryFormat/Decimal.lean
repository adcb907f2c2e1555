/-!
# Decimal numbers

A number in decimal notation is a whole number scaled by a power of ten. Which binary64 number is nearest
to it is not needed here, only whether that one is finite: a number rounds to infinity as soon as it lies
half a unit or more above the greatest finite one. The exponent may be far out of proportion, so the
number of digits decides as long as it can. The main statement, `overflows_iff`, says that this changes
nothing.
-/

namespace BinaryFormat

/-- The number `digits * 10 ^ exponent`. -/
structure Decimal where
  /-- All digits, those behind the point included. -/
  digits : Nat
  /-- The power of ten that the last digit counts. -/
  exponent : Int
deriving DecidableEq, Repr

namespace Decimal

/-- The least number that rounds to infinity: half a unit above the greatest finite binary64 number. -/
def binary64Limit : Nat := 1 <<< 1024 - 1 <<< 970

/-- A power of ten. -/
def tenTo (n : Nat) : Nat := Nat.pow 10 n

theorem tenTo_add (m n : Nat) : tenTo (m + n) = tenTo m * tenTo n := Nat.pow_add 10 m n

theorem tenTo_pos (n : Nat) : 0 < tenTo n := Nat.pow_pos (by decide)

theorem tenTo_le {m n : Nat} (h : m ≤ n) : tenTo m ≤ tenTo n := Nat.pow_le_pow_right (by decide) h

/-- The number of digits in front of the point; the number lies below ten to that power. -/
def order (x : Decimal) : Int := (Nat.toDigits 10 x.digits).length + x.exponent

/-- Whether the nearest binary64 number is infinite. -/
def overflows (x : Decimal) : Bool :=
  x.digits != 0 &&
    (309 < x.order ||
      (x.order == 309 &&
        binary64Limit * tenTo (-x.exponent).toNat ≤ x.digits * tenTo x.exponent.toNat))

theorem binary64Limit_bounds : tenTo 308 ≤ binary64Limit ∧ binary64Limit ≤ tenTo 309 := by
  decide +kernel

theorem length_digits_pos (m : Nat) : 0 < (Nat.toDigits 10 m).length :=
  List.length_pos_iff.2 (by simp)

/-- A number with more than `d` digits reaches whatever is at most `tenTo d`. -/
theorem le_of_order_gt {m n a b d : Nat} (bound : n ≤ tenTo d) (nonzero : m ≠ 0)
    (large : d + b < (Nat.toDigits 10 m).length + a) : n * tenTo b ≤ m * tenTo a := by
  have lower : tenTo ((Nat.toDigits 10 m).length - 1) ≤ m := by
    by_cases one : (Nat.toDigits 10 m).length ≤ 1
    · rw [Nat.sub_eq_zero_of_le one]
      exact Nat.pos_of_ne_zero nonzero
    · refine Nat.le_of_not_lt fun lt => ?_
      have := (Nat.length_toDigits_le_iff (b := 10) (by decide) (by omega)).2 lt
      omega
  have positive := length_digits_pos m
  calc n * tenTo b ≤ tenTo d * tenTo b := Nat.mul_le_mul_right _ bound
    _ = tenTo (d + b) := (tenTo_add d b).symm
    _ ≤ tenTo ((Nat.toDigits 10 m).length - 1 + a) := tenTo_le (by omega)
    _ = tenTo ((Nat.toDigits 10 m).length - 1) * tenTo a := tenTo_add ..
    _ ≤ m * tenTo a := Nat.mul_le_mul_right _ lower

/-- A number with at most `d` digits stays below whatever is at least `tenTo d`. -/
theorem lt_of_order_le {m n a b d : Nat} (bound : tenTo d ≤ n)
    (small : (Nat.toDigits 10 m).length + a ≤ d + b) : m * tenTo a < n * tenTo b := by
  have upper : m < tenTo (Nat.toDigits 10 m).length :=
    (Nat.length_toDigits_le_iff (by decide) (length_digits_pos m)).1 (Nat.le_refl _)
  calc m * tenTo a < tenTo (Nat.toDigits 10 m).length * tenTo a :=
        Nat.mul_lt_mul_of_pos_right upper (tenTo_pos a)
    _ = tenTo ((Nat.toDigits 10 m).length + a) := (tenTo_add ..).symm
    _ ≤ tenTo (d + b) := tenTo_le small
    _ = tenTo d * tenTo b := tenTo_add d b
    _ ≤ n * tenTo b := Nat.mul_le_mul_right _ bound

/-- Counting the digits is only a short cut: a number overflows exactly when it reaches the limit. -/
theorem overflows_iff (x : Decimal) :
    x.overflows ↔ binary64Limit * tenTo (-x.exponent).toNat ≤ x.digits * tenTo x.exponent.toNat := by
  obtain ⟨m, e⟩ := x
  have ⟨least, greatest⟩ := binary64Limit_bounds
  simp only [overflows, Bool.and_eq_true, Bool.or_eq_true, bne_iff_ne, decide_eq_true_eq, beq_iff_eq]
  simp only [order]
  constructor
  · rintro ⟨nonzero, large | ⟨-, reached⟩⟩
    · exact le_of_order_gt greatest nonzero (by omega)
    · exact reached
  · intro reached
    -- A number with fewer digits than the limit is below it, so a number that reaches it has enough of them.
    have large : ¬ (Nat.toDigits 10 m).length + e.toNat ≤ 308 + (-e).toNat :=
      fun small => absurd (lt_of_order_le least small) (Nat.not_lt.2 reached)
    refine ⟨?_, ?_⟩
    · rintro rfl
      have positive : 0 < binary64Limit * tenTo (-e).toNat :=
        Nat.mul_pos (Nat.lt_of_lt_of_le (tenTo_pos 308) least) (tenTo_pos _)
      omega
    · by_cases equal : ((Nat.toDigits 10 m).length : Int) + e = 309
      · exact .inr ⟨equal, reached⟩
      · exact .inl (by omega)

end Decimal

end BinaryFormat
