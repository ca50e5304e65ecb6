import Mathlib.Data.Int.Log
import Mathlib.Data.Rat.Floor
import Mathlib.Tactic.FieldSimp

/-!
# Quotients as double-precision floats

The quotient of two integers as a `float` of 53 bits: the exact quotient is rounded to the nearest
float, ties to the even significand. Quotients of 64-bit integers are within the range of floats.

## Main definitions

* `roundEven x`: the integer nearest to `x`, ties to the even one
* `roundDouble x`: the float nearest to `x`

## Main results

* `roundDouble_natCast`: a natural number below `2 ^ 53` is a float
-/

namespace SetQL

/-- The integer nearest to `x`, ties to the even one. -/
def roundEven (x : ℚ) : ℤ :=
  if x - ⌊x⌋ < 1 / 2 ∨ x - ⌊x⌋ = 1 / 2 ∧ ⌊x⌋ % 2 = 0 then ⌊x⌋ else ⌊x⌋ + 1

/-- The float nearest to `x`, a multiple of the distance of the floats around it. -/
def roundDouble (x : ℚ) : ℚ := roundEven (x / 2 ^ (Int.log 2 x - 52)) * 2 ^ (Int.log 2 x - 52)

@[simp] theorem roundEven_intCast (z : ℤ) : roundEven z = z := by
  simp [roundEven]

/-- A natural number below `2 ^ 53` is a float. -/
theorem roundDouble_natCast {n : ℕ} (h : n < 2 ^ 53) : roundDouble n = n := by
  rcases Nat.eq_zero_or_pos n with rfl | hpos
  · simp [roundDouble, roundEven]
  have hlog : Nat.log 2 n ≤ 52 := Nat.lt_succ_iff.mp (Nat.log_lt_of_lt_pow hpos.ne' h)
  obtain ⟨k, hk⟩ := Nat.exists_eq_add_of_le hlog
  -- the number is a multiple of the distance, which is a power of two at most 1
  have hexp : Int.log 2 (n : ℚ) - 52 = -(k : ℤ) := by
    rw [Int.log_natCast]
    omega
  have hscaled : (n : ℚ) / 2 ^ (-(k : ℤ)) = ((n * 2 ^ k : ℕ) : ℤ) := by
    rw [zpow_neg, zpow_natCast]
    push_cast
    field_simp
  rw [roundDouble, hexp, hscaled, roundEven_intCast, zpow_neg, zpow_natCast]
  push_cast
  field_simp

end SetQL
