import Mathlib.Data.Nat.Log
import Mathlib.Tactic.Ring
import Mathlib.Tactic.Linarith

/-!
# Natural numbers as single-precision floats

A natural number converted to `float` is rounded to a 24-bit significand, ties to even. Division
by a power of two is exact, and so is rounding up, so a size computed through `float` is the
rounded number divided upwards.

## Main definitions

* `roundSingle n`: the `float` nearest to `n`
* `mulTrunc c e n`: the product of `n` with the constant `c / 2 ^ e`, truncated
* `ceilDivSingle n d`: `n` over a power of two `d`, rounded up
* `LosesRest n d`: the residues of `n` that are rounded down to a whole number of blocks of `d`

## Main results

* `roundSingle_of_le`, `roundSingle_idem`: floats are rounded to themselves
* `le_roundSingle`: rounding loses at most one part in `2 ^ 24`
* `roundSingle_le_two_mul`: rounding at most doubles a number
* `lt_mulTrunc`: a product with a constant is at least the truncated exact product
* `ceilDivSingle_mul`: a count of blocks, converted back to a size, gives the same count
* `le_ceilDivSingle_mul_iff`: exactly when the counted blocks hold `n`
-/

namespace SetQL

/-- The distance between the floats around `n`. -/
def ulp (n : ℕ) : ℕ := 2 ^ (Nat.log 2 n - 23)

/-- The float nearest to `n`, ties to the even significand. -/
def roundSingle (n : ℕ) : ℕ :=
  if 2 * (n % ulp n) < ulp n ∨ 2 * (n % ulp n) = ulp n ∧ n / ulp n % 2 = 0 then
    n / ulp n * ulp n
  else (n / ulp n + 1) * ulp n

/-- The product of `n` with the float constant `c / 2 ^ e`, truncated to an integer. -/
def mulTrunc (c e n : ℕ) : ℕ := roundSingle (roundSingle n * c) / 2 ^ e

/-- The float nearest to `n` over `d`, rounded up. -/
def ceilDivSingle (n d : ℕ) : ℕ := (roundSingle n + (d - 1)) / d

/-- `n` is a whole number of blocks of `d`, at least as far apart as the floats around `n`, and a
rest that rounding leaves out. -/
def LosesRest (n d : ℕ) : Prop :=
  0 < n % max (ulp n) d ∧ (2 * (n % max (ulp n) d) < ulp n ∨
    2 * (n % max (ulp n) d) = ulp n ∧ n / ulp n % 2 = 0)

theorem ulp_pos (n : ℕ) : 0 < ulp n := Nat.two_pow_pos _

theorem ulp_of_lt {n : ℕ} (h : n < 2 ^ 24) : ulp n = 1 := by
  have hlog : Nat.log 2 n < 24 := Nat.log_lt_of_lt_pow' (by decide) h
  simp [ulp, show Nat.log 2 n - 23 = 0 by omega]

/-- A number of more than 24 bits is at least `2 ^ 23` times the distance of its floats. -/
theorem ulp_mul_le {n : ℕ} (h : 2 ^ 24 ≤ n) : ulp n * 2 ^ 23 ≤ n := by
  have hlog : 24 ≤ Nat.log 2 n := Nat.le_log_of_pow_le (by decide) h
  calc ulp n * 2 ^ 23 = 2 ^ Nat.log 2 n := by
        rw [ulp, ← pow_add, show Nat.log 2 n - 23 + 23 = Nat.log 2 n by omega]
    _ ≤ n := Nat.pow_log_le_self 2 (by omega)

/-- The significand has 24 bits. -/
theorem div_ulp_lt (n : ℕ) : n / ulp n < 2 ^ 24 := by
  by_cases h : n < 2 ^ 24
  · rw [ulp_of_lt h, Nat.div_one]
    exact h
  · have hlog : 24 ≤ Nat.log 2 n := Nat.le_log_of_pow_le (by decide) (Nat.not_lt.mp h)
    rw [Nat.div_lt_iff_lt_mul (ulp_pos n), ulp, ← pow_add,
      show 24 + (Nat.log 2 n - 23) = Nat.log 2 n + 1 by omega]
    exact Nat.lt_pow_succ_log_self (by decide) n

theorem roundSingle_of_dvd {n : ℕ} (h : ulp n ∣ n) : roundSingle n = n := by
  rw [roundSingle, Nat.mod_eq_zero_of_dvd h, if_pos (Or.inl (by simpa using ulp_pos n)),
    Nat.div_mul_cancel h]

/-- A number with a 24-bit significand is a float. -/
theorem ulp_dvd_of_mul_pow {q k : ℕ} (hq : q ≤ 2 ^ 24) : ulp (q * 2 ^ k) ∣ q * 2 ^ k := by
  rcases hq.eq_or_lt with rfl | hq
  · rw [← pow_add, ulp, Nat.log_pow (by decide)]
    exact pow_dvd_pow 2 (by omega)
  · have hlog : Nat.log 2 (q * 2 ^ k) < 24 + k :=
      Nat.log_lt_of_lt_pow' (by omega) (by
        rw [pow_add]
        exact Nat.mul_lt_mul_of_pos_right hq (Nat.two_pow_pos k))
    exact Dvd.dvd.mul_left (pow_dvd_pow 2 (by omega)) q

theorem roundSingle_mul_pow {q k : ℕ} (hq : q ≤ 2 ^ 24) : roundSingle (q * 2 ^ k) = q * 2 ^ k :=
  roundSingle_of_dvd (ulp_dvd_of_mul_pow hq)

theorem roundSingle_of_le {n : ℕ} (h : n ≤ 2 ^ 24) : roundSingle n = n := by
  simpa using roundSingle_mul_pow (k := 0) h

/-- A rounded number is a 24-bit significand times the distance of the floats around it. -/
theorem roundSingle_eq_mul (n : ℕ) : ∃ q ≤ 2 ^ 24, roundSingle n = q * ulp n := by
  have hq := div_ulp_lt n
  unfold roundSingle
  split
  · exact ⟨_, hq.le, rfl⟩
  · exact ⟨_, hq, rfl⟩

/-- Rounding a float does nothing. -/
theorem roundSingle_idem (n : ℕ) : roundSingle (roundSingle n) = roundSingle n := by
  obtain ⟨q, hq, h⟩ := roundSingle_eq_mul n
  rw [h, ulp]
  exact roundSingle_mul_pow hq

/-- Rounding moves a number by at most half the distance of the floats around it. -/
theorem roundSingle_error (n : ℕ) :
    2 * n ≤ 2 * roundSingle n + ulp n ∧ 2 * roundSingle n ≤ 2 * n + ulp n := by
  have hdiv := Nat.div_add_mod n (ulp n)
  have hmod := Nat.mod_lt n (ulp_pos n)
  rw [Nat.mul_comm] at hdiv
  unfold roundSingle
  split
  · omega
  · have hsucc : (n / ulp n + 1) * ulp n = n / ulp n * ulp n + ulp n := Nat.succ_mul _ _
    omega

/-- Rounding at most doubles a number. -/
theorem roundSingle_le_two_mul (n : ℕ) : roundSingle n ≤ 2 * n := by
  rcases Nat.eq_zero_or_pos n with rfl | hpos
  · rw [roundSingle_of_le (Nat.zero_le _)]
  · have hulp : ulp n ≤ n := (Nat.pow_le_pow_right (by decide) (Nat.sub_le _ _)).trans
      (Nat.pow_log_le_self 2 hpos.ne')
    have := (roundSingle_error n).2
    omega

/-- Rounding loses at most one part in `2 ^ 24`. -/
theorem le_roundSingle (n : ℕ) : n * (2 ^ 24 - 1) ≤ roundSingle n * 2 ^ 24 := by
  by_cases h : n ≤ 2 ^ 24
  · rw [roundSingle_of_le h]
    exact Nat.mul_le_mul_left _ (by decide)
  · have h₁ := ulp_mul_le (Nat.le_of_not_le h)
    have h₂ := (roundSingle_error n).1
    rw [Nat.mul_sub, Nat.sub_le_iff_le_add, Nat.mul_one]
    linarith

/-- The truncated product with a float constant above `p / q` is at least `p / q` times its
factor. -/
theorem lt_mulTrunc {c e p q : ℕ} (hq : 0 < q) (hc : p * (2 ^ e * 2 ^ 48) ≤ q * (c * (2 ^ 24 - 1) ^ 2))
    (n : ℕ) : p * n < q * (mulTrunc c e n + 1) := by
  have h₁ := le_roundSingle n
  have h₂ := le_roundSingle (roundSingle n * c)
  set x := roundSingle (roundSingle n * c) with hx
  have htrunc : x < 2 ^ e * (x / 2 ^ e + 1) := Nat.lt_mul_div_succ x (Nat.two_pow_pos e)
  have h₃ : p * n * (2 ^ e * 2 ^ 48) ≤ q * x * 2 ^ 48 :=
    calc p * n * (2 ^ e * 2 ^ 48) = n * (p * (2 ^ e * 2 ^ 48)) := by ring
      _ ≤ n * (q * (c * (2 ^ 24 - 1) ^ 2)) := Nat.mul_le_mul_left _ hc
      _ = q * (n * (2 ^ 24 - 1) * (c * (2 ^ 24 - 1))) := by ring
      _ ≤ q * (roundSingle n * 2 ^ 24 * (c * (2 ^ 24 - 1))) :=
        Nat.mul_le_mul_left _ (Nat.mul_le_mul_right _ h₁)
      _ = q * (roundSingle n * c * (2 ^ 24 - 1) * 2 ^ 24) := by ring
      _ ≤ q * (x * 2 ^ 24 * 2 ^ 24) := Nat.mul_le_mul_left _ (Nat.mul_le_mul_right _ h₂)
      _ = q * x * 2 ^ 48 := by ring
  refine Nat.lt_of_mul_lt_mul_right (a := 2 ^ e * 2 ^ 48) (h₃.trans_lt ?_)
  calc q * x * 2 ^ 48 < q * (2 ^ e * (x / 2 ^ e + 1)) * 2 ^ 48 :=
        Nat.mul_lt_mul_of_pos_right (Nat.mul_lt_mul_of_pos_left htrunc hq) (Nat.two_pow_pos 48)
    _ = q * (mulTrunc c e n + 1) * (2 ^ e * 2 ^ 48) := by rw [mulTrunc, ← hx]; ring

/-- A size below `2 ^ 24` is computed exactly: the blocks hold it. -/
theorem le_ceilDivSingle_mul {n d : ℕ} (h : n ≤ 2 ^ 24) (hd : 0 < d) :
    n ≤ d * ceilDivSingle n d := by
  rw [ceilDivSingle, roundSingle_of_le h]
  have hdiv := Nat.div_add_mod (n + (d - 1)) d
  have hmod := Nat.mod_lt (n + (d - 1)) hd
  omega

/-- **Counting is stable**: the size of a whole number of blocks, computed from a size through
`float`, has the same number of blocks. -/
theorem ceilDivSingle_mul (n k : ℕ) :
    ceilDivSingle (2 ^ k * ceilDivSingle n (2 ^ k)) (2 ^ k) = ceilDivSingle n (2 ^ k) := by
  obtain ⟨q, hq, hr⟩ := roundSingle_eq_mul n
  have hpos : 0 < 2 ^ k := Nat.two_pow_pos k
  have hround : roundSingle (2 ^ k * ceilDivSingle n (2 ^ k)) = 2 ^ k * ceilDivSingle n (2 ^ k) := by
    by_cases hk : k ≤ Nat.log 2 n - 23
    · have hdvd : 2 ^ k ∣ roundSingle n := hr ▸ (pow_dvd_pow 2 hk).mul_left q
      obtain ⟨w, hw⟩ := hdvd
      have : ceilDivSingle n (2 ^ k) = w := by
        rw [ceilDivSingle, hw, Nat.mul_add_div hpos, Nat.div_eq_of_lt (by omega), Nat.add_zero]
      rw [this, ← hw, roundSingle_idem]
    · have hle : roundSingle n ≤ 2 ^ 24 * 2 ^ k := by
        rw [hr]
        exact Nat.mul_le_mul hq (Nat.pow_le_pow_right (by decide) (by omega))
      have hw : ceilDivSingle n (2 ^ k) ≤ 2 ^ 24 := by
        rw [ceilDivSingle, Nat.div_le_iff_le_mul_add_pred hpos, Nat.mul_comm]
        omega
      rw [Nat.mul_comm, roundSingle_mul_pow hw]
  rw [ceilDivSingle, hround, Nat.mul_add_div hpos, Nat.div_eq_of_lt (by omega), Nat.add_zero]

theorem roundSingle_of_down {n : ℕ}
    (h : 2 * (n % ulp n) < ulp n ∨ 2 * (n % ulp n) = ulp n ∧ n / ulp n % 2 = 0) :
    roundSingle n = n / ulp n * ulp n := if_pos h

/-- A number is rounded down when it is nearer to the float below, or between an even one and the
next. -/
theorem roundSingle_lt_iff (n : ℕ) : roundSingle n < n ↔
    0 < n % ulp n ∧ (2 * (n % ulp n) < ulp n ∨ 2 * (n % ulp n) = ulp n ∧ n / ulp n % 2 = 0) := by
  have hdiv := Nat.div_add_mod' n (ulp n)
  have hmod := Nat.mod_lt n (ulp_pos n)
  by_cases h : 2 * (n % ulp n) < ulp n ∨ 2 * (n % ulp n) = ulp n ∧ n / ulp n % 2 = 0
  · rw [roundSingle_of_down h]
    exact ⟨fun hlt => ⟨by omega, h⟩, fun hpos => by omega⟩
  · have hup : roundSingle n = n / ulp n * ulp n + ulp n :=
      (if_neg h).trans (Nat.succ_mul _ _)
    exact ⟨fun hlt => by omega, fun hpos => absurd hpos.2 h⟩

theorem ulp_dvd_roundSingle (n : ℕ) : ulp n ∣ roundSingle n := by
  obtain ⟨q, -, h⟩ := roundSingle_eq_mul n
  exact h ▸ Nat.dvd_mul_left _ _

/-- The blocks do not hold `n` when the nearest float is below `n` and a whole number of blocks. -/
theorem ceilDivSingle_mul_lt_iff (n k : ℕ) : 2 ^ k * ceilDivSingle n (2 ^ k) < n ↔
    roundSingle n < n ∧ 2 ^ k ∣ roundSingle n := by
  have hpos : 0 < 2 ^ k := Nat.two_pow_pos k
  have hceil : roundSingle n ≤ 2 ^ k * ceilDivSingle n (2 ^ k) := by
    have hdiv := Nat.div_add_mod (roundSingle n + (2 ^ k - 1)) (2 ^ k)
    have hmod := Nat.mod_lt (roundSingle n + (2 ^ k - 1)) hpos
    rw [ceilDivSingle]
    omega
  constructor
  · intro hlt
    have hround := hceil.trans_lt hlt
    refine ⟨hround, ?_⟩
    rcases Nat.le_total k (Nat.log 2 n - 23) with hk | hk
    · exact (pow_dvd_pow 2 hk).trans (ulp_dvd_roundSingle n)
    · -- both are multiples of the distance of the floats, and `n` is less than one away
      have hdvd : ulp n ∣ 2 ^ k * ceilDivSingle n (2 ^ k) := (pow_dvd_pow 2 hk).mul_right _
      have hdown := ((roundSingle_lt_iff n).mp hround).2
      have hmod := Nat.mod_lt n (ulp_pos n)
      have hdiv := Nat.div_add_mod' n (ulp n)
      obtain ⟨p, hp⟩ := hdvd
      have hq : p = n / ulp n := by
        apply Nat.le_antisymm
        · rw [Nat.le_div_iff_mul_le (ulp_pos n), Nat.mul_comm, ← hp]
          exact hlt.le
        · rw [roundSingle_of_down hdown, hp, Nat.mul_comm] at hceil
          exact Nat.le_of_mul_le_mul_left hceil (ulp_pos n)
      rw [roundSingle_of_down hdown, ← hq, Nat.mul_comm, ← hp]
      exact Nat.dvd_mul_right _ _
  · rintro ⟨hround, w, hw⟩
    have : ceilDivSingle n (2 ^ k) = w := by
      rw [ceilDivSingle, hw, Nat.mul_add_div hpos, Nat.div_eq_of_lt (by omega), Nat.add_zero]
    rw [this, ← hw]
    exact hround

/-- **The blocks hold `n`** unless its nearest float leaves out a rest past the last block. -/
theorem le_ceilDivSingle_mul_iff (n k : ℕ) :
    n ≤ 2 ^ k * ceilDivSingle n (2 ^ k) ↔ ¬ LosesRest n (2 ^ k) := by
  rw [← Nat.not_lt, not_iff_not, ceilDivSingle_mul_lt_iff, roundSingle_lt_iff]
  have hdiv := Nat.div_add_mod' n (ulp n)
  have hmod := Nat.mod_lt n (ulp_pos n)
  unfold LosesRest
  rcases Nat.le_total k (Nat.log 2 n - 23) with hk | hk
  · -- every float around `n` is a whole number of blocks
    have hmax : max (ulp n) (2 ^ k) = ulp n := max_eq_left (Nat.pow_le_pow_right (by decide) hk)
    rw [hmax]
    exact and_iff_left ((pow_dvd_pow 2 hk).trans (ulp_dvd_roundSingle n))
  · have hmax : max (ulp n) (2 ^ k) = 2 ^ k := max_eq_right (Nat.pow_le_pow_right (by decide) hk)
    have hle : ulp n ≤ 2 ^ k := Nat.pow_le_pow_right (by decide) hk
    have hdvd : ulp n ∣ 2 ^ k := pow_dvd_pow 2 hk
    have hrest : n % 2 ^ k % ulp n = n % ulp n := Nat.mod_mod_of_dvd n hdvd
    rw [hmax]
    constructor
    · rintro ⟨⟨hpos, hdown⟩, hblock⟩
      have heq : n % 2 ^ k = n % ulp n := by
        rw [roundSingle_of_down hdown] at hblock
        obtain ⟨w, hw⟩ := hblock
        rw [hw] at hdiv
        conv_lhs => rw [← hdiv]
        rw [Nat.mul_add_mod, Nat.mod_eq_of_lt (hmod.trans_le hle)]
      rw [heq]
      exact ⟨hpos, hdown⟩
    · rintro ⟨hpos, hdown⟩
      have heq : n % 2 ^ k = n % ulp n := by
        have hhalf : 2 * (n % 2 ^ k) ≤ ulp n := hdown.elim Nat.le_of_lt fun heq => heq.1.le
        have hlt : n % 2 ^ k < ulp n := by omega
        rw [← hrest, Nat.mod_eq_of_lt hlt]
      rw [heq] at hpos hdown
      refine ⟨⟨hpos, hdown⟩, ?_⟩
      have hblock := Nat.div_add_mod' n (2 ^ k)
      have : n / ulp n * ulp n = n / 2 ^ k * 2 ^ k := by omega
      rw [roundSingle_of_down hdown, this]
      exact Nat.dvd_mul_left _ _

end SetQL
