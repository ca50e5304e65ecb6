import SetQL.DataStructures.Bitset

/-!
# Sizes of bitsets

The number of words of a bitset is computed through `float`, which is inexact above `2 ^ 24` bits,
and the operators pass the number of bits of those words on as an `int`.

## Main definitions

* `bitsetCreate`: a bitset in a block of its own
* `Bitset.Keeps`: the operators allocate as many words as their operands have
* `Bitset.Sufficient`: the words of a new bitset hold its bits, and the operators keep their number

## Main results

* `keeps_iff`: the operators keep every count of fewer than `2 ^ 31` bits
* `words_lt_iff`: the sizes whose words have fewer than `2 ^ 31` bits
* `sufficient_iff`: the sizes for which the words suffice
-/

namespace SetQL

/-- A new bitset of `size` bits, with every byte set to the default value. -/
def bitsetCreate (size : ℤ) (defaultValue : UInt8) : C Bitset := do
  let n ← allocWords size
  return ⟨List.replicate n (defaultValue.toBitVec.replicate 8)⟩

/-- The operators on two bitsets. -/
def binaryOperators : List (Bitset → Bitset → C Bitset) :=
  [bitsetUnion, bitsetIntersection, bitsetDifference, bitsetSymmetricDifference]

namespace Bitset

variable {b : Bitset} {n size : ℕ} {defaultValue : UInt8}

/-- The operators on bitsets of `n` words return bitsets of `n` words. -/
def Keeps (n : ℕ) : Prop :=
  (∀ b : Bitset, b.integerCount = n → ∃ c, bitsetComplement b = .ok c ∧ c.integerCount = n) ∧
    ∀ op ∈ binaryOperators, ∀ b1 b2 : Bitset, b1.integerCount = n → b2.integerCount = n →
      ∃ c, op b1 b2 = .ok c ∧ c.integerCount = n

/-- A new bitset of `size` bits has words for all of them, and the operators keep their number. -/
def Sufficient (size : ℕ) (defaultValue : UInt8) : Prop :=
  ∃ b, bitsetInitialize size defaultValue = .ok b ∧ bitsetCreate size defaultValue = .ok b ∧
    size ≤ 64 * b.integerCount ∧ Keeps b.integerCount ∧
    ∀ bit < size, ∃ c, bitsetSetBit b bit = .ok c

theorem bitsetInitialize_natCast (size : ℕ) (defaultValue : UInt8) :
    bitsetInitialize size defaultValue =
      .ok ⟨List.replicate (ceilDivSingle size 64) (defaultValue.toBitVec.replicate 8)⟩ := by
  rw [bitsetInitialize, allocWords, if_pos (Int.natCast_nonneg _), ok_bind, Int.toNat_natCast,
    integerBitSize]
  rfl

/-! ## The operators -/

/-- A size of `2 ^ 31` bits or a little more is negative as an `int`. -/
theorem allocWords_of_ge (hge : 2 ^ 31 ≤ n) (hlt : n < 2 ^ 32) :
    allocWords (toInt n) = .error .nullDeref := by
  have hneg : toInt n < 0 := by
    rw [toInt, Nat.mod_eq_of_lt hlt, if_neg (Nat.not_lt.mpr hge)]
    omega
  rw [allocWords, if_neg (Int.not_le.mpr hneg)]

theorem exists_zip (h : Stable n) (f : Word → Word → Word) {b1 b2 : Bitset}
    (h1 : b1.integerCount = n) (h2 : b2.integerCount = n) :
    ∃ c, bitsetZip f b1 b2 = .ok c ∧ c.integerCount = n := by
  refine ⟨_, bitsetZip_eq_ok f (h1 ▸ h) (h2.trans h1.symm), ?_⟩
  rw [integerCount, List.length_zipWith]
  exact (congrArg₂ min h1 h2).trans (min_self n)

/-- **The operators keep a count** exactly when its number of bits is an `int`. -/
theorem keeps_iff (hlt : 64 * n < 2 ^ 32) (hround : ceilDivSingle (64 * n) 64 = n) :
    Keeps n ↔ 64 * n < 2 ^ 31 := by
  constructor
  · intro hkeeps
    by_contra hge
    obtain ⟨c, hc, -⟩ := hkeeps.1 ⟨List.replicate n 0⟩ List.length_replicate
    have hcount : (⟨List.replicate n 0⟩ : Bitset).integerCount = n := List.length_replicate
    rw [bitsetComplement, hcount, integerBitSize, Nat.mul_comm,
      allocWords_of_ge (Nat.not_lt.mp hge) hlt] at hc
    cases hc
  · intro hlt
    have hstable : Stable n := ⟨hlt, hround⟩
    refine ⟨fun b hb => ⟨_, bitsetComplement_eq_ok (hb ▸ hstable), ?_⟩, ?_⟩
    · rw [integerCount, List.length_map]
      exact hb
    · intro op hop b1 b2 h1 h2
      simp only [binaryOperators, List.mem_cons, List.not_mem_nil, or_false] at hop
      rcases hop with rfl | rfl | rfl | rfl <;> exact exists_zip hstable _ h1 h2

/-! ## The sizes -/

theorem ulp_of_top (hge : 2 ^ 30 ≤ size) (hlt : size < 2 ^ 31) : ulp size = 128 := by
  have hlog : Nat.log 2 size = 30 := Nat.log_eq_of_pow_le_of_lt_pow hge hlt
  rw [ulp, hlog]
  rfl

/-- The words of an `int` size have fewer than `2 ^ 32` bits. -/
theorem words_lt (hlt : size < 2 ^ 31) : 64 * ceilDivSingle size 64 < 2 ^ 32 := by
  have hround : roundSingle size ≤ 2 ^ 31 + 128 := by
    by_cases hs : size ≤ 2 ^ 24
    · rw [roundSingle_of_le hs]
      omega
    · have h₁ := ulp_mul_le (Nat.le_of_not_le hs)
      have h₂ := (roundSingle_error size).2
      omega
  have hdiv := Nat.div_mul_le_self (roundSingle size + (64 - 1)) 64
  unfold ceilDivSingle
  omega

/-- The words of a size have fewer than `2 ^ 31` bits up to the last tie before `2 ^ 31`. -/
theorem words_lt_iff (hlt : size < 2 ^ 31) :
    64 * ceilDivSingle size 64 < 2 ^ 31 ↔ size < 2 ^ 31 - 64 := by
  by_cases htop : size < 2 ^ 30
  · have hle : size ≤ 2 ^ 31 - 2 ^ 20 := by omega
    have hstable := (stable_ceilDivSingle hle).1
    exact ⟨fun _ => by omega, fun _ => hstable⟩
  · -- the floats are 128 apart, and the last tie is rounded up to `2 ^ 31`
    have hulp := ulp_of_top (Nat.not_lt.mp htop) hlt
    have hround : roundSingle size =
        if 2 * (size % 128) < 128 ∨ 2 * (size % 128) = 128 ∧ size / 128 % 2 = 0 then
          size / 128 * 128 else (size / 128 + 1) * 128 := by
      rw [roundSingle, hulp]
    unfold ceilDivSingle
    rw [hround]
    split
    · omega
    · omega

/-- The words computed for the size hold it and are kept. -/
theorem Sufficient.words (h : Sufficient size defaultValue) :
    size ≤ 64 * ceilDivSingle size 64 ∧ Keeps (ceilDivSingle size 64) := by
  obtain ⟨b, hb, -, hsize, hkeeps, -⟩ := h
  obtain rfl := Except.ok.inj ((bitsetInitialize_natCast size defaultValue).symm.trans hb)
  rw [integerCount, List.length_replicate] at hsize hkeeps
  exact ⟨hsize, hkeeps⟩

/-- **The words of a size suffice**, and the operators keep their number, exactly for the sizes
whose rest is not rounded away and whose words have fewer than `2 ^ 31` bits. -/
theorem sufficient_iff (hlt : size < 2 ^ 31) (defaultValue : UInt8) :
    Sufficient size defaultValue ↔ ¬ LosesRest size 64 ∧ size < 2 ^ 31 - 64 := by
  have hcount : (⟨List.replicate (ceilDivSingle size 64)
      (defaultValue.toBitVec.replicate 8)⟩ : Bitset).integerCount = ceilDivSingle size 64 :=
    List.length_replicate
  have hhold := le_ceilDivSingle_mul_iff size 6
  have hstable : ceilDivSingle (64 * ceilDivSingle size 64) 64 = ceilDivSingle size 64 :=
    ceilDivSingle_mul size 6
  have hwords := words_lt hlt
  constructor
  · intro h
    obtain ⟨hsize, hkeeps⟩ := h.words
    exact ⟨hhold.mp hsize, (words_lt_iff hlt).mp ((keeps_iff hwords hstable).mp hkeeps)⟩
  · rintro ⟨hrest, htop⟩
    have hsize : size ≤ 64 * ceilDivSingle size 64 := hhold.mpr hrest
    refine ⟨_, bitsetInitialize_natCast size defaultValue,
      bitsetInitialize_natCast size defaultValue, ?_, ?_, ?_⟩
    · rwa [hcount]
    · rw [hcount]
      exact (keeps_iff hwords hstable).mpr ((words_lt_iff hlt).mpr htop)
    · intro bit hbit
      obtain ⟨c, hc, -⟩ := bitsetSetBit_eq_ok (k := bit) (hbit.trans_le (hcount ▸ hsize))
      exact ⟨c, hc⟩

/-- A size above `2 ^ 24` that is a float. -/
theorem sufficient_iff_float : Sufficient (2 ^ 24 + 2) 0 := by
  have hlog : Nat.log 2 (2 ^ 24 + 2) = 24 := Nat.log_eq_of_pow_le_of_lt_pow (by decide) (by decide)
  refine (sufficient_iff (by decide) 0).mpr ⟨?_, by decide⟩
  rw [LosesRest, ulp, hlog]
  decide

/-- The size `2 ^ 24 + 1` gets words for `2 ^ 24` bits, and the words of `2 ^ 31 - 64` bits are too
many for the complement. -/
theorem not_sufficient : ¬ Sufficient (2 ^ 24 + 1) 0 ∧ ¬ Sufficient (2 ^ 31 - 64) 0 := by
  have hlog : Nat.log 2 (2 ^ 24 + 1) = 24 := Nat.log_eq_of_pow_le_of_lt_pow (by decide) (by decide)
  have hfloat : ceilDivSingle (2 ^ 24 + 1) 64 = 2 ^ 18 := by
    rw [ceilDivSingle, roundSingle, ulp, hlog]
    decide
  have htop : ceilDivSingle (2 ^ 31 - 64) 64 = 2 ^ 25 := by
    rw [ceilDivSingle, roundSingle, ulp_of_top (by decide) (by decide)]
    decide
  refine ⟨fun h => ?_, fun h => ?_⟩
  · have hsize := h.words.1
    rw [hfloat] at hsize
    exact absurd hsize (by decide)
  · have hkeeps := h.words.2
    have hstable : ceilDivSingle (64 * 2 ^ 25) 64 = 2 ^ 25 := by
      rw [← htop]
      exact ceilDivSingle_mul _ 6
    rw [htop] at hkeeps
    exact absurd ((keeps_iff (by decide) hstable).mp hkeeps) (by decide)

end Bitset

end SetQL
