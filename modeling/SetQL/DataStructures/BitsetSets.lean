import SetQL.DataStructures.Bitset
import Mathlib.Order.SymmDiff
import Mathlib.Data.Set.SymmDiff

/-!
# Bitsets as sets

A bitset denotes the set of the indices of its 1 bits. The binary operators combine the words that
both operands have, so they denote the operations on sets up to the end of the shorter operand.

## Main definitions

* `Bitset.members`: the indices of the 1 bits
* `Bitset.Within`: a bitset has no 1 bit past the end of another
* `Denotes`: a computation returns a bitset of the given members

## Main results

* `denotes_zip`: when a binary operator denotes the operation on sets of its Boolean operator
* `denotes_intersection`, `denotes_union_iff`, `denotes_difference_iff`,
  `denotes_symmetricDifference_iff`: the four operators
* `operators_denote_iff`: when all four denote their operations
-/

namespace SetQL

namespace Bitset

/-- The indices of the 1 bits. -/
def members (b : Bitset) : Set ℕ := {i | b.bit i = true}

/-- No 1 bit lies past the end of `other`. -/
def Within (b other : Bitset) : Prop := ∀ i ∈ b.members, i < 64 * other.integerCount

end Bitset

/-- The computation returns a bitset with these members. -/
def Denotes (r : C Bitset) (s : Set ℕ) : Prop := ∃ b, r = .ok b ∧ b.members = s

namespace Bitset

variable {b b1 b2 : Bitset} {i n : ℕ}

@[simp] theorem mem_members : i ∈ b.members ↔ b.bit i = true := Iff.rfl

theorem within_self (b : Bitset) : b.Within b := by
  intro i hi
  by_contra hge
  rw [mem_members, bit_of_le (Nat.not_lt.mp hge)] at hi
  cases hi

/-- The members of both lie before both ends, so those of one alone decide. -/
theorem within_of_alone
    (h : ∀ i, b1.bit i = true → b2.bit i = false → i < 64 * b2.integerCount) : b1.Within b2 := by
  intro i hi
  cases h2 : b2.bit i with
  | true => exact within_self b2 i h2
  | false => exact h i hi h2

/-- The counts for which the size computation is exact. -/
theorem stable_of_le (h : n ≤ 2 ^ 18) : Stable n := by
  have hround : roundSingle (64 * n) = 64 * n := roundSingle_of_le (by omega)
  refine ⟨by omega, ?_⟩
  rw [ceilDivSingle, hround]
  omega

section Operators

variable {f : Word → Word → Word} {g : Bool → Bool → Bool}
  (hf : ∀ (w1 w2 : Word) (j : ℕ), j < 64 → (f w1 w2).getLsbD j = g (w1.getLsbD j) (w2.getLsbD j))

include hf

/-- The result of a binary operator holds what lies before the end of the shorter operand. -/
theorem members_zipWith : (⟨List.zipWith f b1.bits b2.bits⟩ : Bitset).members =
    {i | i < 64 * min b1.integerCount b2.integerCount ∧ g (b1.bit i) (b2.bit i) = true} := by
  ext i
  rw [mem_members, Set.mem_ofPred_eq]
  rcases Nat.lt_or_ge i (64 * min b1.integerCount b2.integerCount) with hi | hi
  · rw [bit_zipWith hf hi]
    exact (and_iff_right hi).symm
  · have hlen : 64 * (⟨List.zipWith f b1.bits b2.bits⟩ : Bitset).integerCount ≤ i := by
      rw [integerCount, List.length_zipWith]
      exact hi
    rw [bit_of_le hlen]
    exact iff_of_false Bool.false_ne_true fun h => absurd h.1 (Nat.not_lt.mpr hi)

/-- **A binary operator denotes its operation on sets** when the result of the operation lies
before the ends of both operands. -/
theorem denotes_zip (h : Stable (min b1.integerCount b2.integerCount)) :
    Denotes (bitsetZip f b1 b2) {i | g (b1.bit i) (b2.bit i) = true} ↔
      ∀ i, g (b1.bit i) (b2.bit i) = true →
        i < 64 * b1.integerCount ∧ i < 64 * b2.integerCount := by
  rw [bitsetZip_of_stable f h]
  constructor
  · rintro ⟨c, hc, hmembers⟩ i hi
    obtain rfl := Except.ok.inj hc
    have hmem : i ∈ {i | g (b1.bit i) (b2.bit i) = true} := hi
    rw [← hmembers, members_zipWith hf] at hmem
    exact ⟨hmem.1.trans_le (Nat.mul_le_mul_left 64 (min_le_left _ _)),
      hmem.1.trans_le (Nat.mul_le_mul_left 64 (min_le_right _ _))⟩
  · intro hlt
    refine ⟨_, rfl, ?_⟩
    rw [members_zipWith hf]
    ext i
    refine and_iff_right_of_imp fun hi => ?_
    obtain ⟨h1, h2⟩ := hlt i hi
    rcases min_choice b1.integerCount b2.integerCount with hmin | hmin
    · rwa [hmin]
    · rwa [hmin]

end Operators

variable (h : Stable (min b1.integerCount b2.integerCount))

include h

/-- The intersection is exact: a common member lies before both ends. -/
theorem denotes_intersection :
    Denotes (bitsetIntersection b1 b2) (b1.members ∩ b2.members) := by
  have hset : b1.members ∩ b2.members = {i | (b1.bit i && b2.bit i) = true} := by
    ext i
    simp
  rw [hset]
  refine (denotes_zip (fun w1 w2 j _ => BitVec.getLsbD_and) h).mpr ?_
  intro i hi
  obtain ⟨h1, h2⟩ := Bool.and_eq_true_iff.mp hi
  exact ⟨within_self b1 i h1, within_self b2 i h2⟩

/-- The union is exact when neither operand has a bit past the end of the other. -/
theorem denotes_union_iff : Denotes (bitsetUnion b1 b2) (b1.members ∪ b2.members) ↔
    b1.Within b2 ∧ b2.Within b1 := by
  have hset : b1.members ∪ b2.members = {i | (b1.bit i || b2.bit i) = true} := by
    ext i
    simp
  rw [hset]
  refine (denotes_zip (fun w1 w2 j _ => BitVec.getLsbD_or) h).trans ?_
  constructor
  · intro hlt
    exact ⟨fun i hi => (hlt i (Bool.or_eq_true_iff.mpr (Or.inl hi))).2,
      fun i hi => (hlt i (Bool.or_eq_true_iff.mpr (Or.inr hi))).1⟩
  · rintro ⟨h12, h21⟩ i hi
    rcases Bool.or_eq_true_iff.mp hi with hi | hi
    · exact ⟨within_self b1 i hi, h12 i hi⟩
    · exact ⟨h21 i hi, within_self b2 i hi⟩

/-- The difference is exact when the first operand has no bit past the end of the second. -/
theorem denotes_difference_iff :
    Denotes (bitsetDifference b1 b2) (b1.members \ b2.members) ↔ b1.Within b2 := by
  have hset : b1.members \ b2.members = {i | (b1.bit i && !b2.bit i) = true} := by
    ext i
    simp
  rw [hset]
  have hword : ∀ (w1 w2 : Word) (j : ℕ), j < 64 →
      (w1 &&& ~~~w2).getLsbD j = (w1.getLsbD j && !w2.getLsbD j) := by
    intro w1 w2 j hj
    rw [BitVec.getLsbD_and, BitVec.getLsbD_not, decide_eq_true hj, Bool.true_and]
  refine (denotes_zip (g := fun x y => x && !y) hword h).trans ?_
  constructor
  · intro hlt
    refine within_of_alone fun i h1 h2 => (hlt i ?_).2
    rw [h1, h2]
    rfl
  · intro h12 i hi
    have h1 : b1.bit i = true := (Bool.and_eq_true_iff.mp hi).1
    exact ⟨within_self b1 i h1, h12 i h1⟩

/-- The symmetric difference is exact when neither operand has a bit past the end of the other. -/
theorem denotes_symmetricDifference_iff :
    Denotes (bitsetSymmetricDifference b1 b2) (symmDiff b1.members b2.members) ↔
      b1.Within b2 ∧ b2.Within b1 := by
  have hset : symmDiff b1.members b2.members = {i | (b1.bit i ^^ b2.bit i) = true} := by
    ext i
    rw [Set.mem_symmDiff]
    cases h1 : b1.bit i <;> cases h2 : b2.bit i <;> simp [h1, h2]
  rw [hset]
  refine (denotes_zip (fun w1 w2 j _ => BitVec.getLsbD_xor) h).trans ?_
  constructor
  · intro hlt
    refine ⟨within_of_alone fun i h1 h2 => (hlt i ?_).2,
      within_of_alone fun i h2 h1 => (hlt i ?_).1⟩
    · rw [h1, h2]
      rfl
    · rw [h1, h2]
      rfl
  · rintro ⟨h12, h21⟩ i hi
    by_cases h1 : b1.bit i = true
    · exact ⟨within_self b1 i h1, h12 i h1⟩
    · have h2 : b2.bit i = true := by
        rwa [Bool.eq_false_of_not_eq_true h1, Bool.false_xor] at hi
      exact ⟨h21 i h2, within_self b2 i h2⟩

end Bitset

/-- **The operators denote the operations on sets exactly when neither operand has a 1 bit past the
end of the other.** -/
theorem operators_denote_iff {b1 b2 : Bitset}
    (hcount : min b1.integerCount b2.integerCount ≤ 2 ^ 18) :
    (Denotes (bitsetUnion b1 b2) (b1.members ∪ b2.members) ∧
      Denotes (bitsetIntersection b1 b2) (b1.members ∩ b2.members) ∧
      Denotes (bitsetDifference b1 b2) (b1.members \ b2.members) ∧
      Denotes (bitsetSymmetricDifference b1 b2) (symmDiff b1.members b2.members)) ↔
    b1.Within b2 ∧ b2.Within b1 := by
  have h : Bitset.Stable (min b1.integerCount b2.integerCount) := Bitset.stable_of_le hcount
  rw [Bitset.denotes_union_iff h, Bitset.denotes_difference_iff h,
    Bitset.denotes_symmetricDifference_iff h]
  constructor
  · exact fun hall => hall.1
  · exact fun hw => ⟨hw, Bitset.denotes_intersection h, hw.1, hw⟩

/-- Operands of one and two words, with no bit in the second word. -/
theorem operators_denote_iff_two : (Bitset.mk [5]).Within ⟨[3, 0]⟩ ∧
    Denotes (bitsetUnion ⟨[5]⟩ ⟨[3, 0]⟩) ((Bitset.mk [5]).members ∪ (Bitset.mk [3, 0]).members) := by
  have h12 : (Bitset.mk [5]).Within ⟨[3, 0]⟩ := fun i hi =>
    (Bitset.within_self _ i hi).trans (by decide)
  have h21 : (Bitset.mk [3, 0]).Within ⟨[5]⟩ := by
    intro i hi
    have hlt : i < 128 := Bitset.within_self _ i hi
    by_contra hge
    have hword : i / 64 = 1 := by
      have : (Bitset.mk [5]).integerCount = 1 := rfl
      omega
    rw [Bitset.mem_members, Bitset.bit, hword] at hi
    simp at hi
  exact ⟨h12, ((operators_denote_iff (by decide)).mpr ⟨h12, h21⟩).1⟩

/-- The union with a shorter bitset loses the member 64. -/
theorem not_denotes_union : bitsetUnion ⟨[0, 1]⟩ ⟨[0]⟩ = .ok ⟨[0]⟩ ∧
    64 ∈ (Bitset.mk [0, 1]).members ∧ 64 ∉ (Bitset.mk [0]).members ∧
    ¬ ∀ b1 b2 : Bitset, b1.integerCount ≤ 2 ^ 18 → b2.integerCount ≤ 2 ^ 18 →
      Denotes (bitsetUnion b1 b2) (b1.members ∪ b2.members) := by
  have hrun : bitsetUnion ⟨[0, 1]⟩ ⟨[0]⟩ = .ok ⟨[0]⟩ :=
    Bitset.bitsetZip_of_stable _ (Bitset.stable_of_le (by decide))
  have hmem : 64 ∈ (Bitset.mk [0, 1]).members := by
    rw [Bitset.mem_members]
    decide
  have hnot : 64 ∉ (Bitset.mk [0]).members := by
    rw [Bitset.mem_members]
    decide
  refine ⟨hrun, hmem, hnot, fun hall => ?_⟩
  obtain ⟨c, hc, hmembers⟩ := hall ⟨[0, 1]⟩ ⟨[0]⟩ (by decide) (by decide)
  obtain rfl := Except.ok.inj (hrun.symm.trans hc)
  exact hnot (hmembers ▸ Set.mem_union_left _ hmem)

end SetQL
