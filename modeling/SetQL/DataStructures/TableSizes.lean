import SetQL.DataStructures.Invariant

/-!
# Sizes of attribute tables

A table is allocated as a number of unions that is rounded down, and a value is written to the
unions of its key. The values of the last keys need the union that the rounding left out.

## Main definitions

* `addressedElements`: the unions that the value of a key is written to
* `KeyFits`: the remainder of the allocation is made up for by the keys behind

## Main results

* `addressed_lt_iff`, `exists_assign_iff`: the unions of a key lie in a block when its slot does,
  and then its value is assigned
* `addressed_allocated_iff`: which keys of a new table have all their unions
* `keyFits_all_iff`: when all keys have
-/

namespace SetQL

/-- The unions that the value of a key is written to. -/
def addressedElements (type : AttrType) (strl keyIndex : ℕ) : List ℕ :=
  match type with
  | .type8 => [keyIndex / 8]
  | .string => (List.range strl).map fun i => (keyIndex * strl + i) / 8
  | .type16 => [keyIndex / 4]
  | .type32 => [keyIndex / 2]
  | .type64 => [keyIndex]
  | .undefined => []

/-- The keys up to this one leave room for the remainder of the allocation. -/
def KeyFits (maxKeyCount : ℕ) (type : AttrType) (stringSize keyIndex : ℕ) : Prop :=
  match type with
  | .type8 => keyIndex + 1 + maxKeyCount % 8 ≤ maxKeyCount
  | .string => (keyIndex + 1) * stringSize + maxKeyCount * stringSize % 8 ≤
      maxKeyCount * stringSize % 2 ^ 64
  | .type16 => keyIndex + 1 + maxKeyCount % 4 ≤ maxKeyCount
  | .type32 => keyIndex + 1 + maxKeyCount % 2 ≤ maxKeyCount
  | .type64 => keyIndex + 1 ≤ maxKeyCount
  | .undefined => True

variable {attr : Attributes} {type : AttrType} {m s k n : ℕ}

/-- **The unions of a key lie in a block** of `n` unions when its slot does. -/
theorem addressed_lt_iff : (∀ e ∈ addressedElements attr.type attr.stringLength k, e < n) ↔
    attr.width = 0 ∨ (k + 1) * attr.width ≤ 8 * n := by
  obtain ⟨type, strl, block⟩ := attr
  cases type with
  | type8 | type16 | type32 | type64 =>
    simp only [addressedElements, Attributes.width, List.mem_singleton, forall_eq]
    omega
  | undefined => simp [addressedElements, Attributes.width]
  | string =>
    simp only [addressedElements, Attributes.width, List.mem_map, List.mem_range,
      forall_exists_index, and_imp, forall_apply_eq_imp_iff₂]
    rw [Nat.succ_mul]
    constructor
    · intro h
      rcases Nat.eq_zero_or_pos strl with hzero | hpos
      · exact Or.inl hzero
      · have hlast := h (strl - 1) (Nat.sub_lt hpos Nat.one_pos)
        omega
    · intro h i hi
      omega

/-- A value is assigned when the slot of its key lies in the block. -/
theorem exists_assign_iff (data : Payload) : (∃ block, attr.assign k data = .ok block) ↔
    attr.width = 0 ∨ (k + 1) * attr.width ≤ attr.data.size := by
  simp only [Attributes.assign_eq_write, Block.write_eq_ok, Payload.length_bytes, exists_and_left,
    exists_eq, and_true]
  rw [← List.length_eq_zero_iff, Payload.length_bytes, Nat.succ_mul]

theorem width_newAttributes_eq : (newAttributes m type s).width =
    match type with
    | .type8 => 1
    | .string => s
    | .type16 => 2
    | .type32 => 4
    | .type64 => 8
    | .undefined => 0 := by
  cases type <;> rfl

/-- A slot lies in the allocated block when the remainder is made up for. -/
theorem slot_allocated_iff : ((newAttributes m type s).width = 0 ∨
    (k + 1) * (newAttributes m type s).width ≤ 8 * numberOfElements m type s) ↔
      KeyFits m type s k := by
  rw [width_newAttributes_eq]
  cases type with
  | type8 | type16 | type32 | type64 =>
    simp only [numberOfElements, KeyFits]
    omega
  | undefined => simp [KeyFits]
  | string =>
    simp only [numberOfElements, KeyFits]
    -- the product is reduced modulo a multiple of 8, which keeps its remainder
    have hrest : m * s % 2 ^ 64 % 8 = m * s % 8 := Nat.mod_mod_of_dvd _ (by decide)
    rcases Nat.eq_zero_or_pos s with rfl | hpos
    · simp
    · have hslot : 0 < (k + 1) * s := Nat.mul_pos (Nat.succ_pos k) hpos
      omega

/-- **The keys of a new table that have all their unions**, and whose values are assigned. -/
theorem addressed_allocated_iff (m s k : ℕ) (type : AttrType) :
    ((∀ e ∈ addressedElements type s k, e < numberOfElements m type s) ↔ KeyFits m type s k) ∧
      ∀ data, (∃ block, (newAttributes m type s).assign k data = .ok block) ↔
        KeyFits m type s k := by
  have hwords : addressedElements type s k =
      addressedElements (newAttributes m type s).type (newAttributes m type s).stringLength k := by
    cases type <;> rfl
  refine ⟨?_, fun data => ?_⟩
  · rw [hwords, addressed_lt_iff]
    exact slot_allocated_iff
  · rw [exists_assign_iff]
    exact slot_allocated_iff

/-- Every key fits when nothing remains and the product is not reduced. -/
theorem keyFits_all_iff (hm : 0 < m) (hs : 0 < s) : (∀ k < m, KeyFits m type s k) ↔
    match type with
    | .type8 => m % 8 = 0
    | .string => m * s % 8 = 0 ∧ m * s < 2 ^ 64
    | .type16 => m % 4 = 0
    | .type32 => m % 2 = 0
    | .type64 => True
    | .undefined => True := by
  have hlast : m - 1 < m := Nat.sub_lt hm Nat.one_pos
  cases type with
  | type64 => exact ⟨fun _ => True.intro, fun _ k hk => hk⟩
  | type8 | type16 | type32 =>
    simp only [KeyFits]
    refine ⟨fun h => ?_, fun h k hk => by omega⟩
    have := h (m - 1) hlast
    omega
  | undefined => simp [KeyFits]
  | string =>
    simp only [KeyFits]
    constructor
    · intro h
      have hfits := h (m - 1) hlast
      have hprod : 0 < m * s := Nat.mul_pos hm hs
      rw [Nat.sub_add_cancel hm] at hfits
      omega
    · rintro ⟨hrest, hlt⟩ k hk
      rw [hrest, Nat.mod_eq_of_lt hlt]
      exact Nat.mul_le_mul_right s hk

/-- One key needs a union that a table of bytes does not have. -/
theorem not_addressed_allocated : numberOfElements 1 .type8 0 = 0 ∧
    addressedElements .type8 0 0 = [0] ∧
    ¬ ∀ m k : ℕ, 1 ≤ m → k < m →
      ∀ e ∈ addressedElements .type8 0 k, e < numberOfElements m .type8 0 := by
  refine ⟨rfl, rfl, fun hall => ?_⟩
  exact absurd (hall 1 0 le_rfl Nat.one_pos 0 (by decide)) (by decide)

end SetQL
