import SetQL.Spec.Store
import Mathlib.Data.List.Sublists

/-!
# Equivalent expressions

Two expressions are equivalent when they read alike at every point, whatever their names stand for.
Equivalent expressions denote the same set over every universe, and only they do. Finitely many
readings decide: a reading of an expression is known from the names in it that hold.

## Main definitions

* `SetExpr.Equiv e e'`: the expressions read alike

## Main results

* `equiv_iff_denote`: equivalent expressions are those that denote the same sets
* `equiv_iff_sublists`: the readings that decide
-/

namespace SetQL

namespace SetExpr

variable {S K : Type*} {e e' : SetExpr S}

/-- The expressions read alike at every point. -/
def Equiv (e e' : SetExpr S) : Prop := ∀ leaf : S → Bool, e.evalBool leaf = e'.evalBool leaf

/-- **Equivalent expressions are those that denote the same sets**, over every universe. -/
theorem equiv_iff_denote [Nonempty K] : e.Equiv e' ↔ ∀ (U : Set K) (members : S → Set K),
    (∀ s, members s ⊆ U) → e.denote U members = e'.denote U members := by
  classical
  constructor
  · intro h U members hsub
    ext k
    by_cases hk : k ∈ U
    · have hleaf : ∀ s, decide (k ∈ members s) = true ↔ k ∈ members s := fun s => decide_eq_true_iff
      rw [mem_denote_iff hk e fun s _ => hleaf s, mem_denote_iff hk e' fun s _ => hleaf s, h]
    · exact iff_of_false (fun h => hk (denote_subset hsub e h)) fun h => hk (denote_subset hsub e' h)
  · intro h leaf
    obtain ⟨k⟩ := ‹Nonempty K›
    -- one point is enough: a name stands for everything or for nothing
    have hleaf : ∀ s, leaf s = true ↔ k ∈ (if leaf s = true then Set.univ else ∅ : Set K) := by
      intro s
      split <;> simp [*]
    have heq := h Set.univ (fun s => if leaf s = true then Set.univ else ∅) fun s => Set.subset_univ _
    have hmem := mem_denote_iff (Set.mem_univ k) e fun s _ => hleaf s
    rw [heq, mem_denote_iff (Set.mem_univ k) e' fun s _ => hleaf s] at hmem
    exact Bool.eq_iff_iff.mpr hmem.symm

variable [DecidableEq S]

/-- **The readings that decide**: those in which the names of a part of the list hold. -/
theorem equiv_iff_sublists : e.Equiv e' ↔ ∀ l ∈ (e.leaves ++ e'.leaves).sublists,
    e.evalBool (· ∈ l) = e'.evalBool (· ∈ l) := by
  refine ⟨fun h l _ => h _, fun h leaf => ?_⟩
  have hmem : ∀ s ∈ e.leaves ++ e'.leaves,
      leaf s = decide (s ∈ (e.leaves ++ e'.leaves).filter leaf) := by
    intro s hs
    rw [Bool.eq_iff_iff, decide_eq_true_iff, List.mem_filter]
    exact (and_iff_right hs).symm
  rw [evalBool_congr e fun s hs => hmem s (List.mem_append_left _ hs),
    evalBool_congr e' fun s hs => hmem s (List.mem_append_right _ hs)]
  exact h _ (List.mem_sublists.mpr List.filter_sublist)

instance : DecidableRel (Equiv (S := S)) := fun _ _ => decidable_of_iff _ equiv_iff_sublists.symm

end SetExpr

end SetQL
