import Mathlib.Data.List.Basic

/-!
# Scanners that count

A scanner reads a list from left to right with a state, and counts some of what it reads, by its
state. What it counts in two parts adds up, with the state after the first part in between, and what
it counts at a place is the difference between the counts of the two parts that end there.

## Main definitions

* `scanCount step counts s w`: how many elements of `w` are counted from the state `s`

## Main results

* `scanCount_append`: the counts of two parts
* `scanCount_take_succ`: where an element is counted
* `scanCount_eq_zero`: the count of a list of which nothing is counted
-/

namespace SetQL

section Scanner

variable {σ α : Type} {step : σ → α → σ} {counts : σ → α → Prop} [∀ s, DecidablePred (counts s)]

/-- How many elements are counted from a state on. -/
def scanCount (step : σ → α → σ) (counts : σ → α → Prop) [∀ s, DecidablePred (counts s)] :
    σ → List α → ℕ
  | _, [] => 0
  | s, a :: w => scanCount step counts (step s a) w + if counts s a then 1 else 0

/-- **The counts of two parts** add up, from the state that is between them. -/
theorem scanCount_append (s : σ) (u v : List α) : scanCount step counts s (u ++ v) =
    scanCount step counts s u + scanCount step counts (u.foldl step s) v := by
  induction u generalizing s with
  | nil => rw [List.nil_append, scanCount, Nat.zero_add, List.foldl_nil]
  | cons a u ih =>
    rw [List.cons_append, scanCount, ih, scanCount, List.foldl_cons]
    omega

theorem scanCount_singleton (s : σ) (a : α) :
    scanCount step counts s [a] = if counts s a then 1 else 0 := by
  rw [scanCount, scanCount, Nat.zero_add]

/-- **Where an element is counted**: exactly there the count of the part up to it is one more. -/
theorem scanCount_take_succ (s : σ) (w : List α) (i : ℕ) :
    scanCount step counts s (w.take (i + 1)) = scanCount step counts s (w.take i) + 1 ↔
      ∃ a, w[i]? = some a ∧ counts ((w.take i).foldl step s) a := by
  rw [List.take_add_one, scanCount_append, Nat.add_left_cancel_iff]
  cases hget : w[i]? with
  | none =>
    apply iff_of_false (Nat.zero_ne_one ·)
    rintro ⟨a, ha, -⟩
    exact nomatch ha
  | some a =>
    rw [Option.toList_some, scanCount_singleton]
    constructor
    · intro h
      refine ⟨a, rfl, ?_⟩
      by_contra hnot
      exact absurd h (by rw [if_neg hnot]; exact Nat.zero_ne_one)
    · rintro ⟨_, ⟨⟩, hcounts⟩
      rw [if_pos hcounts]

/-- Nothing is counted if no element is, in the state that is in front of it. -/
theorem scanCount_eq_zero {s : σ} {w : List α}
    (h : ∀ i a, w[i]? = some a → ¬counts ((w.take i).foldl step s) a) :
    scanCount step counts s w = 0 := by
  induction w generalizing s with
  | nil => rfl
  | cons a w ih =>
    have hfirst : ¬counts s a := h 0 a rfl
    rw [scanCount, if_neg hfirst, Nat.add_zero]
    apply ih
    intro i b hget
    exact h (i + 1) b hget

end Scanner

end SetQL
