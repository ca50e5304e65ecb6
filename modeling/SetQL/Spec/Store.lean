import Mathlib.Data.Set.Basic
import Mathlib.Data.List.Induction
import Mathlib.Order.BooleanAlgebra.Set

/-!
# A store of named sets

The purpose of the database, with no representation: a set of keys, and for every created name a
set of keys. Keys and names enter once and stay; a key is added to or removed from a set when
both exist. Expressions over the names denote sets of keys.

## Main definitions

* `Store S K`, `Call S K`, `Store.step`, `Store.run`: the store and its calls
* `LastAdded h s k`: the last add or remove of `k` on `s` with an effect was an add
* `SetExpr S`, `SetExpr.denote`: expressions and the sets they denote
* `SetExpr.evalBool`: an expression read at one point

## Main results

* `mem_run_iff`: a set holds the keys whose last add or remove on it was an add
* `mem_denote_iff`: membership in the denoted set is the Boolean reading of the expression
-/

namespace SetQL

variable {S K : Type*}

/-- Sets of keys under names. -/
structure Store (S K : Type*) where
  keys : Set K
  names : Set S
  members : S → Set K

/-- The calls of a store. -/
inductive Call (S K : Type*)
  | createSet (s : S)
  | addKey (k : K)
  | add (s : S) (k : K)
  | remove (s : S) (k : K)

namespace Store

/-- No keys and no sets. -/
def empty : Store S K := ⟨∅, ∅, fun _ => ∅⟩

open Classical in
/-- The members of one set are changed, when the key and the set exist. -/
noncomputable def change (st : Store S K) (f : Set K → Set K) (s : S) (k : K) : Store S K :=
  if k ∈ st.keys ∧ s ∈ st.names then
    { st with members := Function.update st.members s (f (st.members s)) }
  else st

/-- The effect of a call: a member changes only when its key and its set exist. -/
noncomputable def step (st : Store S K) : Call S K → Store S K
  | .createSet s => { st with names := insert s st.names }
  | .addKey k => { st with keys := insert k st.keys }
  | .add s k => st.change (insert k) s k
  | .remove s k => st.change (· \ {k}) s k

section Change

variable {st : Store S K} {f : Set K → Set K} {s s' : S} {k : K}

@[simp] theorem keys_change : (st.change f s k).keys = st.keys := by
  unfold change
  split <;> rfl

@[simp] theorem names_change : (st.change f s k).names = st.names := by
  unfold change
  split <;> rfl

theorem change_of_unknown (h : ¬ (k ∈ st.keys ∧ s ∈ st.names)) : st.change f s k = st := if_neg h

theorem members_change_same (h : k ∈ st.keys ∧ s ∈ st.names) :
    (st.change f s k).members s = f (st.members s) := by
  rw [change, if_pos h]
  simp

theorem members_change_of_ne (h : s' ≠ s) : (st.change f s k).members s' = st.members s' := by
  unfold change
  split
  · simp [h]
  · rfl

end Change

/-- The calls of a list, in order. -/
noncomputable def run (h : List (Call S K)) : Store S K := h.foldl step empty

@[simp] theorem run_nil : run ([] : List (Call S K)) = empty := rfl

theorem run_snoc (h : List (Call S K)) (c : Call S K) : run (h ++ [c]) = (run h).step c := by
  simp [run]

theorem mem_keys_run_iff {h : List (Call S K)} {k : K} : k ∈ (run h).keys ↔ .addKey k ∈ h := by
  induction h using List.reverseRecOn with
  | nil => simp [empty]
  | append_singleton h c ih =>
    rw [run_snoc, List.mem_append, List.mem_singleton, ← ih]
    cases c with
    | addKey k' => simp [step, or_comm]
    | createSet s => simp [step]
    | add s k' => simp [step]
    | remove s k' => simp [step]

theorem mem_names_run_iff {h : List (Call S K)} {s : S} : s ∈ (run h).names ↔ .createSet s ∈ h := by
  induction h using List.reverseRecOn with
  | nil => simp [empty]
  | append_singleton h c ih =>
    rw [run_snoc, List.mem_append, List.mem_singleton, ← ih]
    cases c with
    | createSet s' => simp [step, or_comm]
    | addKey k => simp [step]
    | add s' k => simp [step]
    | remove s' k => simp [step]

end Store

/-! ## The last call with an effect -/

/-- The last add or remove of `k` on `s` with an effect was an add: an add made when both existed,
and no remove after it. -/
def LastAdded (h : List (Call S K)) (s : S) (k : K) : Prop :=
  ∃ pre post, h = pre ++ .add s k :: post ∧ .addKey k ∈ pre ∧ .createSet s ∈ pre ∧
    .remove s k ∉ post

theorem not_lastAdded_nil (s : S) (k : K) : ¬ LastAdded [] s k := by
  rintro ⟨pre, post, h, -⟩
  simp at h

theorem lastAdded_snoc {h : List (Call S K)} {c : Call S K} {s : S} {k : K} :
    LastAdded (h ++ [c]) s k ↔
      (c = .add s k ∧ .addKey k ∈ h ∧ .createSet s ∈ h) ∨
        (c ≠ .remove s k ∧ LastAdded h s k) := by
  constructor
  · rintro ⟨pre, post, heq, hk, hs, hr⟩
    rcases List.eq_nil_or_concat post with rfl | ⟨post, c', rfl⟩
    · obtain ⟨rfl, hc⟩ := List.append_inj' heq rfl
      obtain rfl := List.singleton_inj.mp hc
      exact Or.inl ⟨rfl, hk, hs⟩
    · rw [List.concat_eq_append, ← List.cons_append, ← List.append_assoc] at heq
      obtain ⟨rfl, hc⟩ := List.append_inj' heq rfl
      obtain rfl := List.singleton_inj.mp hc
      rw [List.concat_eq_append, List.mem_append, List.mem_singleton, not_or] at hr
      exact Or.inr ⟨Ne.symm hr.2, pre, post, rfl, hk, hs, hr.1⟩
  · rintro (⟨rfl, hk, hs⟩ | ⟨hc, pre, post, rfl, hk, hs, hr⟩)
    · exact ⟨h, [], rfl, hk, hs, List.not_mem_nil⟩
    · refine ⟨pre, post ++ [c], by simp, hk, hs, ?_⟩
      rw [List.mem_append, List.mem_singleton, not_or]
      exact ⟨hr, Ne.symm hc⟩

theorem LastAdded.known {h : List (Call S K)} {s : S} {k : K} (hl : LastAdded h s k) :
    .addKey k ∈ h ∧ .createSet s ∈ h := by
  obtain ⟨pre, post, rfl, hk, hs, -⟩ := hl
  exact ⟨List.mem_append_left _ hk, List.mem_append_left _ hs⟩

/-- **A set holds the keys whose last add or remove on it was an add.** -/
theorem mem_run_iff {h : List (Call S K)} {s : S} {k : K} :
    k ∈ (Store.run h).members s ↔ LastAdded h s k := by
  induction h using List.reverseRecOn with
  | nil => simp [Store.empty, not_lastAdded_nil]
  | append_singleton h c ih =>
    rw [Store.run_snoc, lastAdded_snoc, ← ih]
    cases c with
    | createSet s' => simp [Store.step]
    | addKey k' => simp [Store.step]
    | add s' k' =>
      rw [← Store.mem_keys_run_iff, ← Store.mem_names_run_iff]
      show k ∈ ((Store.run h).change _ s' k').members s ↔ _
      by_cases hs : s = s'
      · subst hs
        by_cases hex : k' ∈ (Store.run h).keys ∧ s ∈ (Store.run h).names
        · by_cases hk : k' = k
          · subst hk
            simp [Store.members_change_same hex, hex]
          · simp [Store.members_change_same hex, hk, Ne.symm hk]
        · have hno : ¬ (Call.add s k' = .add s k ∧ k ∈ (Store.run h).keys ∧
              s ∈ (Store.run h).names) := by
            rintro ⟨heq, hknown⟩
            obtain rfl : k' = k := by simpa using heq
            exact hex hknown
          simp only [Store.change_of_unknown hex, hno, false_or, ne_eq, reduceCtorEq,
            not_false_eq_true, true_and]
      · simp [Store.members_change_of_ne hs, Ne.symm hs]
    | remove s' k' =>
      show k ∈ ((Store.run h).change _ s' k').members s ↔ _
      by_cases hs : s = s'
      · subst hs
        by_cases hex : k' ∈ (Store.run h).keys ∧ s ∈ (Store.run h).names
        · by_cases hk : k' = k
          · subst hk
            simp [Store.members_change_same hex]
          · simp [Store.members_change_same hex, hk, Ne.symm hk]
        · rw [Store.change_of_unknown hex, ih]
          by_cases hk : k' = k
          · subst hk
            have : ¬ LastAdded h s k' := fun hl =>
              hex ⟨Store.mem_keys_run_iff.mpr hl.known.1, Store.mem_names_run_iff.mpr hl.known.2⟩
            simp [this]
          · simp [hk]
      · simp [Store.members_change_of_ne hs, Ne.symm hs]

/-! ## Expressions -/

/-- Expressions over the names of sets. -/
inductive SetExpr (S : Type*)
  | name (s : S)
  | complement (e : SetExpr S)
  | union (l r : SetExpr S)
  | intersection (l r : SetExpr S)
  | difference (l r : SetExpr S)
  deriving DecidableEq

namespace SetExpr

/-- The names of an expression, from left to right. -/
def leaves : SetExpr S → List S
  | name s => [s]
  | complement e => e.leaves
  | union l r | intersection l r | difference l r => l.leaves ++ r.leaves

/-- The set an expression denotes, the complement taken within the universe `U`. -/
def denote (U : Set K) (members : S → Set K) : SetExpr S → Set K
  | name s => members s
  | complement e => U \ e.denote U members
  | union l r => l.denote U members ∪ r.denote U members
  | intersection l r => l.denote U members ∩ r.denote U members
  | difference l r => l.denote U members \ r.denote U members

/-- An expression read at one point, from the readings of its names. -/
def evalBool (leaf : S → Bool) : SetExpr S → Bool
  | name s => leaf s
  | complement e => !e.evalBool leaf
  | union l r => l.evalBool leaf || r.evalBool leaf
  | intersection l r => l.evalBool leaf && r.evalBool leaf
  | difference l r => l.evalBool leaf && !r.evalBool leaf

/-- Membership in the denoted set is the Boolean reading of the expression. -/
theorem mem_denote_iff {U : Set K} {members : S → Set K} {leaf : S → Bool} {k : K} (hk : k ∈ U)
    (e : SetExpr S) (h : ∀ s ∈ e.leaves, leaf s = true ↔ k ∈ members s) :
    k ∈ e.denote U members ↔ e.evalBool leaf = true := by
  induction e with
  | name s => exact (h s (List.mem_singleton_self s)).symm
  | complement e ih => simp [denote, evalBool, ih h, hk]
  | union l r ihl ihr | intersection l r ihl ihr | difference l r ihl ihr =>
    have hl := ihl fun s hs => h s (List.mem_append_left _ hs)
    have hr := ihr fun s hs => h s (List.mem_append_right _ hs)
    simp [denote, evalBool, hl, hr]

/-- Sets within the universe denote sets within the universe. -/
theorem denote_subset {U : Set K} {members : S → Set K} (h : ∀ s, members s ⊆ U) (e : SetExpr S) :
    e.denote U members ⊆ U := by
  induction e with
  | name s => exact h s
  | complement e ih => exact Set.sdiff_subset
  | union l r ihl ihr => exact Set.union_subset ihl ihr
  | intersection l r ihl ihr => exact Set.inter_subset_left.trans ihl
  | difference l r ihl ihr => exact Set.sdiff_subset.trans ihl

theorem evalBool_congr {leaf leaf' : S → Bool} (e : SetExpr S)
    (h : ∀ s ∈ e.leaves, leaf s = leaf' s) : e.evalBool leaf = e.evalBool leaf' := by
  induction e with
  | name s => exact h s (List.mem_singleton_self s)
  | complement e ih => simp [evalBool, ih h]
  | union l r ihl ihr | intersection l r ihl ihr | difference l r ihl ihr =>
    have hl := ihl fun s hs => h s (List.mem_append_left _ hs)
    have hr := ihr fun s hs => h s (List.mem_append_right _ hs)
    simp [evalBool, hl, hr]

end SetExpr

end SetQL
