import SetQL.Base.Outcome
import Mathlib.Data.List.Nodup

/-!
# Heaps of blocks

A heap numbers its blocks in the order of their allocation, and the number of a freed block is not
given out again. A block that is not live is neither read, nor written, nor freed: each is
undefined behaviour. So code that returns has read live blocks only and has freed no block twice.

What a stretch of code does to a heap is recorded by the blocks it has allocated and still has to
free; every other block is as it was.

## Main definitions

* `Heap α`, `Heap.block`: a heap of blocks that hold an `α`, and the content of one of them
* `Heap.alloc`, `Heap.read`, `Heap.write`, `Heap.free`
* `Heap.Owns h h' ps`: the code that took `h` to `h'` owns the blocks `ps`

## Main results

* `Heap.Owns.trans`: code that follows other code owns the blocks of both
* `Heap.owns_alloc`: an allocated block is owned
* `Heap.Owns.exists_free`: an owned block can be freed, and is no longer owned
-/

namespace SetQL

variable {α : Type}

/-- A heap: what its blocks hold, absent for the freed ones. -/
structure Heap (α : Type) where
  blocks : List (Option α)
  deriving DecidableEq, Repr

namespace Heap

variable {h h' h'' : Heap α} {p q : ℕ} {a b : α} {ps qs : List ℕ}

/-- The content of a live block. -/
def block (h : Heap α) (p : ℕ) : Option α := h.blocks[p]?.join

/-- The number of the next block. -/
def next (h : Heap α) : ℕ := h.blocks.length

/-- A fresh block. -/
def alloc (h : Heap α) (a : α) : ℕ × Heap α := (h.next, ⟨h.blocks ++ [some a]⟩)

/-- The content of a block. -/
def read (h : Heap α) (p : ℕ) : C α :=
  match h.block p with
  | some a => .ok a
  | none => .error .undefined

/-- The heap with the content of a block replaced. -/
def write (h : Heap α) (p : ℕ) (a : α) : C (Heap α) :=
  if (h.block p).isSome then .ok ⟨h.blocks.set p (some a)⟩ else .error .undefined

/-- The heap without a block. -/
def free (h : Heap α) (p : ℕ) : C (Heap α) :=
  if (h.block p).isSome then .ok ⟨h.blocks.set p none⟩ else .error .undefined

theorem lt_next_of_block (hp : h.block p = some a) : p < h.next := by
  by_contra hle
  rw [block, List.getElem?_eq_none (Nat.not_lt.mp hle)] at hp
  cases hp

theorem block_next : h.block h.next = none := by
  rw [block, next, List.getElem?_eq_none (Nat.le_refl _)]
  rfl

@[simp] theorem block_alloc_self : (h.alloc a).2.block h.next = some a := by
  simp [block, alloc, next]

theorem block_alloc_of_ne (hq : q ≠ h.next) : (h.alloc a).2.block q = h.block q := by
  rw [next] at hq
  rcases Nat.lt_or_ge q h.blocks.length with hlt | hge
  · rw [block, block, alloc, List.getElem?_append_left hlt]
  · have hq' : (h.blocks ++ [some a]).length ≤ q := by
      rw [List.length_append, List.length_singleton]
      omega
    rw [block, block, alloc, List.getElem?_eq_none hq', List.getElem?_eq_none hge]

/-- A block with its number live is set, and no other block is. -/
theorem block_set (o : Option α) (hp : h.block p = some a) :
    (⟨h.blocks.set p o⟩ : Heap α).block q = if q = p then o else h.block q := by
  have hlt := lt_next_of_block hp
  rw [block, List.getElem?_set]
  by_cases heq : q = p
  · rw [if_pos heq.symm, if_pos (heq ▸ hlt), if_pos heq]
    rfl
  · rw [if_neg (Ne.symm heq), if_neg heq]
    rfl

theorem read_eq_ok : h.read p = .ok a ↔ h.block p = some a := by
  unfold read
  cases h.block p <;> simp

theorem exists_write (hp : h.block p = some a) (b : α) :
    ∃ h', h.write p b = .ok h' ∧ ∀ q, h'.block q = if q = p then some b else h.block q :=
  ⟨_, if_pos (Option.isSome_iff_exists.mpr ⟨a, hp⟩), fun _ => block_set _ hp⟩

theorem exists_free (hp : (h.block p).isSome) :
    ∃ h', h.free p = .ok h' ∧ ∀ q, h'.block q = if q = p then none else h.block q := by
  obtain ⟨a, ha⟩ := Option.isSome_iff_exists.mp hp
  exact ⟨_, if_pos hp, fun _ => block_set _ ha⟩

/-! ## Owned blocks -/

/-- The blocks that code taking one heap to another has allocated and still has to free. -/
structure Owns (h h' : Heap α) (ps : List ℕ) : Prop where
  nodup : ps.Nodup
  fresh : ∀ p ∈ ps, h.block p = none
  live : ∀ p ∈ ps, (h'.block p).isSome
  frame : ∀ q, q ∉ ps → h'.block q = h.block q

theorem Owns.refl (h : Heap α) : Owns h h [] where
  nodup := List.nodup_nil
  fresh := nofun
  live := nofun
  frame _ _ := rfl

/-- A live block is not owned by later code. -/
theorem Owns.not_mem (ho : Owns h h' ps) (hq : h.block q = some a) : q ∉ ps := by
  intro hmem
  cases hq.symm.trans (ho.fresh q hmem)

/-- **A live block keeps its content.** -/
theorem Owns.block_eq (ho : Owns h h' ps) (hq : h.block q = some a) : h'.block q = some a :=
  (ho.frame q (ho.not_mem hq)).trans hq

/-- **Sequencing**: code that follows other code owns the blocks of both. -/
theorem Owns.trans (ho : Owns h h' ps) (ho' : Owns h' h'' qs) : Owns h h'' (qs ++ ps) where
  nodup := by
    refine List.nodup_append'.mpr ⟨ho'.nodup, ho.nodup, fun q hq hp => ?_⟩
    -- a block owned by the first part is live when the second begins
    have hlive := ho.live q hp
    rw [ho'.fresh q hq] at hlive
    cases hlive
  fresh q hq := by
    rcases List.mem_append.mp hq with hq | hq
    · by_cases hp : q ∈ ps
      · exact ho.fresh q hp
      · rw [← ho.frame q hp]
        exact ho'.fresh q hq
    · exact ho.fresh q hq
  live q hq := by
    rcases List.mem_append.mp hq with hq | hq
    · exact ho'.live q hq
    · obtain ⟨a, ha⟩ := Option.isSome_iff_exists.mp (ho.live q hq)
      rw [ho'.block_eq ha]
      rfl
  frame q hq := by
    rw [List.mem_append, not_or] at hq
    rw [ho'.frame q hq.1, ho.frame q hq.2]

/-- **Allocation**: the new block is owned. -/
theorem owns_alloc (h : Heap α) (a : α) : Owns h (h.alloc a).2 [h.next] where
  nodup := List.nodup_singleton _
  fresh p hp := by
    rw [List.mem_singleton.mp hp]
    exact block_next
  live p hp := by
    rw [List.mem_singleton.mp hp, block_alloc_self]
    rfl
  frame q hq := block_alloc_of_ne fun heq => hq (List.mem_singleton.mpr heq)

/-- **Freeing**: an owned block can be freed, is no longer owned, and no other block changes. -/
theorem Owns.exists_free (ho : Owns h h' (ps ++ p :: qs)) :
    ∃ h'', h'.free p = .ok h'' ∧ Owns h h'' (ps ++ qs) ∧
      ∀ q, q ≠ p → h''.block q = h'.block q := by
  have hp : p ∈ ps ++ p :: qs := List.mem_append_right _ List.mem_cons_self
  obtain ⟨h'', hfree, hblock⟩ := Heap.exists_free (ho.live p hp)
  have hnodup := List.nodup_cons.mp (List.nodup_middle.mp ho.nodup)
  have hsub : ∀ q ∈ ps ++ qs, q ∈ ps ++ p :: qs := fun q hq =>
    List.mem_append.mpr ((List.mem_append.mp hq).imp_right (List.mem_cons_of_mem p))
  refine ⟨h'', hfree, ⟨hnodup.2, fun q hq => ho.fresh q (hsub q hq), fun q hq => ?_,
    fun q hq => ?_⟩, fun q hq => by rw [hblock, if_neg hq]⟩
  · have hqp : q ≠ p := fun heq => hnodup.1 (heq ▸ hq)
    rw [hblock, if_neg hqp]
    exact ho.live q (hsub q hq)
  · rw [hblock]
    split_ifs with heq
    · rw [heq]
      exact (ho.fresh p hp).symm
    · refine ho.frame q fun hmem => hq ?_
      rcases List.mem_append.mp hmem with hmem | hmem
      · exact List.mem_append_left _ hmem
      · exact List.mem_append_right _ ((List.mem_cons.mp hmem).resolve_left heq)

end Heap

end SetQL
