import Mathlib.Data.Finset.Card
import Mathlib.Data.List.Induction

/-!
# The different elements of a list

The elements of a list without repetitions, in the order in which they come first. The place of an
element among them is the number of different elements in front of it.

## Main results

* `nodup_eraseDups`, `toFinset_eraseDups`: the elements, each of them once
* `getElem?_eraseDups_iff`: the place of an element
-/

namespace SetQL

variable {α : Type*} [BEq α] [LawfulBEq α] {l : List α} {a : α} {i : ℕ}

/-- One more element comes behind the others when it is new. -/
theorem eraseDups_concat (l : List α) (a : α) :
    (l ++ [a]).eraseDups = if a ∈ l then l.eraseDups else l.eraseDups ++ [a] := by
  rw [List.eraseDups_append]
  split_ifs with ha <;> simp [List.removeAll, List.eraseDups_cons, ha]

/-- No element is repeated. -/
theorem nodup_eraseDups (l : List α) : l.eraseDups.Nodup := by
  induction l using List.reverseRecOn with
  | nil => exact List.nodup_nil
  | append_singleton l a ih =>
    rw [eraseDups_concat]
    split_ifs with ha
    · exact ih
    · refine List.nodup_append.mpr ⟨ih, List.nodup_singleton a, ?_⟩
      rintro b hb c hc rfl
      exact ha (List.mem_singleton.mp hc ▸ List.mem_eraseDups.mp hb)

variable [DecidableEq α]

theorem toFinset_eraseDups (l : List α) : l.eraseDups.toFinset = l.toFinset := by
  ext a
  simp

theorem length_eraseDups (l : List α) : l.eraseDups.length = l.toFinset.card := by
  rw [← toFinset_eraseDups, List.toFinset_card_of_nodup (nodup_eraseDups l)]

/-- An element comes behind the different elements in front of it. -/
theorem getElem?_eraseDups_of_mem (ha : a ∈ l) :
    l.eraseDups[(l.takeWhile (· ≠ a)).toFinset.card]? = some a := by
  obtain ⟨front, back, rfl, hfront⟩ := List.eq_append_cons_of_mem ha
  have hall : ∀ b ∈ front, decide (b ≠ a) = true := by
    intro b hb
    exact decide_eq_true fun heq => hfront (heq ▸ hb)
  have htake : (front ++ a :: back).takeWhile (· ≠ a) = front := by
    rw [List.takeWhile_append_of_pos hall, List.takeWhile_cons_of_neg (by simp), List.append_nil]
  rw [htake, ← length_eraseDups, List.eraseDups_append, List.removeAll,
    List.filter_cons_of_pos (by simpa using hfront), List.eraseDups_cons]
  simp

/-- **The place of an element** is the number of different elements in front of it. -/
theorem getElem?_eraseDups_iff : l.eraseDups[i]? = some a ↔
    a ∈ l ∧ i = (l.takeWhile (· ≠ a)).toFinset.card := by
  constructor
  · intro h
    have ha := List.mem_eraseDups.mp (List.mem_of_getElem? h)
    refine ⟨ha, ?_⟩
    obtain ⟨hi, heq⟩ := List.getElem?_eq_some_iff.mp h
    obtain ⟨hj, heq'⟩ := List.getElem?_eq_some_iff.mp (getElem?_eraseDups_of_mem ha)
    exact (nodup_eraseDups l).getElem_inj_iff.mp (heq.trans heq'.symm)
  · rintro ⟨ha, rfl⟩
    exact getElem?_eraseDups_of_mem ha

end SetQL
