import Mathlib.Data.List.Nodup

/-!
# Bounded maps in the order of insertion

A map of at most a given number of keys. A new key goes behind the others while there is room, and
is dropped when there is none.

## Main definitions

* `BoundedMap K V`, `BoundedMap.get?`, `BoundedMap.insert`: the maps and their operations
* `BoundedMap.inserts`, `BoundedMap.Fresh`: a run of insertions, each of a new key

## Main results

* `entries_insert`: the entries after an insertion are those that fit
* `entries_inserts`: a run of insertions keeps the first ones that fit, in their order
-/

namespace SetQL

/-- At most `capacity` entries under distinct keys, in the order of their insertion. -/
structure BoundedMap (K V : Type*) where
  capacity : ℕ
  entries : List (K × V)
  length_le : entries.length ≤ capacity
  nodup : (entries.map Prod.fst).Nodup

namespace BoundedMap

variable {K V : Type*} {m : BoundedMap K V} {k : K} {v : V} {l : List (K × V)}

/-- The keys, in the order of their insertion. -/
def keys (m : BoundedMap K V) : List K := m.entries.map Prod.fst

/-- No keys, and room for `capacity` of them. -/
def empty (capacity : ℕ) : BoundedMap K V := ⟨capacity, [], Nat.zero_le _, List.nodup_nil⟩

variable [DecidableEq K]

/-- The value of a key. -/
def get? (m : BoundedMap K V) (k : K) : Option V :=
  (m.entries.find? fun e => e.1 = k).map Prod.snd

/-- A new key is added behind the others while there is room. -/
def insert (m : BoundedMap K V) (k : K) (v : V) : BoundedMap K V :=
  if h : k ∉ m.keys ∧ m.entries.length < m.capacity then
    ⟨m.capacity, m.entries ++ [(k, v)], by
      rw [List.length_append]
      exact h.2, by
      rw [List.map_append]
      exact m.nodup.append (List.nodup_singleton k) (List.disjoint_singleton.mpr h.1)⟩
  else m

/-- A run of insertions. -/
def inserts (m : BoundedMap K V) (l : List (K × V)) : BoundedMap K V :=
  l.foldl (fun m e => m.insert e.1 e.2) m

/-- Every key is new when it is inserted. -/
def Fresh : BoundedMap K V → List (K × V) → Prop
  | _, [] => True
  | m, e :: l => e.1 ∉ m.keys ∧ Fresh (m.insert e.1 e.2) l

/-! ## Insertions -/

@[simp] theorem capacity_insert : (m.insert k v).capacity = m.capacity := by
  unfold insert
  split <;> rfl

theorem insert_of_full (h : m.capacity ≤ m.entries.length) : m.insert k v = m :=
  dif_neg fun hroom => absurd hroom.2 (Nat.not_lt.mpr h)

theorem entries_insert_of_room (h : k ∉ m.keys) (hroom : m.entries.length < m.capacity) :
    (m.insert k v).entries = m.entries ++ [(k, v)] := by
  rw [insert, dif_pos ⟨h, hroom⟩]

/-- The entries after an insertion are those that fit. -/
theorem entries_insert (h : k ∉ m.keys) :
    (m.insert k v).entries = (m.entries ++ [(k, v)]).take m.capacity := by
  rcases Nat.lt_or_ge m.entries.length m.capacity with hroom | hfull
  · rw [entries_insert_of_room h hroom, List.take_of_length_le]
    rw [List.length_append]
    exact hroom
  · rw [insert_of_full hfull, List.take_append_of_le_length hfull,
      List.take_of_length_le m.length_le]

@[simp] theorem capacity_inserts : (m.inserts l).capacity = m.capacity := by
  induction l generalizing m with
  | nil => rfl
  | cons e l ih => exact (ih (m := m.insert e.1 e.2)).trans capacity_insert

theorem take_take_append {α : Type*} (n : ℕ) (l₁ l₂ : List α) :
    (l₁.take n ++ l₂).take n = (l₁ ++ l₂).take n := by
  rcases Nat.le_total l₁.length n with hle | hge
  · rw [List.take_of_length_le hle]
  · have hlen : n ≤ (l₁.take n).length :=
      Nat.le_of_eq (List.length_take_of_le hge).symm
    rw [List.take_append_of_le_length hge, List.take_append_of_le_length hlen, List.take_take,
      Nat.min_self]

/-- **A run of insertions keeps the first ones that fit**, in their order. -/
theorem entries_inserts (h : m.Fresh l) :
    (m.inserts l).entries = (m.entries ++ l).take m.capacity := by
  induction l generalizing m with
  | nil =>
    rw [List.append_nil, List.take_of_length_le m.length_le]
    rfl
  | cons e l ih =>
    -- what an insertion drops would be dropped at the end
    calc (m.inserts (e :: l)).entries
        = ((m.insert e.1 e.2).entries ++ l).take (m.insert e.1 e.2).capacity := ih h.2
      _ = ((m.entries ++ [e]).take m.capacity ++ l).take m.capacity := by
          rw [entries_insert h.1, capacity_insert]
      _ = (m.entries ++ e :: l).take m.capacity := by
          rw [take_take_append, List.append_assoc, List.singleton_append]

end BoundedMap

end SetQL
