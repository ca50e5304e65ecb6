import Mathlib.Data.List.Basic
import Mathlib.Data.List.TakeWhile

/-!
# Streams of terminated words

A stream of words with a terminator behind each of them is cut into chunks, and of every chunk only
what stands before its first terminator is kept. What is kept are the words exactly when every chunk
is one word with its terminator.

## Main definitions

* `upTo z l`: what stands before the first terminator
* `terminated z words`: the stream of words

## Main results

* `append_eq_terminated`: where a stream of words is cut
* `map_upTo_eq_iff`: when the chunks carry the words
-/

namespace SetQL

section Terminated

variable {α : Type} {z : α} {l u v c w : List α} {words : List (List α)}

/-- The stream of words, each with a terminator behind it. -/
def terminated (z : α) (words : List (List α)) : List α := (words.map (· ++ [z])).flatten

@[simp] theorem terminated_nil : terminated z [] = [] := rfl

@[simp] theorem terminated_cons : terminated z (w :: words) = w ++ z :: terminated z words := by
  simp [terminated]

variable [DecidableEq α]

/-- What stands before the first terminator. -/
def upTo (z : α) (l : List α) : List α := l.takeWhile (· != z)

theorem upTo_eq_self (h : z ∉ l) : upTo z l = l :=
  List.takeWhile_eq_self_iff.mpr fun a ha => by
    rw [bne_iff_ne]
    rintro rfl
    exact h ha

theorem upTo_append_cons (h : z ∉ w) : upTo z (w ++ z :: l) = w := by
  rw [upTo, List.takeWhile_append_of_pos fun a ha => by
    rw [bne_iff_ne]
    rintro rfl
    exact h ha]
  simp

theorem upTo_append_terminator : upTo z (u ++ z :: l) = upTo z u := by
  induction u with
  | nil => simp [upTo]
  | cons a u ih =>
    by_cases ha : a = z
    · simp [upTo, ha]
    · have hcons : ∀ v, upTo z (a :: v) = a :: upTo z v := fun v => by simp [upTo, ha]
      rw [List.cons_append, hcons, hcons, ih]

/-- A cut before the first terminator, or behind it. -/
theorem append_eq_append_cons (h : u ++ v = c ++ z :: l) (hc : z ∉ c) :
    (∃ c', c = u ++ c' ∧ v = c' ++ z :: l ∧ upTo z u = u) ∨
      ∃ u', u = c ++ z :: u' ∧ u' ++ v = l ∧ upTo z u = c := by
  rcases List.append_eq_append_iff.mp h with ⟨c', rfl, hv⟩ | ⟨u', rfl, hl⟩
  · exact Or.inl ⟨c', rfl, hv, upTo_eq_self fun hz => hc (List.mem_append_left _ hz)⟩
  · cases u' with
    | nil =>
      refine Or.inl ⟨[], by simp, by simpa using hl.symm, ?_⟩
      rw [List.append_nil, upTo_eq_self hc]
    | cons a u' =>
      obtain ⟨rfl, rfl⟩ := List.cons.inj hl
      exact Or.inr ⟨u', rfl, rfl, upTo_append_cons hc⟩

/-- **Where a stream of words is cut**: at its end, or in a word, whose rest is then ahead. -/
theorem append_eq_terminated (h : u ++ v = terminated z words) (hz : ∀ w ∈ words, z ∉ w)
    (hu : u ≠ []) : v = [] ∨ ∃ pre w post c, words = pre ++ w :: post ∧ c <:+ w ∧
      v = c ++ z :: terminated z post ∧ (pre ≠ [] ∨ c ≠ w) := by
  induction words generalizing u with
  | nil =>
    rw [terminated_nil, List.append_eq_nil_iff] at h
    exact absurd h.1 hu
  | cons w words ih =>
    rw [terminated_cons] at h
    rcases append_eq_append_cons h (hz w List.mem_cons_self) with ⟨c, rfl, rfl, -⟩ | ⟨u', rfl, hv, -⟩
    · refine Or.inr ⟨[], _, words, c, rfl, List.suffix_append _ _, rfl, Or.inr fun heq => hu ?_⟩
      simpa using heq.symm
    · by_cases hu' : u' = []
      · subst hu'
        cases words with
        | nil => exact Or.inl hv
        | cons w' words =>
          refine Or.inr ⟨[w], w', words, w', rfl, List.suffix_refl _, ?_, Or.inl (by simp)⟩
          rw [← terminated_cons]
          exact hv
      · rcases ih hv (fun w hw => hz w (List.mem_cons_of_mem _ hw)) hu' with
          rfl | ⟨pre, w', post, c, rfl, hc, rfl, -⟩
        · exact Or.inl rfl
        · exact Or.inr ⟨w :: pre, w', post, c, rfl, hc, rfl, Or.inl (by simp)⟩

variable {chunks : List (List α)} {pre post : List (List α)} {q : List α}

/-- Chunks that carry a word are not empty. -/
theorem flatten_ne_nil (h : chunks.map (upTo z) = words) (hw : w ∈ words) (hne : w ≠ []) :
    chunks.flatten ≠ [] := by
  intro hnil
  rw [← h] at hw
  obtain ⟨r, hr, rfl⟩ := List.mem_map.mp hw
  rw [List.flatten_eq_nil_iff.mp hnil r hr] at hne
  exact hne rfl

/-- **A cut in a word is never made up for**: once the chunks are behind the words that they carry,
the last of them would have to carry a word that its stream has only the rest of. -/
theorem map_upTo_ne_of_cut (hq : c <:+ q) (hcut : pre ≠ [] ∨ c ≠ q)
    (hne : ∀ w ∈ pre ++ q :: post, w ≠ []) (hz : ∀ w ∈ pre ++ q :: post, z ∉ w)
    (hstream : chunks.flatten = c ++ z :: terminated z post) :
    chunks.map (upTo z) ≠ pre ++ q :: post := by
  induction chunks generalizing pre q post c with
  | nil => simp at hstream
  | cons r chunks ih =>
    intro hmap
    have hzq := hz q (by simp)
    have hzc : z ∉ c := fun hmem => hzq (hq.subset hmem)
    rw [List.flatten_cons] at hstream
    cases pre with
    | nil =>
      obtain ⟨hr, -⟩ := List.cons.inj hmap
      refine (hcut.resolve_left (not_not_intro rfl)) (hq.eq_of_length_le ?_)
      rw [← hr]
      rcases append_eq_append_cons hstream hzc with ⟨c', rfl, -, heq⟩ | ⟨u', -, -, rfl⟩
      · rw [heq, List.length_append]
        exact Nat.le_add_right _ _
      · exact Nat.le_refl _
    | cons e pre =>
      obtain ⟨hr, htail : chunks.map (upTo z) = pre ++ q :: post⟩ := List.cons.inj hmap
      have hne' : ∀ w ∈ pre ++ q :: post, w ≠ [] := fun w hw => hne w (List.mem_cons_of_mem _ hw)
      have hz' : ∀ w ∈ pre ++ q :: post, z ∉ w := fun w hw => hz w (List.mem_cons_of_mem _ hw)
      rcases append_eq_append_cons hstream hzc with ⟨c', rfl, hrest, heq⟩ | ⟨u', rfl, hrest, -⟩
      · have hnil : r ≠ [] := heq ▸ hr ▸ hne e List.mem_cons_self
        refine ih ((List.suffix_append _ _).trans hq) (Or.inr ?_) hne' hz' hrest htail
        rintro rfl
        have hlength := hq.length_le
        rw [List.length_append] at hlength
        exact hnil (List.length_eq_zero_iff.mp (by omega))
      · have hpost : ∀ w ∈ post, z ∉ w := fun w hw => hz' w (by simp [hw])
        have hend : chunks.flatten ≠ [] := flatten_ne_nil htail (w := q) (by simp) (hne' q (by simp))
        by_cases hu' : u' = []
        · subst hu'
          cases post with
          | nil => exact hend hrest
          | cons p post =>
            rw [List.nil_append, terminated_cons] at hrest
            rw [show pre ++ q :: p :: post = (pre ++ [q]) ++ p :: post by simp] at htail hne' hz'
            exact ih (List.suffix_refl _) (Or.inl (by simp)) hne' hz' hrest htail
        · rcases append_eq_terminated hrest hpost hu' with
            hnil | ⟨pre', p, post, c', rfl, hc', hrest, -⟩
          · exact hend hnil
          · rw [show pre ++ q :: (pre' ++ p :: post) = (pre ++ q :: pre') ++ p :: post by simp]
              at htail hne' hz'
            exact ih hc' (Or.inl (by simp)) hne' hz' hrest htail

/-- **The chunks carry the words exactly when** every chunk is one word with its terminator. -/
theorem map_upTo_eq_iff (hne : ∀ w ∈ words, w ≠ []) (hz : ∀ w ∈ words, z ∉ w)
    (hstream : chunks.flatten = terminated z words) :
    chunks.map (upTo z) = words ↔ chunks = words.map (· ++ [z]) := by
  constructor
  · intro hmap
    induction words generalizing chunks with
    | nil => exact List.map_eq_nil_iff.mp hmap
    | cons q words ih =>
      cases chunks with
      | nil => cases hmap
      | cons r chunks =>
        obtain ⟨hr, htail⟩ := List.cons.inj hmap
        have hne' : ∀ w ∈ words, w ≠ [] := fun w hw => hne w (List.mem_cons_of_mem _ hw)
        have hz' : ∀ w ∈ words, z ∉ w := fun w hw => hz w (List.mem_cons_of_mem _ hw)
        rw [List.flatten_cons, terminated_cons] at hstream
        rcases append_eq_append_cons hstream (hz q List.mem_cons_self) with
          ⟨c, hq, hrest, heq⟩ | ⟨u, rfl, hrest, -⟩
        · -- the terminator is left to the next chunk, which then carries nothing
          obtain rfl : r = q := heq.symm.trans hr
          obtain rfl : c = [] := by simpa using hq
          cases chunks with
          | nil => cases hrest
          | cons r' chunks =>
            rw [List.flatten_cons] at hrest
            refine absurd (?_ : upTo z r' = []) (hne' _ (htail ▸ List.mem_cons_self))
            rcases append_eq_append_cons hrest List.not_mem_nil with ⟨c, hc, -, heq⟩ | ⟨u, -, -, heq⟩
            · rw [heq]
              exact (List.append_eq_nil_iff.mp hc.symm).1
            · exact heq
        · by_cases hu : u = []
          · subst hu
            rw [ih hne' hz' hrest htail, List.map_cons]
          · rcases append_eq_terminated hrest hz' hu with
              hnil | ⟨pre, w, post, c, rfl, hc, hrest', hcut⟩
            · cases words with
              | nil =>
                rw [terminated_nil] at hrest
                exact absurd (List.append_eq_nil_iff.mp hrest).1 hu
              | cons w words =>
                exact absurd hnil (flatten_ne_nil htail List.mem_cons_self (hne' w List.mem_cons_self))
            · exact absurd htail (map_upTo_ne_of_cut hc hcut hne' hz' hrest')
  · rintro rfl
    rw [List.map_map]
    refine (List.map_congr_left fun w hw => ?_).trans (List.map_id words)
    exact upTo_append_cons (hz w hw)

end Terminated

end SetQL
