import SetQL.Base.Bytes
import Mathlib.Data.List.MinMax

/-!
# Regular expressions with groups

The expressions of extended regular expressions over bytes, and the ways they match a string. A
match records the part of the string that each group matched, a later match of a group after an
earlier one. The lengths of all matches from the start of a string are computed, and for each
length the match that gives the earlier parts of the expression as much as possible.

## Main definitions

* `ByteSet`: a bracket expression
* `Regex`: the expressions
* `Parse r i w cs`: `r` matches `w`, which starts at offset `i`, and records the captures `cs`
* `Regex.lens`, `Regex.captures`: the lengths of the matches, and the captures of one
* `Regex.always n r`: every match of `r` captures group `n`

## Main results

* `mem_lens_iff`: the lengths are exactly those of the prefixes that match
* `parse_captures`: the captures computed for a length are those of a match
* `Parse.star_induction`: the rule for repetitions
* `parse_star_set`, `parse_plus_set`, `parse_word`: the matches of runs of bytes and of words
-/

namespace SetQL

/-- The bytes within some ranges, or those outside all of them; possibly in any case. -/
structure ByteSet where
  negated : Bool
  icase : Bool
  ranges : List (UInt8 × UInt8)
  deriving DecidableEq, Repr

namespace ByteSet

/-- A byte within one of the ranges. -/
def inRanges (s : ByteSet) (b : UInt8) : Bool := s.ranges.any fun r => r.1 ≤ b && b ≤ r.2

/-- Membership. -/
def contains (s : ByteSet) (b : UInt8) : Bool :=
  (s.inRanges b || s.icase && (s.inRanges (toLower b) || s.inRanges (toUpper b))) != s.negated

end ByteSet

/-- Expressions. -/
inductive Regex
  | empty
  | set (s : ByteSet)
  | seq (r s : Regex)
  | alt (r s : Regex)
  | star (r : Regex)
  | group (n : ℕ) (r : Regex)
  deriving DecidableEq, Repr

/-- The part of the string that a group matched. -/
structure Capture where
  group : ℕ
  start : ℕ
  stop : ℕ
  deriving DecidableEq, Repr

/-- The matches of an expression. -/
inductive Parse : Regex → ℕ → Bytes → List Capture → Prop
  | empty (i) : Parse .empty i [] []
  | set {s b} (i) (h : s.contains b = true) : Parse (.set s) i [b] []
  | seq {r s i u v c d} (hr : Parse r i u c) (hs : Parse s (i + u.length) v d) :
    Parse (.seq r s) i (u ++ v) (c ++ d)
  | altLeft {r s i w c} (h : Parse r i w c) : Parse (.alt r s) i w c
  | altRight {r s i w c} (h : Parse s i w c) : Parse (.alt r s) i w c
  | starNil (r i) : Parse (.star r) i [] []
  | starCons {r i u v c d} (hu : u ≠ []) (hr : Parse r i u c)
    (hs : Parse (.star r) (i + u.length) v d) : Parse (.star r) i (u ++ v) (c ++ d)
  | group {r i w c} (n) (h : Parse r i w c) :
    Parse (.group n r) i w (c ++ [⟨n, i, i + w.length⟩])

namespace Regex

/-- One or more matches. -/
def plus (r : Regex) : Regex := .seq r (.star r)

/-- One match or none. -/
def opt (r : Regex) : Regex := .alt r .empty

/-- The bytes of a word, in any case if `icase` is set, and then an expression. -/
def word (icase : Bool) (bs : Bytes) (r : Regex) : Regex :=
  bs.foldr (fun b r => .seq (.set ⟨false, icase, [(b, b)]⟩) r) r

/-- The lengths of the repetitions of an expression whose lengths are `f`, each match of which is
not empty. -/
def starLens (f : Bytes → List ℕ) : ℕ → Bytes → List ℕ
  | 0, _ => [0]
  | fuel + 1, w =>
    0 :: ((f w).filter (0 < ·)).flatMap fun k => (starLens f fuel (w.drop k)).map (k + ·)

/-- The lengths of the prefixes of a string that match. -/
def lens : Regex → Bytes → List ℕ
  | empty, _ => [0]
  | set _, [] => []
  | set s, b :: _ => if s.contains b then [1] else []
  | seq r s, w => (r.lens w).flatMap fun k => (s.lens (w.drop k)).map (k + ·)
  | alt r s, w => r.lens w ++ s.lens w
  | star r, w => starLens r.lens w.length w
  | group _ r, w => r.lens w

/-- The longest first part, of those whose rest can be matched. -/
def longest (first : List ℕ) (rest : ℕ → List ℕ) (k : ℕ) : ℕ :=
  ((first.filter fun j => j ≤ k && (rest j).contains (k - j)).max?).getD 0

/-- The captures of a repetition of length `k`, each match of which is as long as possible. -/
def starCaptures (f : Bytes → List ℕ) (g : ℕ → Bytes → ℕ → List Capture) :
    ℕ → ℕ → Bytes → ℕ → List Capture
  | 0, _, _, _ => []
  | fuel + 1, i, w, k =>
    if k = 0 then []
    else
      let j := longest ((f w).filter (0 < ·)) (fun j => starLens f fuel (w.drop j)) k
      g i w j ++ starCaptures f g fuel (i + j) (w.drop j) (k - j)

/-- The captures of the match of length `k`, from offset `i`. -/
def captures : Regex → ℕ → Bytes → ℕ → List Capture
  | empty, _, _, _ => []
  | set _, _, _, _ => []
  | seq r s, i, w, k =>
    let j := longest (r.lens w) (fun j => s.lens (w.drop j)) k
    r.captures i w j ++ s.captures (i + j) (w.drop j) (k - j)
  | alt r s, i, w, k => if (r.lens w).contains k then r.captures i w k else s.captures i w k
  | star r, i, w, k => starCaptures r.lens r.captures w.length i w k
  | group n r, i, w, k => r.captures i w k ++ [⟨n, i, i + k⟩]

end Regex

/-! ## Matches by the shape of the expression -/

section Shape

variable {r s : Regex} {i n : ℕ} {w : Bytes} {cs : List Capture} {x : ByteSet}

theorem parse_empty : Parse .empty i w cs ↔ w = [] ∧ cs = [] := by
  constructor
  · rintro ⟨⟩
    exact ⟨rfl, rfl⟩
  · rintro ⟨rfl, rfl⟩
    exact .empty i

theorem parse_set : Parse (.set x) i w cs ↔ ∃ b, x.contains b = true ∧ w = [b] ∧ cs = [] := by
  constructor
  · rintro ⟨⟩
    exact ⟨_, ‹_›, rfl, rfl⟩
  · rintro ⟨b, hb, rfl, rfl⟩
    exact .set i hb

theorem parse_seq : Parse (.seq r s) i w cs ↔
    ∃ u v c d, w = u ++ v ∧ cs = c ++ d ∧ Parse r i u c ∧ Parse s (i + u.length) v d := by
  constructor
  · rintro ⟨⟩
    exact ⟨_, _, _, _, rfl, rfl, ‹_›, ‹_›⟩
  · rintro ⟨u, v, c, d, rfl, rfl, hr, hs⟩
    exact .seq hr hs

theorem parse_alt : Parse (.alt r s) i w cs ↔ Parse r i w cs ∨ Parse s i w cs := by
  constructor
  · rintro ⟨⟩
    · exact Or.inl ‹_›
    · exact Or.inr ‹_›
  · rintro (h | h)
    · exact .altLeft h
    · exact .altRight h

theorem parse_group : Parse (.group n r) i w cs ↔
    ∃ c, cs = c ++ [⟨n, i, i + w.length⟩] ∧ Parse r i w c := by
  constructor
  · rintro ⟨⟩
    exact ⟨_, rfl, ‹_›⟩
  · rintro ⟨c, rfl, h⟩
    exact .group n h

/-- A repetition is empty, or starts with a match that is not. -/
theorem parse_star : Parse (.star r) i w cs ↔ (w = [] ∧ cs = []) ∨
    ∃ u v c d, w = u ++ v ∧ cs = c ++ d ∧ u ≠ [] ∧ Parse r i u c ∧
      Parse (.star r) (i + u.length) v d := by
  constructor
  · rintro ⟨⟩
    · exact Or.inl ⟨rfl, rfl⟩
    · exact Or.inr ⟨_, _, _, _, rfl, rfl, ‹_›, ‹_›, ‹_›⟩
  · rintro (⟨rfl, rfl⟩ | ⟨u, v, c, d, rfl, rfl, hu, hr, hs⟩)
    · exact .starNil r i
    · exact .starCons hu hr hs

/-- What holds of the empty string, and is kept by one more match in front, holds of every
repetition. -/
theorem Parse.star_induction {P : Bytes → Prop} (h : Parse (.star r) i w cs) (hnil : P [])
    (hcons : ∀ {i u c v}, Parse r i u c → P v → P (u ++ v)) : P w := by
  generalize hstar : Regex.star r = q at h
  induction h with
  | starNil => exact hnil
  | starCons _ hr _ _ ih =>
    obtain rfl := Regex.star.inj hstar
    exact hcons hr (ih rfl)
  | empty | set | seq | altLeft | altRight | group => cases hstar

/-- A run of bytes. -/
theorem parse_star_set : Parse (.star (.set x)) i w cs ↔
    (∀ b ∈ w, x.contains b = true) ∧ cs = [] := by
  induction w generalizing i cs with
  | nil =>
    rw [parse_star]
    simp
  | cons b w ih =>
    rw [parse_star]
    constructor
    · rintro (⟨h, -⟩ | ⟨u, v, c, d, hw, rfl, -, hr, hs⟩)
      · exact absurd h (List.cons_ne_nil _ _)
      · obtain ⟨b', hb', rfl, rfl⟩ := parse_set.mp hr
        obtain ⟨rfl, rfl⟩ := List.cons.inj hw
        obtain ⟨hall, rfl⟩ := ih.mp hs
        exact ⟨List.forall_mem_cons.mpr ⟨hb', hall⟩, rfl⟩
    · rintro ⟨hall, rfl⟩
      obtain ⟨hb, hall⟩ := List.forall_mem_cons.mp hall
      exact Or.inr ⟨[b], w, [], [], rfl, rfl, List.cons_ne_nil _ _, .set i hb, ih.mpr ⟨hall, rfl⟩⟩

/-- A run of at least one byte. -/
theorem parse_plus_set : Parse (.plus (.set x)) i w cs ↔
    w ≠ [] ∧ (∀ b ∈ w, x.contains b = true) ∧ cs = [] := by
  rw [Regex.plus, parse_seq]
  constructor
  · rintro ⟨u, v, c, d, rfl, rfl, hr, hs⟩
    obtain ⟨b, hb, rfl, rfl⟩ := parse_set.mp hr
    obtain ⟨hall, rfl⟩ := parse_star_set.mp hs
    exact ⟨by simp, List.forall_mem_cons.mpr ⟨hb, hall⟩, rfl⟩
  · rintro ⟨hw, hall, rfl⟩
    obtain ⟨b, w, rfl⟩ := List.exists_cons_of_ne_nil hw
    obtain ⟨hb, hall⟩ := List.forall_mem_cons.mp hall
    exact ⟨[b], w, [], [], rfl, rfl, .set i hb, parse_star_set.mpr ⟨hall, rfl⟩⟩

/-- A byte or none. -/
theorem parse_opt_set : Parse (.opt (.set x)) i w cs ↔
    (w = [] ∨ ∃ b, x.contains b = true ∧ w = [b]) ∧ cs = [] := by
  rw [Regex.opt, parse_alt, parse_set, parse_empty, or_and_right, or_comm]
  apply or_congr_right
  constructor
  · rintro ⟨b, hb, hw, hcs⟩
    exact ⟨⟨b, hb, hw⟩, hcs⟩
  · rintro ⟨⟨b, hb, hw⟩, hcs⟩
    exact ⟨b, hb, hw, hcs⟩

/-- A word and then a match. -/
theorem parse_word {icase : Bool} {bs : Bytes} : Parse (.word icase bs r) i w cs ↔
    ∃ u v, w = u ++ v ∧ List.Forall₂ (fun b c => (⟨false, icase, [(c, c)]⟩ : ByteSet).contains b = true)
      u bs ∧ Parse r (i + u.length) v cs := by
  induction bs generalizing i w with
  | nil =>
    rw [Regex.word, List.foldr_nil]
    constructor
    · intro h
      exact ⟨[], w, rfl, .nil, h⟩
    · rintro ⟨u, v, rfl, ⟨⟩, h⟩
      exact h
  | cons c bs ih =>
    rw [Regex.word, List.foldr_cons, ← Regex.word, parse_seq]
    constructor
    · rintro ⟨u, v, c', d, rfl, rfl, hset, hrest⟩
      obtain ⟨b, hb, rfl, rfl⟩ := parse_set.mp hset
      obtain ⟨u', v', rfl, hall, hr⟩ := ih.mp hrest
      refine ⟨b :: u', v', rfl, .cons hb hall, ?_⟩
      rwa [Nat.add_assoc, ← List.length_append] at hr
    · rintro ⟨_, v, rfl, ⟨⟩, hr⟩
      rename_i b u hb hall
      refine ⟨[b], u ++ v, [], cs, rfl, rfl, .set i hb, ih.mpr ⟨u, v, rfl, hall, ?_⟩⟩
      rwa [Nat.add_assoc, ← List.length_append]

/-- The groups of an expression. -/
def Regex.groups : Regex → List ℕ
  | empty | set _ => []
  | seq r s | alt r s => r.groups ++ s.groups
  | star r => r.groups
  | group n r => n :: r.groups

/-- Only the groups of an expression are captured. -/
theorem Parse.mem_groups (h : Parse r i w cs) : ∀ c ∈ cs, c.group ∈ r.groups := by
  induction h with
  | empty | set | starNil => simp
  | seq _ _ ihr ihs =>
    intro c hc
    rcases List.mem_append.mp hc with hc | hc
    · exact List.mem_append_left _ (ihr c hc)
    · exact List.mem_append_right _ (ihs c hc)
  | altLeft _ ih => exact fun c hc => List.mem_append_left _ (ih c hc)
  | altRight _ ih => exact fun c hc => List.mem_append_right _ (ih c hc)
  | starCons _ _ _ ihr ihs =>
    intro c hc
    rcases List.mem_append.mp hc with hc | hc
    · exact ihr c hc
    · exact ihs c hc
  | group n _ ih =>
    intro c hc
    rcases List.mem_append.mp hc with hc | hc
    · exact List.mem_cons_of_mem _ (ih c hc)
    · obtain rfl := List.mem_singleton.mp hc
      exact List.mem_cons_self

/-- The captures lie within the match. -/
theorem Parse.capture_bounds (h : Parse r i w cs) :
    ∀ c ∈ cs, i ≤ c.start ∧ c.start ≤ c.stop ∧ c.stop ≤ i + w.length := by
  induction h with
  | empty | set | starNil => simp
  | seq _ _ ihr ihs =>
    intro c hc
    rw [List.length_append]
    rcases List.mem_append.mp hc with hc | hc
    · have := ihr c hc
      omega
    · have := ihs c hc
      omega
  | altLeft _ ih => exact ih
  | altRight _ ih => exact ih
  | starCons _ _ _ ihr ihs =>
    intro c hc
    rw [List.length_append]
    rcases List.mem_append.mp hc with hc | hc
    · have := ihr c hc
      omega
    · have := ihs c hc
      omega
  | group n _ ih =>
    intro c hc
    rcases List.mem_append.mp hc with hc | hc
    · exact ih c hc
    · obtain rfl := List.mem_singleton.mp hc
      exact ⟨le_rfl, Nat.le_add_right _ _, le_rfl⟩

/-- Whether every match of an expression captures a group. -/
def Regex.always (n : ℕ) : Regex → Bool
  | empty | set _ | star _ => false
  | seq r s => r.always n || s.always n
  | alt r s => r.always n && s.always n
  | group m r => m == n || r.always n

theorem Parse.exists_capture (h : Parse r i w cs) (hn : r.always n = true) :
    ∃ c ∈ cs, c.group = n := by
  induction h with
  | empty | set | starNil | starCons => exact absurd hn Bool.false_ne_true
  | seq _ _ ihr ihs =>
    rcases (Bool.or_eq_true _ _).mp hn with hn | hn
    · obtain ⟨c, hc, hcn⟩ := ihr hn
      exact ⟨c, List.mem_append_left _ hc, hcn⟩
    · obtain ⟨c, hc, hcn⟩ := ihs hn
      exact ⟨c, List.mem_append_right _ hc, hcn⟩
  | altLeft _ ih => exact ih ((Bool.and_eq_true _ _).mp hn).1
  | altRight _ ih => exact ih ((Bool.and_eq_true _ _).mp hn).2
  | group m _ ih =>
    rcases (Bool.or_eq_true _ _).mp hn with hn | hn
    · exact ⟨_, List.mem_append_right _ List.mem_cons_self, beq_iff_eq.mp hn⟩
    · obtain ⟨c, hc, hcn⟩ := ih hn
      exact ⟨c, List.mem_append_left _ hc, hcn⟩

end Shape

/-! ## The matches computed -/

section Lens

variable {w : Bytes} {i k : ℕ}

/-- A prefix is cut in two where its first part ends. -/
theorem take_eq_append_iff {u v : Bytes} (hk : k ≤ w.length) :
    w.take k = u ++ v ↔ u.length ≤ k ∧ u = w.take u.length ∧
      v = (w.drop u.length).take (k - u.length) := by
  constructor
  · intro h
    have hlen := congrArg List.length h
    rw [List.length_take, Nat.min_eq_left hk, List.length_append] at hlen
    have hu : u = (w.take k).take u.length := by rw [h, List.take_left]
    have hv : v = (w.take k).drop u.length := by rw [h, List.drop_left]
    rw [List.take_take, Nat.min_eq_left (by omega)] at hu
    rw [List.drop_take] at hv
    exact ⟨by omega, hu, hv⟩
  · rintro ⟨hle, hu, hv⟩
    rw [hv]
    nth_rewrite 1 [hu]
    rw [← List.take_add, Nat.add_sub_cancel' hle]

/-- The lengths of a match of one kind followed by a match of another. -/
theorem mem_flatMap_lens_iff {f g : Bytes → List ℕ} {P Q : ℕ → Bytes → Prop}
    (hf : ∀ j, j ∈ f w ↔ j ≤ w.length ∧ P i (w.take j))
    (hg : ∀ j ∈ f w, ∀ k, k ∈ g (w.drop j) ↔
      k ≤ (w.drop j).length ∧ Q (i + j) ((w.drop j).take k)) :
    (k ∈ (f w).flatMap fun j => (g (w.drop j)).map (j + ·)) ↔
      k ≤ w.length ∧ ∃ u v, w.take k = u ++ v ∧ P i u ∧ Q (i + u.length) v := by
  simp only [List.mem_flatMap, List.mem_map]
  constructor
  · rintro ⟨j, hj, k', hk', rfl⟩
    obtain ⟨hjle, hP⟩ := (hf j).mp hj
    obtain ⟨hk'le, hQ⟩ := (hg j hj k').mp hk'
    rw [List.length_drop] at hk'le
    have hlen : (w.take j).length = j := by rw [List.length_take, Nat.min_eq_left hjle]
    exact ⟨by omega, w.take j, (w.drop j).take k', List.take_add, hP, by rw [hlen]; exact hQ⟩
  · rintro ⟨hk, u, v, hw, hP, hQ⟩
    obtain ⟨hle, hu, hv⟩ := (take_eq_append_iff hk).mp hw
    have hj : u.length ∈ f w := (hf _).mpr ⟨by omega, hu ▸ hP⟩
    refine ⟨u.length, hj, k - u.length, (hg _ hj _).mpr ⟨?_, hv ▸ hQ⟩, by omega⟩
    rw [List.length_drop]
    omega

theorem exists_parse_star {r : Regex} : (∃ cs, Parse (.star r) i w cs) ↔ w = [] ∨
    ∃ u v, w = u ++ v ∧ (u ≠ [] ∧ ∃ c, Parse r i u c) ∧ ∃ d, Parse (.star r) (i + u.length) v d := by
  constructor
  · rintro ⟨cs, h⟩
    rcases parse_star.mp h with ⟨hw, -⟩ | ⟨u, v, c, d, hw, -, hu, hr, hs⟩
    · exact Or.inl hw
    · exact Or.inr ⟨u, v, hw, ⟨hu, c, hr⟩, d, hs⟩
  · rintro (rfl | ⟨u, v, rfl, ⟨hu, c, hr⟩, d, hs⟩)
    · exact ⟨[], .starNil r i⟩
    · exact ⟨c ++ d, .starCons hu hr hs⟩

theorem mem_starLens_iff {r : Regex}
    (hr : ∀ w i k, k ∈ r.lens w ↔ k ≤ w.length ∧ ∃ cs, Parse r i (w.take k) cs) :
    ∀ (fuel : ℕ) (w : Bytes) (i k : ℕ), w.length ≤ fuel →
      (k ∈ Regex.starLens r.lens fuel w ↔ k ≤ w.length ∧ ∃ cs, Parse (.star r) i (w.take k) cs) := by
  intro fuel
  induction fuel with
  | zero =>
    intro w i k hw
    obtain rfl := List.length_eq_zero_iff.mp (Nat.le_zero.mp hw)
    simp only [Regex.starLens, List.mem_singleton, List.length_nil, Nat.le_zero, List.take_nil]
    exact (and_iff_left ⟨[], .starNil r i⟩).symm
  | succ fuel ih =>
    intro w i k hw
    have htake : ∀ j ≤ w.length, w.take j = [] ↔ j = 0 := fun j hj => by
      rw [← List.length_eq_zero_iff, List.length_take, Nat.min_eq_left hj]
    have hstep := mem_flatMap_lens_iff (w := w) (i := i) (k := k)
      (f := fun w => (r.lens w).filter (0 < ·)) (g := Regex.starLens r.lens fuel)
      (P := fun i u => u ≠ [] ∧ ∃ cs, Parse r i u cs) (Q := fun i v => ∃ cs, Parse (.star r) i v cs)
      (fun j => by
        rw [List.mem_filter, hr w i j, decide_eq_true_iff, and_assoc]
        refine and_congr_right fun hj => ?_
        rw [and_comm, ne_eq, htake j hj, Nat.pos_iff_ne_zero])
      (fun j hj k => by
        -- a match that is repeated is not empty, so the fuel suffices for the rest
        have hpos : 0 < j := by simpa using (List.mem_filter.mp hj).2
        exact ih _ (i + j) k (by rw [List.length_drop]; omega))
    rw [Regex.starLens, List.mem_cons, hstep, exists_parse_star, and_or_left]
    apply or_congr_left
    constructor
    · rintro rfl
      exact ⟨Nat.zero_le _, rfl⟩
    · rintro ⟨hk, h⟩
      exact (htake k hk).mp h

/-- **The lengths computed are exactly those of the prefixes that match.** -/
theorem mem_lens_iff {r : Regex} :
    k ∈ r.lens w ↔ k ≤ w.length ∧ ∃ cs, Parse r i (w.take k) cs := by
  induction r generalizing w i k with
  | empty =>
    simp only [Regex.lens, List.mem_singleton, parse_empty, List.take_eq_nil_iff]
    constructor
    · rintro rfl
      exact ⟨Nat.zero_le _, [], Or.inl rfl, rfl⟩
    · rintro ⟨hk, -, rfl | rfl, -⟩
      · rfl
      · exact Nat.le_zero.mp hk
  | set s =>
    cases w with
    | nil =>
      simp only [Regex.lens, parse_set, List.take_nil]
      simp
    | cons b w =>
      simp only [Regex.lens, parse_set]
      constructor
      · intro h
        split_ifs at h with hb
        · obtain rfl := List.mem_singleton.mp h
          exact ⟨by simp, [], b, hb, rfl, rfl⟩
        · exact absurd h List.not_mem_nil
      · rintro ⟨hk, cs, b', hb', hw, -⟩
        have hlen := congrArg List.length hw
        rw [List.length_take, Nat.min_eq_left hk, List.length_singleton] at hlen
        subst hlen
        obtain rfl : b = b' := by simpa using hw
        rw [if_pos hb']
        exact List.mem_singleton_self 1
  | seq r s ihr ihs =>
    rw [Regex.lens, mem_flatMap_lens_iff (i := i) (P := fun i u => ∃ c, Parse r i u c)
      (Q := fun i v => ∃ d, Parse s i v d) (fun j => ihr) fun j _ k => ihs]
    refine and_congr_right fun _ => ?_
    simp only [parse_seq]
    constructor
    · rintro ⟨u, v, hw, ⟨c, hr⟩, d, hs⟩
      exact ⟨c ++ d, u, v, c, d, hw, rfl, hr, hs⟩
    · rintro ⟨-, u, v, c, d, hw, -, hr, hs⟩
      exact ⟨u, v, hw, ⟨c, hr⟩, d, hs⟩
  | alt r s ihr ihs =>
    rw [Regex.lens, List.mem_append, ihr (i := i), ihs (i := i), ← and_or_left]
    refine and_congr_right fun _ => ?_
    simp only [parse_alt, exists_or]
  | star r ih => exact mem_starLens_iff (fun w i k => ih) w.length w i k le_rfl
  | group n r ih =>
    rw [Regex.lens, ih (i := i)]
    refine and_congr_right fun _ => ?_
    simp only [parse_group]
    constructor
    · rintro ⟨c, h⟩
      exact ⟨_, c, rfl, h⟩
    · rintro ⟨-, c, -, h⟩
      exact ⟨c, h⟩

/-- The longest first part is one whose rest can be matched. -/
theorem longest_spec {first : List ℕ} {rest : ℕ → List ℕ}
    (h : k ∈ first.flatMap fun j => (rest j).map (j + ·)) :
    Regex.longest first rest k ∈ first ∧ Regex.longest first rest k ≤ k ∧
      k - Regex.longest first rest k ∈ rest (Regex.longest first rest k) := by
  obtain ⟨j, hj, k', hk', rfl⟩ : ∃ j ∈ first, ∃ k' ∈ rest j, j + k' = k := by
    simpa only [List.mem_flatMap, List.mem_map] using h
  set cut := first.filter fun j' => decide (j' ≤ j + k') && (rest j').contains (j + k' - j') with hcut
  have hmem : j ∈ cut := by
    rw [hcut, List.mem_filter]
    simpa [hj] using hk'
  obtain ⟨m, hm⟩ : ∃ m, cut.max? = some m :=
    Option.ne_none_iff_exists'.mp (mt List.max?_eq_none_iff.mp (List.ne_nil_of_mem hmem))
  have hlongest : Regex.longest first rest (j + k') = m := by
    rw [Regex.longest, ← hcut, hm]
    rfl
  have hmcut : m ∈ cut := List.max?_mem hm
  rw [hcut, List.mem_filter] at hmcut
  rw [hlongest]
  simpa using hmcut

theorem parse_starCaptures {r : Regex}
    (hr : ∀ w i k, k ∈ r.lens w → Parse r i (w.take k) (r.captures i w k)) :
    ∀ (fuel : ℕ) (w : Bytes) (i k : ℕ), w.length ≤ fuel → k ∈ Regex.starLens r.lens fuel w →
      Parse (.star r) i (w.take k) (Regex.starCaptures r.lens r.captures fuel i w k) := by
  intro fuel
  induction fuel with
  | zero =>
    intro w i k hw hk
    obtain rfl := List.mem_singleton.mp hk
    exact .starNil r i
  | succ fuel ih =>
    intro w i k hw hk
    rw [Regex.starCaptures]
    split
    · rename_i h
      subst h
      exact .starNil r i
    · rename_i h
      rw [Regex.starLens, List.mem_cons] at hk
      obtain ⟨hj, hle, hrest⟩ := longest_spec (hk.resolve_left h)
      set j := Regex.longest ((r.lens w).filter (0 < ·))
        (fun j => Regex.starLens r.lens fuel (w.drop j)) k
      obtain ⟨hlens, hpos⟩ := List.mem_filter.mp hj
      have hpos : 0 < j := by simpa using hpos
      have hjw := (mem_lens_iff (i := i)).mp hlens |>.1
      have hlen : (w.take j).length = j := by rw [List.length_take, Nat.min_eq_left hjw]
      have htail := ih (w.drop j) (i + j) (k - j) (by rw [List.length_drop]; omega) hrest
      have hhead := hr w i j hlens
      rw [← Nat.add_sub_cancel' hle, List.take_add, Nat.add_sub_cancel' hle]
      refine .starCons (fun hnil => ?_) hhead (by rw [hlen]; exact htail)
      rw [hnil, List.length_nil] at hlen
      omega

/-- **The captures computed for the length of a match are those of a match.** -/
theorem parse_captures {r : Regex} (h : k ∈ r.lens w) : Parse r i (w.take k) (r.captures i w k) := by
  induction r generalizing w i k with
  | empty =>
    obtain rfl := List.mem_singleton.mp h
    exact .empty i
  | set s =>
    obtain ⟨-, cs, hp⟩ := (mem_lens_iff (i := i)).mp h
    obtain ⟨b, hb, hw, -⟩ := parse_set.mp hp
    rw [hw]
    exact .set i hb
  | seq r s ihr ihs =>
    obtain ⟨hj, hle, hrest⟩ := longest_spec h
    rw [Regex.captures]
    set j := Regex.longest (r.lens w) (fun j => s.lens (w.drop j)) k
    have hjw := (mem_lens_iff (i := i)).mp hj |>.1
    have hlen : (w.take j).length = j := by rw [List.length_take, Nat.min_eq_left hjw]
    rw [← Nat.add_sub_cancel' hle, List.take_add, Nat.add_sub_cancel' hle]
    exact .seq (ihr hj) (by rw [hlen]; exact ihs hrest)
  | alt r s ihr ihs =>
    rw [Regex.captures]
    split
    · rename_i hr
      exact .altLeft (ihr (List.contains_iff_mem.mp hr))
    · rename_i hr
      have hs := (List.mem_append.mp h).resolve_left (mt List.contains_iff_mem.mpr hr)
      exact .altRight (ihs hs)
  | star r ih => exact parse_starCaptures (fun w i k => ih) w.length w i k le_rfl h
  | group n r ih =>
    have hk := (mem_lens_iff (i := i)).mp h |>.1
    rw [Regex.captures]
    have := Parse.group n (ih (i := i) h)
    rwa [List.length_take, Nat.min_eq_left hk] at this

end Lens

end SetQL
