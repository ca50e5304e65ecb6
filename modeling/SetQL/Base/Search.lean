import SetQL.Base.Posix

/-!
# Searching shifted strings

The matches of an expression do not depend on where the string starts, so the search in a string
with one more byte in front finds the same match one byte later, unless a match starts with the
byte. An expression that skips white space and cannot start with it reads the same behind any
white space.

## Main definitions

* `Capture.shift`: a capture some bytes later
* `skip x r`: any bytes of a set, and then an expression

## Main results

* `regexec_of_parse`: a match at the start of the string is found there
* `captures_shift`: the captures of a match do not depend on the offset
* `regexec_cons_skip`: a search that skips a byte
-/

namespace SetQL

/-- A capture some bytes later. -/
def Capture.shift (d : ℕ) (c : Capture) : Capture := ⟨c.group, c.start + d, c.stop + d⟩

/-- Any bytes of a set, and then an expression. -/
def skip (x : ByteSet) (r : Regex) : Regex := .seq (.star (.set x)) r

/-- A match some bytes later; one at the start of the string still starts there. -/
def RegMatch.shift (d : ℕ) (m : RegMatch) : RegMatch :=
  ⟨if m.start = 0 then 0 else m.start + d, m.stop + d, m.captures.map (Capture.shift d)⟩

/-! ## The start of the string -/

section Start

variable {p : Pattern} {w : Bytes} {cs : List Capture}

/-- **A match at the start of the string is found there**, and the one found is as long. -/
theorem regexec_of_parse (rest : Bytes) (heol : p.eol = false) (h : Parse p.body 0 w cs) :
    ∃ m w' rest', regexec p (w ++ rest) = some m ∧ m.start = 0 ∧ m.stop = w'.length ∧
      w ++ rest = w' ++ rest' ∧ w.length ≤ w'.length ∧ Parse p.body 0 w' m.captures := by
  have hlens : w.length ∈ p.body.lens (w ++ rest) :=
    (mem_lens_iff (i := 0)).mpr ⟨by simp, cs, by rwa [List.take_left]⟩
  obtain ⟨k, hk⟩ : ∃ k, (p.body.lens (w ++ rest)).max? = some k :=
    Option.ne_none_iff_exists'.mp (mt List.max?_eq_none_iff.mp (List.ne_nil_of_mem hlens))
  obtain ⟨hmem, hmax⟩ := List.max?_eq_some_iff.mp hk
  have hat : matchAt p (w ++ rest) 0 = some ⟨0, k, p.body.captures 0 (w ++ rest) k⟩ := by
    rw [matchAt, List.drop_zero, List.filter_eq_self.mpr (by simp [heol]), hk, Option.map_some,
      Nat.zero_add]
  have hsearch : regexec p (w ++ rest) = some ⟨0, k, p.body.captures 0 (w ++ rest) k⟩ := by
    rw [regexec]
    split_ifs
    · rw [List.findSome?_cons, hat]
    · rw [List.range_succ_eq_map, List.findSome?_cons, hat]
  have hle : k ≤ (w ++ rest).length := ((mem_lens_iff (i := 0)).mp hmem).1
  have hlen : ((w ++ rest).take k).length = k := by rw [List.length_take, Nat.min_eq_left hle]
  exact ⟨_, (w ++ rest).take k, (w ++ rest).drop k, hsearch, rfl, hlen.symm,
    (List.take_append_drop k _).symm, hlen.symm ▸ hmax _ hlens, parse_captures hmem⟩

/-- **A match anywhere is enough** for an expression that is not anchored. -/
theorem regexec_ne_none {pre : Bytes} (rest : Bytes) (hbol : p.bol = false)
    (heol : p.eol = false) (h : Parse p.body pre.length w cs) : regexec p (pre ++ (w ++ rest)) ≠ none := by
  have hlens : w.length ∈ p.body.lens (w ++ rest) :=
    (mem_lens_iff (i := pre.length)).mpr ⟨by simp, cs, by rwa [List.take_left]⟩
  intro hnone
  rw [regexec, hbol, if_neg Bool.false_ne_true, List.findSome?_eq_none_iff] at hnone
  have hat := hnone pre.length (List.mem_range.mpr (by simp only [List.length_append]; omega))
  rw [matchAt, List.drop_left, List.filter_eq_self.mpr (by simp [heol]), Option.map_eq_none_iff,
    List.max?_eq_none_iff] at hat
  exact absurd hat (List.ne_nil_of_mem hlens)

end Start

/-! ## Captures -/

section Captures

variable {r : Regex} {x : ByteSet} {c : UInt8} {s w : Bytes} {i k d : ℕ}

theorem starCaptures_shift {f : Bytes → List ℕ} {g : ℕ → Bytes → ℕ → List Capture}
    (hg : ∀ i w k, g (i + d) w k = (g i w k).map (Capture.shift d)) (fuel i : ℕ) (w : Bytes) (k : ℕ) :
    Regex.starCaptures f g fuel (i + d) w k =
      (Regex.starCaptures f g fuel i w k).map (Capture.shift d) := by
  induction fuel generalizing i w k with
  | zero => rfl
  | succ fuel ih =>
    rw [Regex.starCaptures, Regex.starCaptures]
    dsimp only
    split_ifs
    · rfl
    · rw [List.map_append, hg, Nat.add_right_comm, ih]

/-- **The captures of a match do not depend on the offset.** -/
theorem captures_shift (r : Regex) (d i : ℕ) (w : Bytes) (k : ℕ) :
    r.captures (i + d) w k = (r.captures i w k).map (Capture.shift d) := by
  induction r generalizing i w k with
  | empty | set => rfl
  | seq r s ihr ihs =>
    rw [Regex.captures, Regex.captures, List.map_append, ihr, Nat.add_right_comm, ihs]
  | alt r s ihr ihs =>
    rw [Regex.captures, Regex.captures]
    split_ifs
    · exact ihr i w k
    · exact ihs i w k
  | star r ih => exact starCaptures_shift ih w.length i w k
  | group n r ih =>
    rw [Regex.captures, Regex.captures, List.map_append, ih, List.map_singleton, Capture.shift,
      Nat.add_right_comm]

/-- A run of bytes captures nothing. -/
theorem starCaptures_set (fuel i : ℕ) (w : Bytes) (k : ℕ) :
    Regex.starCaptures (Regex.set x).lens (Regex.set x).captures fuel i w k = [] := by
  induction fuel generalizing i w k with
  | zero => rfl
  | succ fuel ih =>
    rw [Regex.starCaptures]
    split_ifs
    · rfl
    · exact ih _ _ _

end Captures

/-! ## Skipping a byte -/

section Skip

variable {r : Regex} {x : ByteSet} {c : UInt8} {s : Bytes} {i k : ℕ} {p : Pattern}

theorem max?_map_add (d : ℕ) (ks : List ℕ) : (ks.map (d + ·)).max? = ks.max?.map (d + ·) := by
  cases h : ks.max? with
  | none =>
    rw [List.max?_eq_none_iff.mp h]
    rfl
  | some m =>
    obtain ⟨hm, hle⟩ := List.max?_eq_some_iff.mp h
    refine List.max?_eq_some_iff.mpr ⟨List.mem_map_of_mem hm, ?_⟩
    intro k hk
    obtain ⟨j, hj, rfl⟩ := List.mem_map.mp hk
    exact Nat.add_le_add_left (hle j hj) d

/-- The lengths of a run that goes on. -/
theorem lens_star_cons (hc : x.contains c = true) (s : Bytes) :
    (Regex.star (.set x)).lens (c :: s) = 0 :: ((Regex.star (.set x)).lens s).map (1 + ·) := by
  show Regex.starLens _ (s.length + 1) (c :: s) = _
  rw [Regex.starLens]
  simp [Regex.lens, hc]

/-- The lengths behind a byte that is skipped. -/
theorem lens_skip_cons (hc : x.contains c = true) (hr : r.lens (c :: s) = []) :
    (skip x r).lens (c :: s) = ((skip x r).lens s).map (1 + ·) := by
  rw [skip, Regex.lens, lens_star_cons hc, List.flatMap_cons, List.drop_zero, hr, List.map_nil,
    List.nil_append, List.flatMap_map, Regex.lens, List.map_flatMap]
  refine List.flatMap_congr fun j _ => ?_
  rw [Nat.add_comm 1 j, List.drop_succ_cons, List.map_map]
  refine List.map_congr_left fun k _ => ?_
  show j + 1 + k = 1 + (j + k)
  omega

/-- The longest first part is one byte longer, if it cannot be empty. -/
theorem longest_cons {first : List ℕ} {rest rest' : ℕ → List ℕ} (hzero : rest' 0 = [])
    (hrest : ∀ j, rest' (1 + j) = rest j)
    (hk : k ∈ first.flatMap fun j => (rest j).map (j + ·)) :
    Regex.longest (0 :: first.map (1 + ·)) rest' (1 + k) = 1 + Regex.longest first rest k := by
  have hfilter : ((0 :: first.map (1 + ·)).filter fun j =>
      j ≤ 1 + k && (rest' j).contains (1 + k - j)) =
      (first.filter fun j => j ≤ k && (rest j).contains (k - j)).map (1 + ·) := by
    rw [List.filter_cons_of_neg (by simp [hzero]), List.filter_map]
    congr 1
    refine List.filter_congr fun j _ => ?_
    simp [hrest, Nat.add_sub_add_left]
  obtain ⟨j, hj, hle, hmem⟩ : ∃ j ∈ first, j ≤ k ∧ k - j ∈ rest j :=
    ⟨_, (longest_spec hk).1, (longest_spec hk).2.1, (longest_spec hk).2.2⟩
  rw [Regex.longest, hfilter, max?_map_add, Regex.longest]
  cases h : (first.filter fun j => j ≤ k && (rest j).contains (k - j)).max? with
  | some m => rfl
  | none =>
    rw [List.max?_eq_none_iff, List.filter_eq_nil_iff] at h
    exact absurd (by simp [hle, hmem]) (h j hj)

/-- The captures behind a byte that is skipped. -/
theorem captures_skip_cons (hc : x.contains c = true) (hr : r.lens (c :: s) = [])
    (hk : k ∈ (skip x r).lens s) :
    (skip x r).captures i (c :: s) (1 + k) =
      ((skip x r).captures i s k).map (Capture.shift 1) := by
  have hlongest : Regex.longest ((Regex.star (.set x)).lens (c :: s))
      (fun j => r.lens ((c :: s).drop j)) (1 + k) =
      1 + Regex.longest ((Regex.star (.set x)).lens s) (fun j => r.lens (s.drop j)) k := by
    rw [lens_star_cons hc]
    refine longest_cons hr (fun j => ?_) hk
    rw [Nat.add_comm 1 j, List.drop_succ_cons]
  rw [skip, Regex.captures, Regex.captures, hlongest]
  generalize Regex.longest ((Regex.star (.set x)).lens s) (fun j => r.lens (s.drop j)) k = j
  have hrun : ∀ i w k, (Regex.star (.set x)).captures i w k = [] := fun i w k =>
    starCaptures_set w.length i w k
  rw [hrun, hrun, List.nil_append, List.nil_append, Nat.add_sub_add_left, Nat.add_comm 1 j,
    List.drop_succ_cons, ← Nat.add_assoc, captures_shift]

theorem matchAt_cons_succ (p : Pattern) (c : UInt8) (s : Bytes) (start : ℕ) :
    matchAt p (c :: s) (start + 1) = (matchAt p s start).map fun m =>
      ⟨m.start + 1, m.stop + 1, m.captures.map (Capture.shift 1)⟩ := by
  rw [matchAt, matchAt, List.drop_succ_cons, Option.map_map]
  refine congrArg (Option.map · _) (funext fun k => ?_)
  show RegMatch.mk _ _ _ = RegMatch.mk _ _ _
  rw [captures_shift, Nat.add_right_comm]

theorem matchAt_cons_skip (hbody : p.body = skip x r) (hc : x.contains c = true)
    (hr : r.lens (c :: s) = []) : matchAt p (c :: s) 0 = (matchAt p s 0).map (RegMatch.shift 1) := by
  have hks : (((skip x r).lens (c :: s)).filter fun k => !p.eol || k == (c :: s).length) =
      (((skip x r).lens s).filter fun k => !p.eol || k == s.length).map (1 + ·) := by
    rw [lens_skip_cons hc hr, List.filter_map]
    congr 1
    refine List.filter_congr fun k _ => ?_
    simp [Nat.add_comm 1]
  rw [matchAt, matchAt, List.drop_zero, List.drop_zero, hbody, hks, max?_map_add]
  cases hmax : (((skip x r).lens s).filter fun k => !p.eol || k == s.length).max? with
  | none => rfl
  | some k =>
    have hk : k ∈ (skip x r).lens s := (List.mem_filter.mp (List.max?_mem hmax)).1
    show some (RegMatch.mk 0 (0 + (1 + k)) _) = some (RegMatch.mk 0 (0 + k + 1) _)
    rw [captures_skip_cons hc hr hk, Nat.add_comm 1 k]
    rfl

/-- **A search that skips a byte** finds the same match behind it. -/
theorem regexec_cons_skip (hbody : p.body = skip x r) (hc : x.contains c = true)
    (hr : r.lens (c :: s) = []) : regexec p (c :: s) = (regexec p s).map (RegMatch.shift 1) := by
  have hstart := matchAt_cons_skip hbody hc hr
  rw [regexec, regexec]
  cases hbol : p.bol with
  | true =>
    rw [if_pos rfl, if_pos rfl]
    simp only [List.findSome?_cons, List.findSome?_nil, hstart]
    cases matchAt p s 0 <;> rfl
  | false =>
    have hlater : ∀ j, matchAt p (c :: s) (j + 1 + 1) =
        (matchAt p s (j + 1)).map (RegMatch.shift 1) := by
      intro j
      rw [matchAt_cons_succ]
      cases h : matchAt p s (j + 1) with
      | none => rfl
      | some m =>
        obtain ⟨k, -, rfl⟩ := Option.map_eq_some_iff.mp h
        rfl
    rw [if_neg Bool.false_ne_true, if_neg Bool.false_ne_true, List.length_cons,
      List.range_succ_eq_map, List.findSome?_cons, hstart, List.range_succ_eq_map,
      List.findSome?_cons]
    cases hat : matchAt p s 0 with
    | some m => rfl
    | none =>
      rw [List.map_cons, List.findSome?_cons, Option.map_none]
      dsimp only
      rw [matchAt_cons_succ, hat, Option.map_none]
      dsimp only
      rw [List.map_map, List.findSome?_map, List.findSome?_map, List.map_findSome?]
      exact congrArg (List.findSome? · _) (funext hlater)

end Skip

end SetQL
