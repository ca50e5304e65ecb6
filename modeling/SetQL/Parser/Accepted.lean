import SetQL.Parser.Passes

/-!
# Accepted files

What the parser does on a file that it accepts, as runs of its statement parsers: the two
definitions, the insertions into the universe, and then, on as many unnamed sets as are created, the
creations and the insertions into sets. The statement that ends the insertions was tried as one of
them; in an accepted file it creates a set, so the trial had no effect.

## Main definitions

* `Inserts`, `SetSteps`: runs of the two loops
* `Executes u d a i inserts sets u'`: the parser executes the texts from `u` to `u'`
* `IsExecuted t`: one of the parsers executes the text

## Main results

* `parse_eq_ok`: a file is accepted exactly when its texts are executed
* `SetSteps.setIndex_eq`: the index of the next set counts the sets created
* `IsExecuted.ne_nil`: an executed text is not empty
-/

namespace SetQL

/-- A run of insertions into the universe. -/
inductive Inserts : Universe → List Bytes → Universe → Prop
  | nil (u) : Inserts u [] u
  | cons {u u₁ u₂ t ts} (h : parseUniverseInsert parserRegex u t = .ok (u₁, none))
    (hrest : Inserts u₁ ts u₂) : Inserts u (t :: ts) u₂

/-- A run of creations of sets and insertions into them, from one index of the next set to
another. -/
inductive SetSteps : Universe → ℕ → List Bytes → Universe → ℕ → Prop
  | nil (u k) : SetSteps u k [] u k
  | create {u u₁ u₂ k k₂ t ts} (hset : isCreateSet parserRegex t = true)
    (h : parseCreateSet parserRegex u t k = .ok (u₁, none)) (hrest : SetSteps u₁ (k + 1) ts u₂ k₂) :
    SetSteps u k (t :: ts) u₂ k₂
  | insert {u u₁ u₂ k k₂ t ts} (hset : isCreateSet parserRegex t = false)
    (h : parseSetInsert parserRegex u t = .ok (u₁, none)) (hrest : SetSteps u₁ k ts u₂ k₂) :
    SetSteps u k (t :: ts) u₂ k₂

/-- The parser executes the two definitions, the insertions into the universe, and the rest on as
many sets as it creates. -/
structure Executes (u : Universe) (d a i : Bytes) (inserts sets : List Bytes) (u' : Universe) :
    Prop where
  definitions : ∃ u₁ u₂ u₃ u₄ k, parseUniverseDefinition parserRegex u d = .ok (u₁, none) ∧
    parseAttributesDefinition parserRegex u₁ a = .ok (u₂, none) ∧
    parseUniverseInsert parserRegex u₂ i = .ok (u₃, none) ∧ Inserts u₃ inserts u₄ ∧
    SetSteps (initializeSets u₄ (sets.countP (isCreateSet parserRegex))) 0 sets u' k
  starts : ∀ t ∈ sets.head?, isCreateSet parserRegex t = true

section Runs

variable {u u' u₁ : Universe} {t : Bytes} {ts : List Bytes} {k k' : ℕ} {p p' : Progress}

/-- The parser that the second pass runs on a statement. -/
def parseSetStatement (u : Universe) (k : ℕ) (t : Bytes) : C Parsed :=
  if isCreateSet parserRegex t then parseCreateSet parserRegex u t k
  else parseSetInsert parserRegex u t

/-- The index of the next set after a statement. -/
def nextSetIndex (k : ℕ) (t : Bytes) : ℕ := if isCreateSet parserRegex t then k + 1 else k

theorem setBody_eq (s : SetPass) (t : Bytes) : setBody parserRegex s t = do
    let parsed ← parseSetStatement s.progress.u s.setIndex t
    match s.progress.step t parsed with
    | (p, some message) => return (⟨p, s.setIndex, some message⟩, true)
    | (p, none) => return (⟨p, nextSetIndex s.setIndex t, none⟩, false) := by
  rw [setBody, parseSetStatement, nextSetIndex]
  split_ifs <;> rfl

theorem setSteps_nil : SetSteps u k [] u' k' ↔ u' = u ∧ k' = k := by
  constructor
  · intro h
    cases h
    exact ⟨rfl, rfl⟩
  · rintro ⟨rfl, rfl⟩
    exact .nil _ _

/-- A run executes its first statement and then the rest. -/
theorem setSteps_cons : SetSteps u k (t :: ts) u' k' ↔
    ∃ u₁, parseSetStatement u k t = .ok (u₁, none) ∧ SetSteps u₁ (nextSetIndex k t) ts u' k' := by
  rw [parseSetStatement, nextSetIndex]
  constructor
  · intro h
    cases h with
    | create hset h hrest => exact ⟨_, by rwa [if_pos hset], by rwa [if_pos hset]⟩
    | insert hset h hrest => exact ⟨_, by rwa [hset, if_neg Bool.false_ne_true],
        by rwa [hset, if_neg Bool.false_ne_true]⟩
  · rintro ⟨u₁, h, hrest⟩
    cases hset : isCreateSet parserRegex t with
    | true =>
      rw [hset, if_pos rfl] at h hrest
      exact .create hset h hrest
    | false =>
      rw [hset, if_neg Bool.false_ne_true] at h hrest
      exact .insert hset h hrest

theorem setRun_eq_ok {s : SetPass} {q : Progress} (hs : s.error = none) :
    (∃ r, setRun parserRegex ts s = .ok r ∧ r.progress = q ∧ r.error = none) ↔
      (∃ k, SetSteps s.progress.u s.setIndex ts q.u k) ∧ q.executed = s.progress.executed ++ ts := by
  induction ts generalizing s with
  | nil =>
    simp only [setSteps_nil, List.append_nil]
    constructor
    · rintro ⟨r, h, rfl, -⟩
      obtain rfl := Except.ok.inj h
      exact ⟨⟨_, rfl, rfl⟩, rfl⟩
    · rintro ⟨⟨k, hu, -⟩, hexecuted⟩
      obtain ⟨u', executed'⟩ := q
      obtain rfl : u' = _ := hu
      obtain rfl : executed' = _ := hexecuted
      exact ⟨s, rfl, rfl, hs⟩
  | cons t ts ih =>
    rw [setRun, setBody_eq]
    simp only [setSteps_cons]
    cases hparse : parseSetStatement s.progress.u s.setIndex t with
    | error e =>
      refine iff_of_false (by rintro ⟨r, h, -⟩; cases h) ?_
      rintro ⟨⟨k', u₁, h, -⟩, -⟩
      cases h
    | ok parsed =>
      obtain ⟨u₁, _ | message⟩ := parsed
      · refine (ih (s := ⟨⟨u₁, s.progress.executed ++ [t]⟩, nextSetIndex s.setIndex t, none⟩)
          rfl).trans (and_congr (exists_congr fun k' => ?_) ?_)
        · constructor
          · intro h
            exact ⟨u₁, rfl, h⟩
          · rintro ⟨u₂, hu, h⟩
            obtain rfl := (Prod.mk.inj (Except.ok.inj hu)).1
            exact h
        · rw [List.append_assoc, List.singleton_append]
      · apply iff_of_false
        · rintro ⟨r, h, -, herror⟩
          obtain rfl := Except.ok.inj h
          cases herror
        · rintro ⟨⟨k', u₂, h, -⟩, -⟩
          cases (Prod.mk.inj (Except.ok.inj h)).2

/-- The insertions of the texts are executed up to the end or to one that is not executed. -/
def InsertsUntil (p : Progress) (ts : List Bytes) (p' : Progress) (ts' : List Bytes) : Prop :=
  ∃ done u₁, ts = done ++ ts' ∧ Inserts p.u done u₁ ∧ p'.executed = p.executed ++ done ∧
    ((ts' = [] ∧ p'.u = u₁) ∨ ∃ t rest message, ts' = t :: rest ∧
      parseUniverseInsert parserRegex u₁ t = .ok (p'.u, some message))

theorem insertsUntil_nil : InsertsUntil p [] p' ts' ↔ p' = p ∧ ts' = [] := by
  constructor
  · rintro ⟨done, u₁, hts, hdone, hexecuted, hend⟩
    obtain ⟨rfl, rfl⟩ := List.append_eq_nil_iff.mp hts.symm
    rcases hend with ⟨-, hu⟩ | ⟨t, rest, message, hcons, -⟩
    · cases hdone
      rw [List.append_nil] at hexecuted
      obtain ⟨u', executed⟩ := p'
      obtain rfl : u' = p.u := hu
      obtain rfl : executed = p.executed := hexecuted
      exact ⟨rfl, rfl⟩
    · exact nomatch hcons
  · rintro ⟨rfl, rfl⟩
    exact ⟨[], p'.u, rfl, .nil _, (List.append_nil _).symm, Or.inl ⟨rfl, rfl⟩⟩

/-- The first insertion is the one that is not executed, or it is executed and the rest goes on. -/
theorem insertsUntil_cons : InsertsUntil p (t :: ts) p' ts' ↔
    (ts' = t :: ts ∧ p'.executed = p.executed ∧
      ∃ message, parseUniverseInsert parserRegex p.u t = .ok (p'.u, some message)) ∨
    ∃ u₁, parseUniverseInsert parserRegex p.u t = .ok (u₁, none) ∧
      InsertsUntil ⟨u₁, p.executed ++ [t]⟩ ts p' ts' := by
  constructor
  · rintro ⟨done, u₁, hts, hdone, hexecuted, hend⟩
    cases hdone with
    | nil =>
      rcases hend with ⟨rfl, -⟩ | ⟨t', rest, message, rfl, h⟩
      · exact nomatch hts
      · obtain ⟨rfl, rfl⟩ := List.cons.inj hts
        rw [List.append_nil] at hexecuted
        exact Or.inl ⟨rfl, hexecuted, message, h⟩
    | cons h hrest =>
      obtain ⟨rfl, rfl⟩ := List.cons.inj hts
      refine Or.inr ⟨_, h, _, u₁, rfl, hrest, ?_, hend⟩
      rw [hexecuted, List.append_assoc, List.singleton_append]
  · rintro (⟨rfl, hexecuted, message, h⟩ | ⟨u₂, h, done, u₁, rfl, hdone, hexecuted, hend⟩)
    · refine ⟨[], p.u, rfl, .nil _, ?_, Or.inr ⟨t, ts, message, rfl, h⟩⟩
      rw [hexecuted, List.append_nil]
    · refine ⟨t :: done, u₁, rfl, .cons h hdone, ?_, hend⟩
      rw [hexecuted, List.append_assoc, List.singleton_append]

/-- The loop over the insertions stops at the end of the texts or at one that is not executed. -/
theorem insertRun_eq_ok :
    insertRun parserRegex ts p = .ok (p', ts') ↔ InsertsUntil p ts p' ts' := by
  induction ts generalizing p with
  | nil =>
    rw [insertsUntil_nil]
    constructor
    · intro h
      obtain ⟨rfl, rfl⟩ := Prod.mk.inj (Except.ok.inj h)
      exact ⟨rfl, rfl⟩
    · rintro ⟨rfl, rfl⟩
      rfl
  | cons t ts ih =>
    rw [insertRun, insertsUntil_cons]
    cases hparse : parseUniverseInsert parserRegex p.u t with
    | error e =>
      refine iff_of_false error_ne_ok ?_
      rintro (⟨-, -, message, h⟩ | ⟨u₁, h, -⟩)
      · cases h
      · cases h
    | ok parsed =>
      obtain ⟨u₂, _ | message⟩ := parsed
      · refine (ih (p := ⟨u₂, p.executed ++ [t]⟩)).trans ?_
        constructor
        · intro h
          exact Or.inr ⟨u₂, rfl, h⟩
        · rintro (⟨-, -, message, h⟩ | ⟨u₁, h, hrest⟩)
          · cases (Prod.mk.inj (Except.ok.inj h)).2
          · obtain rfl := (Prod.mk.inj (Except.ok.inj h)).1
            exact hrest
      · constructor
        · intro h
          obtain ⟨rfl, rfl⟩ := Prod.mk.inj (Except.ok.inj h)
          exact Or.inl ⟨rfl, rfl, message, rfl⟩
        · rintro (⟨rfl, hexecuted, message', h⟩ | ⟨u₁, h, -⟩)
          · obtain ⟨u', executed⟩ := p'
            obtain rfl : u₂ = u' := (Prod.mk.inj (Except.ok.inj h)).1
            obtain rfl : executed = p.executed := hexecuted
            rfl
          · cases (Prod.mk.inj (Except.ok.inj h)).2

theorem executeOne_eq_ok {parse : Universe → Bytes → C Parsed}
    {rest : Progress → C (Progress × Option Bytes)} :
    executeOne parse p t rest = .ok (p', none) ↔
      ∃ u', parse p.u t = .ok (u', none) ∧ rest ⟨u', p.executed ++ [t]⟩ = .ok (p', none) := by
  rw [executeOne]
  cases hparse : parse p.u t with
  | error e => simp
  | ok parsed =>
    obtain ⟨u', _ | message⟩ := parsed
    · constructor
      · intro h
        exact ⟨u', rfl, h⟩
      · rintro ⟨u'', hu, h⟩
        obtain rfl := (Prod.mk.inj (Except.ok.inj hu)).1
        exact h
    · refine iff_of_false ?_ ?_
      · intro h
        cases (Prod.mk.inj (Except.ok.inj h)).2
      · rintro ⟨u'', hu, -⟩
        cases (Prod.mk.inj (Except.ok.inj hu)).2

theorem ne_nil_of_insertion {items name : Bytes} (h : insertion t = some (items, name)) : t ≠ [] :=
  List.ne_nil_of_mem (openBrace_mem_of_insertion h)

/-- **The first statement of the second pass creates a set**: none of the sets has a name yet. -/
theorem isCreateSet_of_first {n : ℕ} (h : SetSteps (initializeSets u n) k (t :: ts) u' k') :
    isCreateSet parserRegex t = true := by
  cases h with
  | create hset => exact hset
  | insert _ h =>
    obtain ⟨items, name, j, set, rows, hins, hposition, -⟩ := parseSetInsert_eq_ok.mp h
    obtain ⟨set', hset', hname⟩ := universeSetPosition_eq_some hposition
    obtain ⟨pre, w, post, -, a, b, c, d, e, f, g, -, -, -, -, -, -, -, hne, -⟩ := insertion_eq_some hins
    have hmem : set' ∈ List.replicate n (⟨[], []⟩ : UniverseSet) := List.mem_of_getElem? hset'
    rw [List.eq_of_mem_replicate hmem] at hname
    exact absurd hname.symm hne.1

/-- The creation of a set is tried as an insertion into the universe without an effect. -/
theorem parseUniverseInsert_of_createSet (h : isCreateSet parserRegex t = true) (u : Universe) :
    parseUniverseInsert parserRegex u t =
      .ok (u, some (lit "Error parsing the universe insert.")) := by
  rw [isCreateSet, isCreateSet_eq] at h
  obtain ⟨name, hname⟩ := Option.isSome_iff_exists.mp h
  rw [parseUniverseInsert_eq, insertion_eq_none_of_createdSet hname]

theorem secondPass_eq_ok : secondPass parserRegex p ts = .ok (p', none) ↔
    (∃ k, SetSteps (initializeSets p.u (ts.countP (isCreateSet parserRegex))) 0 ts p'.u k) ∧
      p'.executed = p.executed ++ ts := by
  let s : SetPass :=
    ⟨{ p with u := initializeSets p.u (ts.countP (isCreateSet parserRegex)) }, 0, none⟩
  have hrun : (∃ r, setRun parserRegex ts s = .ok r ∧ r.progress = p' ∧ r.error = none) ↔ _ :=
    setRun_eq_ok rfl
  refine Iff.trans ?_ hrun
  rw [secondPass, bind_eq_ok]
  refine exists_congr fun r => and_congr_right fun _ => ?_
  constructor
  · intro h
    exact Prod.mk.inj (Except.ok.inj h)
  · rintro ⟨rfl, herror⟩
    rw [herror]
    rfl

theorem runTexts_eq_ok {T : List Bytes} : runTexts parserRegex u T = .ok (p, none) ↔
    ∃ d a i inserts sets, T = d :: a :: i :: (inserts ++ sets) ∧
      Executes u d a i inserts sets p.u ∧ p.executed = T := by
  rcases T with _ | ⟨d, _ | ⟨a, _ | ⟨i, ts⟩⟩⟩
  · exact iff_of_false nofun (by rintro ⟨_, _, _, _, _, h, -⟩; exact nomatch h)
  · exact iff_of_false nofun (by rintro ⟨_, _, _, _, _, h, -⟩; exact nomatch h)
  · exact iff_of_false nofun (by rintro ⟨_, _, _, _, _, h, -⟩; exact nomatch h)
  rw [runTexts]
  simp only [executeOne_eq_ok, bind_eq_ok, Prod.exists, insertRun_eq_ok, secondPass_eq_ok]
  constructor
  · rintro ⟨u₁, hd, u₂, ha, u₃, hi, q, sets, ⟨inserts, u₄, rfl, hinserts, hexecuted, hend⟩,
      ⟨k, hsets⟩, hall⟩
    -- the trial of the statement that ended the insertions had no effect
    have hstart : q.u = u₄ ∧ ∀ t ∈ sets.head?, isCreateSet parserRegex t = true := by
      rcases hend with ⟨rfl, hq⟩ | ⟨t, rest, message, rfl, htrial⟩
      · exact ⟨hq, nofun⟩
      · have hset := isCreateSet_of_first hsets
        rw [parseUniverseInsert_of_createSet hset] at htrial
        exact ⟨(Prod.mk.inj (Except.ok.inj htrial)).1.symm, by simpa using hset⟩
    obtain ⟨rfl, hstarts⟩ := hstart
    refine ⟨d, a, i, inserts, sets, rfl, ⟨⟨u₁, u₂, u₃, _, k, hd, ha, hi, hinserts, hsets⟩, hstarts⟩, ?_⟩
    rw [hall, hexecuted]
    simp
  · rintro ⟨d', a', i', inserts, sets, hT, ⟨⟨u₁, u₂, u₃, u₄, k, hd, ha, hi, hinserts, hsets⟩, hstarts⟩,
      hexecuted⟩
    simp only [List.cons.injEq] at hT
    obtain ⟨rfl, rfl, rfl, rfl⟩ := hT
    refine ⟨u₁, hd, u₂, ha, u₃, hi, ⟨u₄, [d, a, i] ++ inserts⟩, sets,
      ⟨inserts, u₄, rfl, hinserts, rfl, ?_⟩, ⟨k, hsets⟩, by rw [hexecuted]; simp⟩
    rcases sets with _ | ⟨t, rest⟩
    · exact Or.inl ⟨rfl, rfl⟩
    · exact Or.inr ⟨t, rest, _, rfl, parseUniverseInsert_of_createSet (hstarts t rfl) u₄⟩

/-- **A file is accepted exactly when its texts are executed.** -/
theorem parse_eq_ok {file : Bytes} (hu : u.keyValues.length = u.attributeValues.length) :
    parseInitialization u file = .ok (p, none) ↔
      (Regular (statements file) ∧ Sized (statements file)) ∧ ∃ d a i inserts sets,
        padded (texts (statements file)) = d :: a :: i :: (inserts ++ sets) ∧
        Executes u d a i inserts sets p.u ∧ p.executed = padded (texts (statements file)) := by
  constructor
  · intro h
    have hregular := regular_of_parse hu (Or.inl ⟨p, h⟩)
    refine ⟨hregular, ?_⟩
    rwa [parseInitialization_eq hregular.1 hregular.2, runTexts_eq_ok] at h
  · rintro ⟨hregular, h⟩
    rwa [parseInitialization_eq hregular.1 hregular.2, runTexts_eq_ok]

end Runs

/-! ## Executed texts -/

section Executed

variable {u u' : Universe} {t d a i : Bytes} {ts inserts sets : List Bytes} {k k' : ℕ}

theorem upper_universe : ∀ b ∈ lit "UNIVERSE", 65 ≤ b ∧ b ≤ 90 := by decide +kernel

theorem upper_attributes : ∀ b ∈ lit "ATTRIBUTES", 65 ≤ b ∧ b ≤ 90 := by decide +kernel

theorem openParen_mem_of_definitions (h : parseUniverseDefinition parserRegex u t = .ok (u', none) ∨
    parseAttributesDefinition parserRegex u t = .ok (u', none)) : openParen ∈ t := by
  rcases h with h | h
  · obtain ⟨name, columns, types, names, hd, -⟩ := parseUniverseDefinition_eq_ok.mp h
    exact openParen_mem_of_definition upper_universe hd
  · obtain ⟨columns, types, names, hd, -⟩ := parseAttributesDefinition_eq_ok.mp h
    exact openParen_mem_of_definition upper_attributes hd

/-- One of the parsers executes a text. -/
def IsExecuted (t : Bytes) : Prop :=
  ∃ u u' k, parseUniverseDefinition parserRegex u t = .ok (u', none) ∨
    parseAttributesDefinition parserRegex u t = .ok (u', none) ∨
    parseUniverseInsert parserRegex u t = .ok (u', none) ∨ parseSetStatement u k t = .ok (u', none)

theorem Inserts.isExecuted (h : Inserts u ts u') : ∀ t ∈ ts, IsExecuted t := by
  induction h with
  | nil => exact nofun
  | cons h _ ih => exact List.forall_mem_cons.mpr ⟨⟨_, _, 0, Or.inr (Or.inr (Or.inl h))⟩, ih⟩

theorem SetSteps.isExecuted (h : SetSteps u k ts u' k') : ∀ t ∈ ts, IsExecuted t := by
  induction ts generalizing u k with
  | nil => exact nofun
  | cons t ts ih =>
    obtain ⟨u₁, hparse, hrest⟩ := setSteps_cons.mp h
    exact List.forall_mem_cons.mpr ⟨⟨u, u₁, k, Or.inr (Or.inr (Or.inr hparse))⟩, ih hrest⟩

theorem Executes.isExecuted (h : Executes u d a i inserts sets u') :
    ∀ t ∈ d :: a :: i :: (inserts ++ sets), IsExecuted t := by
  obtain ⟨⟨u₁, u₂, u₃, u₄, k, hd, ha, hi, hinserts, hsets⟩, -⟩ := h
  simp only [List.forall_mem_cons, List.forall_mem_append]
  exact ⟨⟨u, u₁, 0, Or.inl hd⟩, ⟨u₁, u₂, 0, Or.inr (Or.inl ha)⟩,
    ⟨u₂, u₃, 0, Or.inr (Or.inr (Or.inl hi))⟩, hinserts.isExecuted, hsets.isExecuted⟩

/-- **An executed text is not empty.** -/
theorem IsExecuted.ne_nil (h : IsExecuted t) : t ≠ [] := by
  obtain ⟨u, u', k, h | h | h | h⟩ := h
  · exact List.ne_nil_of_mem (openParen_mem_of_definitions (Or.inl h))
  · exact List.ne_nil_of_mem (openParen_mem_of_definitions (Or.inr h))
  · rw [parseUniverseInsert_eq] at h
    cases hins : insertion t with
    | none => rw [hins] at h; exact nomatch (Prod.mk.inj (Except.ok.inj h)).2
    | some ins => exact ne_nil_of_insertion hins
  · rw [parseSetStatement] at h
    split_ifs at h
    · obtain ⟨name, -, hname, -⟩ := parseCreateSet_eq_ok.mp h
      exact ne_nil_of_createdSet hname
    · obtain ⟨items, name, -, -, -, hins, -⟩ := parseSetInsert_eq_ok.mp h
      exact ne_nil_of_insertion hins

end Executed

end SetQL
