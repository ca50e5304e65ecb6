import SetQL.Parser.WellFormed

/-!
# The two passes as one

An interpreter that executes the statements of a file once each, in order, and appends a set when it
is created. On an accepted file of three statements or more the parser, which reads the file twice
and counts the sets before it creates them, has the same result: its sets are those of the
interpreter and, behind them, those that are not created yet.

## Main definitions

* `interpret`: the interpreter of a list of statements
* `Universe.pad`: the universe with unnamed sets behind its sets

## Main results

* `interpret_of_parse`: the two passes equal the interpreter
* `executed_iff`: no statement is dropped exactly when none is empty and no zero byte is in the file
-/

namespace SetQL

/-- The statements about sets, executed in order. -/
def interpretSets (rx : ParserRegex) : List Bytes → Universe → C Parsed
  | [], u => .ok (u, none)
  | t :: ts, u =>
    if isCreateSet rx t then
      Parsed.andThen (parseCreateSet rx { u with sets := u.sets ++ [⟨[], []⟩] } t u.sets.length)
        (interpretSets rx ts)
    else Parsed.andThen (parseSetInsert rx u t) (interpretSets rx ts)

/-- The leading insertions into the universe, and then the statements about sets; a statement that is
no insertion has no effect as one. -/
def interpretInserts (rx : ParserRegex) : List Bytes → Universe → C Parsed
  | [], u => .ok (u, none)
  | t :: ts, u => do
    match ← parseUniverseInsert rx u t with
    | (u, none) => interpretInserts rx ts u
    | (_, some _) => interpretSets rx (t :: ts) u

/-- The interpreter of a list of statements. -/
def interpret (rx : ParserRegex) (u : Universe) : List Bytes → C Parsed
  | d :: a :: i :: ts =>
    Parsed.andThen (parseUniverseDefinition rx u d) fun u =>
    Parsed.andThen (parseAttributesDefinition rx u a) fun u =>
    Parsed.andThen (parseUniverseInsert rx u i) fun u => interpretInserts rx ts u
  | _ => .error .undefined

/-- The universe with `m` unnamed sets behind its sets. -/
def Universe.pad (u : Universe) (m : ℕ) : Universe :=
  { u with sets := u.sets ++ List.replicate m ⟨[], []⟩ }

section Interpreter

variable {u u' U U' : Universe} {t d a i : Bytes} {ts inserts sets : List Bytes} {k k' m : ℕ}

@[simp] theorem Universe.pad_zero (u : Universe) : u.pad 0 = u := by
  simp [Universe.pad]

theorem Universe.pad_succ (u : Universe) (m : ℕ) :
    u.pad (m + 1) = Universe.pad { u with sets := u.sets ++ [⟨[], []⟩] } m := by
  simp [Universe.pad, List.replicate_succ]

theorem Universe.withSet_pad (hk : k < u.sets.length) (set : UniverseSet) :
    (u.pad m).withSet k set = (u.withSet k set).pad m := by
  simp [Universe.pad, Universe.withSet, List.set_append_left _ _ hk]

theorem Universe.getElem?_pad (hk : k < u.sets.length) : (u.pad m).sets[k]? = u.sets[k]? :=
  List.getElem?_append_left hk

/-- A set that has a name is found among the sets before the unnamed ones. -/
theorem universeSetPosition_pad {name : Bytes} (hname : name ≠ []) :
    universeSetPosition (u.pad m) name = universeSetPosition u name := by
  rw [universeSetPosition, universeSetPosition, Universe.pad, List.findIdx?_append]
  have hnone : (List.replicate m (⟨[], []⟩ : UniverseSet)).findIdx? (fun set => set.name = name) =
      none := by
    refine List.findIdx?_eq_none_iff.mpr fun set hset => ?_
    rw [List.eq_of_mem_replicate hset]
    simpa using Ne.symm hname
  rw [hnone, Option.map_none, Option.or_none]

theorem ne_nil_of_createdSet_name {name : Bytes} (h : createdSet t = some name) : name ≠ [] := by
  obtain ⟨-, -, -, -, -, -, -, -, -, -, -, hname, -⟩ := createdSet_eq_some h
  exact hname.1

theorem ne_nil_of_insertion_name {items name : Bytes} (h : insertion t = some (items, name)) :
    name ≠ [] := by
  obtain ⟨-, -, -, -, -, -, -, -, -, -, -, -, -, -, -, -, -, -, hname, -⟩ := insertion_eq_some h
  exact hname.1

/-- **A set is created at the first unnamed one**, as it would be behind the others. -/
theorem parseCreateSet_pad
    (h : parseCreateSet parserRegex (u.pad (m + 1)) t u.sets.length = .ok (U', none)) :
    ∃ u', parseCreateSet parserRegex { u with sets := u.sets ++ [⟨[], []⟩] } t u.sets.length =
      .ok (u', none) ∧ U' = u'.pad m ∧ u'.sets.length = u.sets.length + 1 := by
  obtain ⟨name, set, hcreated, hlen, hnew, hne, hset, rfl⟩ := parseCreateSet_eq_ok.mp h
  rw [Universe.pad_succ] at hset hnew ⊢
  have hk : u.sets.length < (Universe.sets { u with sets := u.sets ++ [⟨[], []⟩] }).length := by simp
  rw [Universe.getElem?_pad hk] at hset
  rw [existsUniverseSet, universeSetPosition_pad (ne_nil_of_createdSet_name hcreated)] at hnew
  refine ⟨_, parseCreateSet_eq_ok.mpr ⟨name, set, hcreated, hlen, hnew, hne, hset, rfl⟩,
    Universe.withSet_pad hk _, ?_⟩
  simp [Universe.withSet]

/-- **An insertion does not see the unnamed sets.** -/
theorem parseSetInsert_pad (h : parseSetInsert parserRegex (u.pad m) t = .ok (U', none)) :
    ∃ u', parseSetInsert parserRegex u t = .ok (u', none) ∧ U' = u'.pad m ∧
      u'.sets.length = u.sets.length := by
  obtain ⟨items, name, k, set, rows, hins, hposition, hset, hrows, hle, rfl⟩ := parseSetInsert_eq_ok.mp h
  rw [universeSetPosition_pad (ne_nil_of_insertion_name hins)] at hposition
  obtain ⟨set', hset', -⟩ := universeSetPosition_eq_some hposition
  obtain ⟨hk, -⟩ := List.getElem?_eq_some_iff.mp hset'
  rw [Universe.getElem?_pad hk] at hset
  refine ⟨_, parseSetInsert_eq_ok.mpr ⟨items, name, k, set, rows, hins, hposition, hset, hrows, hle,
    rfl⟩, Universe.withSet_pad hk _, ?_⟩
  simp [Universe.withSet]

theorem SetSteps.interpret (h : SetSteps U k ts U' k') (hU : U = u.pad m) (hk : k = u.sets.length)
    (hm : ts.countP (isCreateSet parserRegex) = m) :
    interpretSets parserRegex ts u = .ok (U', none) := by
  induction h generalizing u m with
  | nil =>
    obtain rfl : 0 = m := hm
    rw [hU, Universe.pad_zero]
    rfl
  | create hset h _ ih =>
    rw [List.countP_cons, if_pos hset] at hm
    subst hU hk hm
    obtain ⟨u', hcreate, rfl, hlen⟩ := parseCreateSet_pad h
    rw [interpretSets, if_pos hset]
    exact Parsed.andThen_eq_ok.mpr ⟨u', hcreate, ih rfl hlen.symm rfl⟩
  | insert hset h _ ih =>
    rw [List.countP_cons, if_neg (by simp [hset]), Nat.add_zero] at hm
    subst hU hk hm
    obtain ⟨u', hinsert, rfl, hlen⟩ := parseSetInsert_pad h
    rw [interpretSets, if_neg (by simp [hset])]
    exact Parsed.andThen_eq_ok.mpr ⟨u', hinsert, ih rfl hlen.symm rfl⟩

theorem Inserts.sets_eq (h : Inserts u ts u') (hu : u.Declared) : u'.sets = u.sets ∧ u'.Declared := by
  induction h with
  | nil => exact ⟨rfl, hu⟩
  | cons h _ ih =>
    obtain ⟨items, -, -, rows, -, rfl⟩ := (parseUniverseInsert_eq_ok hu).mp h
    exact ih (hu.withRows _ _)

theorem Inserts.interpret (h : Inserts u ts u')
    (hsets : ∀ t ∈ sets.head?, isCreateSet parserRegex t = true) :
    interpretInserts parserRegex (ts ++ sets) u = interpretSets parserRegex sets u' := by
  induction h with
  | nil u =>
    rcases sets with _ | ⟨t, sets⟩
    · rfl
    · rw [List.nil_append, interpretInserts, parseUniverseInsert_of_createSet (hsets t rfl)]
      rfl
  | cons h _ ih =>
    rw [List.cons_append, interpretInserts, h]
    exact ih

/-- **The texts that the parser executes are interpreted** with the same result. -/
theorem Executes.interpret (h : Executes createEmptyUniverse d a i inserts sets u') :
    SetQL.interpret parserRegex createEmptyUniverse (d :: a :: i :: (inserts ++ sets)) =
      .ok (u', none) := by
  obtain ⟨⟨u₁, u₂, u₃, u₄, k, hd, ha, hi, hinserts, hsets⟩, hstarts⟩ := h
  have hfilled := filled_of_definitions rfl rfl hd ha
  have hnosets : u₃.sets = [] := by
    obtain ⟨name, columns, types, names, -, -, -, rfl⟩ := parseUniverseDefinition_eq_ok.mp hd
    obtain ⟨columns', types', names', -, -, rfl⟩ := parseAttributesDefinition_eq_ok.mp ha
    obtain ⟨items, -, -, rows, -, rfl⟩ := (parseUniverseInsert_eq_ok hfilled.declared).mp hi
    rfl
  have hsets₄ : u₄.sets = [] :=
    (hinserts.sets_eq (filled_of_insert hfilled hi).declared).1.trans hnosets
  refine Parsed.andThen_eq_ok.mpr ⟨u₁, hd, Parsed.andThen_eq_ok.mpr ⟨u₂, ha,
    Parsed.andThen_eq_ok.mpr ⟨u₃, hi, ?_⟩⟩⟩
  rw [hinserts.interpret hstarts]
  refine hsets.interpret (u := u₄) ?_ (by rw [hsets₄]; rfl) rfl
  rw [initializeSets, Universe.pad, hsets₄, List.nil_append]

theorem Inserts.isCreateSet_eq_false (h : Inserts u ts u') :
    ∀ t ∈ ts, isCreateSet parserRegex t = false := by
  induction h with
  | nil => exact nofun
  | cons h _ ih => exact List.forall_mem_cons.mpr ⟨isCreateSet_of_insert h, ih⟩

/-- The statements before the sets create none. -/
theorem Executes.countP_eq (h : Executes u d a i inserts sets u') :
    (d :: a :: i :: (inserts ++ sets)).countP (isCreateSet parserRegex) =
      sets.countP (isCreateSet parserRegex) := by
  obtain ⟨⟨u₁, u₂, u₃, u₄, -, hd, ha, hi, hinserts, -⟩, -⟩ := h
  have hnot : ∀ t, openParen ∈ t → isCreateSet parserRegex t = false := by
    intro t ht
    rw [isCreateSet, isCreateSet_eq, Option.isSome_eq_false_iff, Option.isNone_iff_eq_none]
    cases hc : createdSet t with
    | none => rfl
    | some name => exact absurd ht (openParen_not_mem_of_createdSet hc)
  have hzero : inserts.countP (isCreateSet parserRegex) = 0 :=
    List.countP_eq_zero.mpr fun t ht => by simp [hinserts.isCreateSet_eq_false t ht]
  simp [hnot d (openParen_mem_of_definitions (Or.inl hd)),
    hnot a (openParen_mem_of_definitions (Or.inr ha)), isCreateSet_of_insert hi, hzero]

end Interpreter

/-! ## Files -/

section Files

variable {file : Bytes} {L : List Bytes} {p : Progress} {u u' : Universe}

/-- The sets created by a list of texts are as many as its statements that create one. -/
theorem length_filterMap_createdSet (ts : List Bytes) :
    (ts.filterMap createdSet).length = ts.countP (isCreateSet parserRegex) := by
  induction ts with
  | nil => rfl
  | cons t ts ih =>
    rw [List.countP_cons, isCreateSet, isCreateSet_eq]
    cases h : createdSet t with
    | none => rw [List.filterMap_cons, h, ih]; rfl
    | some name => rw [List.filterMap_cons, h, List.length_cons, ih]; rfl

theorem texts_eq_map (h : ∀ s ∈ L, s ≠ []) : texts L = L.map cstr := by
  rw [texts, readable, List.takeWhile_eq_self_iff.mpr (by simpa using h)]

theorem padded_of_three {T : List Bytes} (h : 3 ≤ T.length) : padded T = T := by
  rcases T with _ | ⟨d, _ | ⟨a, _ | ⟨i, ts⟩⟩⟩
  · exact absurd h (by simp)
  · exact absurd h (by simp)
  · exact absurd h (by simp)
  · rfl

/-- **The two passes equal an interpreter** that executes the statements of the file once each, in
order: as many sets are counted as are created, and each is created at the index that is the number
of those before it. -/
theorem interpret_of_parse (h : parseInitialization createEmptyUniverse file = .ok (p, none))
    (hthree : 3 ≤ (statements file).length) (hne : ∀ s ∈ statements file, s ≠ []) :
    interpret parserRegex createEmptyUniverse ((statements file).map cstr) = .ok (p.u, none) ∧
      p.executed = (statements file).map cstr ∧
      p.u.sets.length = ((statements file).map cstr).countP (isCreateSet parserRegex) ∧
      (∀ set ∈ p.u.sets, set.name ≠ []) ∧
      ∀ pre t post, (statements file).map cstr = pre ++ t :: post → isCreateSet parserRegex t = true →
        (p.u.sets[pre.countP (isCreateSet parserRegex)]?).map UniverseSet.name = createdSet t := by
  obtain ⟨-, d, a, i, inserts, sets, hT, hexecutes, hexecuted⟩ := (parse_eq_ok rfl).mp h
  rw [texts_eq_map hne, padded_of_three (by simpa using hthree)] at hT hexecuted
  have hnames : p.u.setNames = ((statements file).map cstr).filterMap createdSet := by
    refine hexecutes.setNames_eq.1.trans ?_
    have hsuffix : sets.filterMap createdSet <:+ ((statements file).map cstr).filterMap createdSet := by
      rw [hT]
      exact (List.IsSuffix.filterMap _ ⟨d :: a :: i :: inserts, by simp⟩)
    apply hsuffix.eq_of_length
    rw [length_filterMap_createdSet, length_filterMap_createdSet, hT, hexecutes.countP_eq]
  refine ⟨?_, hexecuted, ?_, ?_, ?_⟩
  · rw [hT]
    exact hexecutes.interpret
  · rw [← length_filterMap_createdSet, ← hnames, Universe.setNames, List.length_map]
  · intro set hset
    have hmem : set.name ∈ p.u.setNames := List.mem_map_of_mem hset
    rw [hnames] at hmem
    obtain ⟨t, -, ht⟩ := List.mem_filterMap.mp hmem
    exact ne_nil_of_createdSet_name ht
  · intro pre t post hsplit hset
    rw [isCreateSet, isCreateSet_eq] at hset
    obtain ⟨name, hname⟩ := Option.isSome_iff_exists.mp hset
    have hget : p.u.setNames[pre.countP (isCreateSet parserRegex)]? = some name := by
      rw [hnames, hsplit, List.filterMap_append, List.filterMap_cons, hname,
        ← length_filterMap_createdSet]
      simp
    rw [hname, ← hget, Universe.setNames, List.getElem?_map]

theorem interpret_of_parse_animal : ∃ p, parseInitialization createEmptyUniverse animalFile =
    .ok (p, none) ∧ interpret parserRegex createEmptyUniverse ((statements animalFile).map cstr) =
      .ok (p.u, none) := by
  obtain ⟨⟨p, _⟩, h, rfl⟩ := map_eq_ok.mp parse_animalFile
  exact ⟨p, h, (interpret_of_parse h (by decide +kernel) (by decide +kernel)).1⟩

/-! ## Dropped statements -/

theorem mem_statements {b : UInt8} :
    (∃ s ∈ statements file, b ∈ s) ↔ b ∈ file ∧ b ≠ semicolon := by
  induction file with
  | nil => simp [statements]
  | cons c file ih =>
    rw [statements]
    split_ifs with hc
    · subst hc
      simp only [List.mem_cons, exists_eq_or_imp, List.not_mem_nil, false_or, ih]
      tauto
    · have hcons : (b = c ∨ ∃ s ∈ statements file, b ∈ s) ↔ b ∈ c :: file ∧ b ≠ semicolon := by
        rw [ih, List.mem_cons, or_and_right]
        exact or_congr_left ⟨fun h => ⟨h, h ▸ hc⟩, And.left⟩
      rw [← hcons]
      cases statements file with
      | nil => simp
      | cons s rest => simp [or_assoc]

/-- A file has no zero byte if its statements have none. -/
theorem nulFree_iff : NulFree file ↔ ∀ s ∈ statements file, NulFree s := by
  have h : 0 ∈ file ↔ ∃ s ∈ statements file, (0 : UInt8) ∈ s := by
    rw [mem_statements]
    exact (and_iff_left (by decide)).symm
  rw [NulFree, h]
  simp [NulFree]

/-- **Nothing is dropped** exactly when no statement is empty, so that the end of the file is
reached, and no zero byte ends a statement early. -/
theorem executed_iff (h : parseInitialization createEmptyUniverse file = .ok (p, none)) :
    (statements file).Sublist p.executed ↔ (∀ s ∈ statements file, s ≠ []) ∧ NulFree file := by
  obtain ⟨⟨hregular, -⟩, d, a, i, inserts, sets, hT, hexecutes, hexecuted⟩ := (parse_eq_ok rfl).mp h
  constructor
  · intro hsub
    have hmem : ∀ s ∈ statements file, s ∈ texts (statements file) := fun s hs =>
      mem_padded.mp (hexecuted ▸ hsub.subset hs)
    refine ⟨fun s hs => ?_, nulFree_iff.mpr fun s hs => ?_⟩
    · refine (hexecutes.isExecuted s ?_).ne_nil
      rw [← hT, ← hexecuted]
      exact hsub.subset hs
    · obtain ⟨s', -, rfl⟩ := List.mem_map.mp (hmem s hs)
      exact nulFree_cstr s'
  · rintro ⟨hne, hnul⟩
    have hmap : texts (statements file) = statements file := by
      rw [texts_eq_map hne]
      exact (List.map_congr_left fun s hs => cstr_of_nulFree (nulFree_iff.mp hnul s hs)).trans
        (List.map_id _)
    rw [hexecuted, hmap]
    rcases statements file with _ | ⟨d, _ | ⟨a, _ | ⟨i, ts⟩⟩⟩
    · exact List.Sublist.refl _
    · simp [padded]
    · simp [padded]
    · exact List.Sublist.refl _

theorem executed_iff_animal : ∃ p, parseInitialization createEmptyUniverse animalFile =
    .ok (p, none) ∧ (statements animalFile).Sublist p.executed := by
  obtain ⟨⟨p, _⟩, h, rfl⟩ := map_eq_ok.mp parse_animalFile
  exact ⟨p, h, (executed_iff h).mpr ⟨by decide +kernel, by decide +kernel⟩⟩

/-- A file whose fourth statement is empty. -/
def gapFile : Bytes :=
  lit "CREATE UNIVERSE A(n STRING);CREATE ATTRIBUTES A(m INTEGER);INSERT \x7b\"x\":2\x7d INTO A;;CREATE SET B"

theorem not_executed_gap : ¬ ∀ file p,
    parseInitialization createEmptyUniverse file = .ok (p, none) →
      (statements file).Sublist p.executed := by
  intro hall
  have hgap : (fun r => (r.2, r.1.executed.length)) <$>
      parseInitialization createEmptyUniverse gapFile = .ok (none, 3) := by
    rw [parseInitialization, initializeParserRegex_eq]
    decide
  obtain ⟨⟨p, ret⟩, h, heq⟩ := map_eq_ok.mp hgap
  obtain ⟨rfl, hlength⟩ := Prod.mk.inj heq
  have hle := (hall gapFile p h).length_le
  rw [hlength] at hle
  exact absurd hle (by decide)

end Files

end SetQL
