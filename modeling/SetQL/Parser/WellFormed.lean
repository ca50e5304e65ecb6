import SetQL.Parser.Accepted

/-!
# Accepted files give well-formed universes

The parsers of insertions add null rows before they read them, and some stop in the middle. In an
accepted file every statement is executed to its end, so no null row is left, every row has its
arity, and the sets have different names.

## Main definitions

* `ArrayList.Rows values n`: every row is present and has `n` values
* `Universe.Filled`: the rows of the universe are present
* `Universe.WellFormed`: the whole universe is

## Main results

* `Inserts.filled`: insertions keep the rows of the universe present
* `SetSteps.names_eq`: the sets are named in the order of their creation
* `wellFormed_of_parse`: an accepted file gives a well-formed universe
-/

namespace SetQL

/-- Every row is present and has `n` values. -/
def ArrayList.Rows (values : ArrayList) (n : ℕ) : Prop :=
  ∀ row ∈ values, ∃ vs : List Bytes, row = some vs ∧ vs.length = n

/-- The two lists of rows are equally long, and every row is present and has its arity. -/
structure Universe.Filled (u : Universe) : Prop where
  declared : u.Declared
  length_eq : u.keyValues.length = u.attributeValues.length
  keyRows : u.keyValues.Rows u.keyDataNames.length
  attributeRows : u.attributeValues.Rows u.attributeDataNames.length

/-- The rows of the sets are present as well, and the sets have different names, none of them the
name of the universe. -/
structure Universe.WellFormed (u : Universe) : Prop extends u.Filled where
  setRows : ∀ set ∈ u.sets, set.keyValues.Rows u.keyDataNames.length
  nodup : (u.sets.map UniverseSet.name).Nodup
  name_not_mem : u.name ∉ u.sets.map UniverseSet.name

section Rows

variable {u u' : Universe} {values : ArrayList} {n k k' : ℕ} {t cursor : Bytes} {ts : List Bytes}

theorem ArrayList.Rows.append {values' : ArrayList} (h : values.Rows n) (h' : values'.Rows n) :
    ArrayList.Rows (values ++ values') n := by
  intro row hrow
  rcases List.mem_append.mp hrow with hrow | hrow
  · exact h row hrow
  · exact h' row hrow

theorem UniverseRowsRead.arity {keyTypes attributeTypes : List Bytes}
    {rows : List (List Bytes × List Bytes)}
    (h : UniverseRowsRead keyTypes attributeTypes n cursor rows) :
    ∀ row ∈ rows, row.1.length = keyTypes.length ∧ row.2.length = attributeTypes.length := by
  induction h with
  | nil => exact nofun
  | cons _ _ _ hkeyRow _ hattributeRow _ ih =>
    exact List.forall_mem_cons.mpr ⟨⟨hkeyRow.length_eq, hattributeRow.length_eq⟩, ih⟩

theorem SetRowsRead.arity {keyTypes : List Bytes} {rows : List (List Bytes)}
    (h : SetRowsRead keyTypes n cursor rows) : ∀ row ∈ rows, row.length = keyTypes.length := by
  induction h with
  | nil => exact nofun
  | cons _ hkeyRow _ ih => exact List.forall_mem_cons.mpr ⟨hkeyRow.length_eq, ih⟩

/-- **An insertion keeps the rows of the universe present.** -/
theorem filled_of_insert (hu : u.Filled)
    (h : parseUniverseInsert parserRegex u t = .ok (u', none)) : u'.Filled := by
  obtain ⟨items, -, -, rows, hrows, rfl⟩ := (parseUniverseInsert_eq_ok hu.declared).mp h
  have harity := hrows.arity
  refine ⟨hu.declared.withRows _ _, ?_, hu.keyRows.append ?_, hu.attributeRows.append ?_⟩
  · simp [Universe.withRows, hu.length_eq]
  · intro row hrow
    obtain ⟨r, hr, rfl⟩ := List.mem_map.mp hrow
    exact ⟨r.1, rfl, (harity r hr).1.trans hu.declared.keys.symm⟩
  · intro row hrow
    obtain ⟨r, hr, rfl⟩ := List.mem_map.mp hrow
    exact ⟨r.2, rfl, (harity r hr).2.trans hu.declared.attributes.symm⟩

theorem Inserts.filled (h : Inserts u ts u') (hu : u.Filled) : u'.Filled := by
  induction h with
  | nil => exact hu
  | cons h _ ih => exact ih (filled_of_insert hu h)

/-! ## Sets -/

/-- The part of a universe that the statements about sets leave as it is. -/
structure Universe.SameBase (u u' : Universe) : Prop where
  name : u'.name = u.name
  keyDataTypeNames : u'.keyDataTypeNames = u.keyDataTypeNames
  keyDataNames : u'.keyDataNames = u.keyDataNames
  attributeDataTypeNames : u'.attributeDataTypeNames = u.attributeDataTypeNames
  attributeDataNames : u'.attributeDataNames = u.attributeDataNames
  keyValues : u'.keyValues = u.keyValues
  attributeValues : u'.attributeValues = u.attributeValues

theorem Universe.SameBase.withSet (u : Universe) (k : ℕ) (set : UniverseSet) :
    u.SameBase (u.withSet k set) := ⟨rfl, rfl, rfl, rfl, rfl, rfl, rfl⟩

theorem Universe.SameBase.trans {u₁ u₂ : Universe} (h : u.SameBase u₁) (h' : u₁.SameBase u₂) :
    u.SameBase u₂ :=
  ⟨h'.1.trans h.1, h'.2.trans h.2, h'.3.trans h.3, h'.4.trans h.4, h'.5.trans h.5, h'.6.trans h.6,
    h'.7.trans h.7⟩

theorem Universe.SameBase.filled (h : u.SameBase u') (hu : u.Filled) : u'.Filled where
  declared := ⟨by rw [h.keyDataNames, h.keyDataTypeNames, hu.declared.keys],
    by rw [h.attributeDataNames, h.attributeDataTypeNames, hu.declared.attributes]⟩
  length_eq := by rw [h.keyValues, h.attributeValues, hu.length_eq]
  keyRows := by rw [h.keyValues, h.keyDataNames]; exact hu.keyRows
  attributeRows := by rw [h.attributeValues, h.attributeDataNames]; exact hu.attributeRows

/-- A statement about sets writes one set. -/
theorem exists_withSet_of_create (h : parseCreateSet parserRegex u t k = .ok (u', none)) :
    ∃ set, u' = u.withSet k set := by
  obtain ⟨name, set, -, -, -, -, -, rfl⟩ := parseCreateSet_eq_ok.mp h
  exact ⟨_, rfl⟩

theorem exists_withSet_of_insert (h : parseSetInsert parserRegex u t = .ok (u', none)) :
    ∃ k set, u' = u.withSet k set := by
  obtain ⟨items, name, k, set, rows, -, -, -, -, -, rfl⟩ := parseSetInsert_eq_ok.mp h
  exact ⟨k, _, rfl⟩

theorem SetSteps.sameBase (h : SetSteps u k ts u' k') : u.SameBase u' := by
  induction h with
  | nil => exact ⟨rfl, rfl, rfl, rfl, rfl, rfl, rfl⟩
  | create _ h _ ih =>
    obtain ⟨set, rfl⟩ := exists_withSet_of_create h
    exact (Universe.SameBase.withSet _ _ _).trans ih
  | insert _ h _ ih =>
    obtain ⟨j, set, rfl⟩ := exists_withSet_of_insert h
    exact (Universe.SameBase.withSet _ _ _).trans ih

/-- The rows of every set are present and have the arity of the keys. -/
def Universe.SetRows (u : Universe) : Prop :=
  ∀ set ∈ u.sets, set.keyValues.Rows u.keyDataNames.length

theorem Universe.SetRows.withSet (hu : u.SetRows) {set : UniverseSet}
    (hset : set.keyValues.Rows u.keyDataNames.length) : (u.withSet k set).SetRows := by
  intro set' hset'
  rcases List.mem_or_eq_of_mem_set hset' with hmem | rfl
  · exact hu set' hmem
  · exact hset

theorem SetSteps.setRows (h : SetSteps u k ts u' k') (hdeclared : u.Declared) (hu : u.SetRows) :
    u'.SetRows := by
  induction h with
  | nil => exact hu
  | create _ h _ ih =>
    obtain ⟨name, set, -, -, -, -, hset, rfl⟩ := parseCreateSet_eq_ok.mp h
    exact ih (hdeclared.withSet _ _) (hu.withSet (hu set (List.mem_of_getElem? hset)))
  | insert _ h _ ih =>
    obtain ⟨items, name, j, set, rows, -, -, hset, hrows, -, rfl⟩ := parseSetInsert_eq_ok.mp h
    refine ih (hdeclared.withSet _ _) (hu.withSet ?_)
    refine (hu set (List.mem_of_getElem? hset)).append fun row hrow => ?_
    obtain ⟨r, hr, rfl⟩ := List.mem_map.mp hrow
    exact ⟨r, rfl, (hrows.arity r hr).trans hdeclared.keys.symm⟩

/-! ## Names -/

/-- The names of the sets. -/
def Universe.setNames (u : Universe) : List Bytes := u.sets.map UniverseSet.name

theorem setNames_withSet (u : Universe) (k : ℕ) (set : UniverseSet) :
    (u.withSet k set).setNames = u.setNames.set k set.name := List.map_set

theorem existsUniverseSet_eq_false {name : Bytes} :
    existsUniverseSet u name = false ↔ name ∉ u.setNames := by
  rw [existsUniverseSet, universeSetPosition, Option.isSome_eq_false_iff, Option.isNone_iff_eq_none,
    List.findIdx?_eq_none_iff, Universe.setNames, List.mem_map]
  simp

/-- The sets are named in the order of their creation: those before the index of the next set have
names, and the others have none. -/
theorem SetSteps.names_eq (h : SetSteps u k ts u' k') {names : List Bytes} {m : ℕ}
    (hnames : u.setNames = names ++ List.replicate m []) (hk : names.length = k)
    (hnodup : names.Nodup) (hname : u.name ∉ names) :
    ts.countP (isCreateSet parserRegex) ≤ m ∧
      u'.setNames = names ++ ts.filterMap createdSet ++
        List.replicate (m - ts.countP (isCreateSet parserRegex)) [] ∧
      (names ++ ts.filterMap createdSet).Nodup ∧ u.name ∉ names ++ ts.filterMap createdSet := by
  induction h generalizing names m with
  | nil => simpa using ⟨hnames, hnodup, hname⟩
  | @create u u₁ u₂ k k₂ t ts hset h hrest ih =>
    obtain ⟨name, set, hcreated, -, hnew, hne, hk', rfl⟩ := parseCreateSet_eq_ok.mp h
    rw [existsUniverseSet_eq_false, hnames] at hnew
    have hfresh : name ∉ names := fun hm => hnew (List.mem_append_left _ hm)
    obtain ⟨m, rfl⟩ : ∃ m', m = m' + 1 := by
      apply Nat.exists_eq_succ_of_ne_zero
      rintro rfl
      have hlen := congrArg List.length hnames
      rw [Universe.setNames, List.length_map, List.replicate_zero, List.append_nil, hk] at hlen
      obtain ⟨hlt, -⟩ := List.getElem?_eq_some_iff.mp hk'
      omega
    have hnames' : (u.withSet k { set with name }).setNames =
        (names ++ [name]) ++ List.replicate m [] := by
      rw [setNames_withSet, hnames, ← hk, List.set_append_right _ _ le_rfl, Nat.sub_self,
        List.replicate_succ, List.set_cons_zero, List.append_assoc, List.singleton_append]
    obtain ⟨hle, hall, hnodup', hname'⟩ := ih hnames' (by rw [List.length_append, hk]; rfl)
      (List.nodup_append'.mpr ⟨hnodup, List.nodup_singleton _, by simpa using hfresh⟩)
      (by simpa [Universe.withSet] using ⟨hname, hne⟩)
    rw [List.countP_cons, if_pos hset, List.filterMap_cons, hcreated]
    simp only [List.append_assoc, List.singleton_append] at hall hnodup' hname'
    refine ⟨by omega, ?_, hnodup', hname'⟩
    rw [hall, Nat.add_sub_add_right, List.append_assoc]
  | @insert u u₁ u₂ k k₂ t ts hset h hrest ih =>
    obtain ⟨items, name, j, set, rows, -, -, hset', -, -, rfl⟩ := parseSetInsert_eq_ok.mp h
    have hsame : (u.withSet j { set with keyValues := set.keyValues ++ rows.map some }).setNames =
        u.setNames := by
      rw [setNames_withSet]
      obtain ⟨hj, rfl⟩ := List.getElem?_eq_some_iff.mp hset'
      refine List.ext_getElem (List.length_set ..) fun i hi hi' => ?_
      rw [List.getElem_set]
      split_ifs with h
      · subst h
        simp [Universe.setNames]
      · rfl
    have hnone : createdSet t = none := by
      rw [isCreateSet, isCreateSet_eq, Option.isSome_eq_false_iff, Option.isNone_iff_eq_none] at hset
      exact hset
    rw [List.countP_cons, if_neg (by simp [hset]), List.filterMap_cons, hnone, Nat.add_zero]
    exact ih (hsame.trans hnames) hk hnodup hname

end Rows

/-! ## Accepted files -/

section Accepted

variable {u u' : Universe} {d a i file : Bytes} {inserts sets : List Bytes} {p : Progress}

theorem filled_of_definitions {u₁ u₂ : Universe} (hkeys : u.keyValues = [])
    (hattributes : u.attributeValues = [])
    (hd : parseUniverseDefinition parserRegex u d = .ok (u₁, none))
    (ha : parseAttributesDefinition parserRegex u₁ a = .ok (u₂, none)) : u₂.Filled := by
  obtain ⟨name, columns, types, names, -, -, hk, rfl⟩ := parseUniverseDefinition_eq_ok.mp hd
  obtain ⟨columns', types', names', -, hattr, rfl⟩ := parseAttributesDefinition_eq_ok.mp ha
  refine ⟨⟨(parseValueType_eq_ok hk).2.1, (parseValueType_eq_ok hattr).2.1⟩, ?_, ?_, ?_⟩
  · simp [hkeys, hattributes]
  · simp [ArrayList.Rows, hkeys]
  · simp [ArrayList.Rows, hattributes]

/-- The names of the sets of an accepted file are those it creates, in order. -/
theorem Executes.setNames_eq (h : Executes u d a i inserts sets u') :
    u'.setNames = sets.filterMap createdSet ∧ u'.setNames.Nodup ∧ u'.name ∉ u'.setNames := by
  obtain ⟨⟨u₁, u₂, u₃, u₄, k, hd, ha, hi, hinserts, hsets⟩, -⟩ := h
  have hstart : (initializeSets u₄ (sets.countP (isCreateSet parserRegex))).setNames =
      [] ++ List.replicate (sets.countP (isCreateSet parserRegex)) [] := by
    simp [Universe.setNames, initializeSets]
  obtain ⟨-, hall, hnodup, hname⟩ := hsets.names_eq hstart rfl List.nodup_nil List.not_mem_nil
  rw [List.nil_append, Nat.sub_self, List.replicate_zero, List.append_nil] at hall
  rw [List.nil_append] at hnodup hname
  rw [hall, hsets.sameBase.name]
  exact ⟨rfl, hnodup, hname⟩

theorem Executes.wellFormed (h : Executes createEmptyUniverse d a i inserts sets u') :
    u'.WellFormed := by
  have hnames := h.setNames_eq
  obtain ⟨⟨u₁, u₂, u₃, u₄, k, hd, ha, hi, hinserts, hsets⟩, -⟩ := h
  have hfilled : (initializeSets u₄ (sets.countP (isCreateSet parserRegex))).Filled := by
    have h₄ := hinserts.filled (filled_of_insert (filled_of_definitions rfl rfl hd ha) hi)
    exact ⟨⟨h₄.declared.keys, h₄.declared.attributes⟩, h₄.length_eq, h₄.keyRows, h₄.attributeRows⟩
  refine ⟨hsets.sameBase.filled hfilled, hsets.setRows hfilled.declared fun set hset => ?_,
    hnames.2.1, hnames.2.2⟩
  obtain rfl := List.eq_of_mem_replicate hset
  exact nofun

/-- **An accepted file gives a well-formed universe.** -/
theorem wellFormed_of_parse (h : parseInitialization createEmptyUniverse file = .ok (p, none)) :
    p.u.WellFormed := by
  obtain ⟨-, d, a, i, inserts, sets, -, hexecutes, -⟩ := (parse_eq_ok rfl).mp h
  exact hexecutes.wellFormed

/-- A parsed universe. -/
theorem exists_parse (h : (fun r => (r.1.u, r.2)) <$>
    parseInitialization createEmptyUniverse file = .ok (u, none)) :
    ∃ p, parseInitialization createEmptyUniverse file = .ok (p, none) ∧ p.u = u := by
  obtain ⟨⟨p, _⟩, hp, heq⟩ := map_eq_ok.mp h
  obtain ⟨hu, rfl⟩ := Prod.mk.inj heq
  exact ⟨p, hp, hu⟩

/-- A file with one row and one set. -/
def animalFile : Bytes :=
  lit "CREATE UNIVERSE Animal(name STRING);CREATE ATTRIBUTES Animal(legs INTEGER);INSERT \x7b\"Crow\" : 2\x7d INTO Animal;CREATE SET Bird;INSERT \x7b\"Crow\"\x7d INTO Bird"

/-- The universe of a file with one row and one set. -/
def animalSetUniverse : Universe where
  name := lit "Animal"
  keyDataTypeNames := [lit "STRING"]
  keyDataNames := [lit "name"]
  attributeDataTypeNames := [lit "INTEGER"]
  attributeDataNames := [lit "legs"]
  keyValues := [some [lit "Crow"]]
  attributeValues := [some [lit "2"]]
  sets := [⟨lit "Bird", [some [lit "Crow"]]⟩]

theorem parse_animalFile_eq : (fun r => (r.1.u, r.2)) <$>
    parseInitialization createEmptyUniverse animalFile = .ok (animalSetUniverse, none) := by
  rw [parseInitialization, initializeParserRegex_eq]
  decide +kernel

theorem parse_animalFile :
    (fun r => r.2) <$> parseInitialization createEmptyUniverse animalFile = .ok none := by
  obtain ⟨p, h, -⟩ := exists_parse parse_animalFile_eq
  rw [h]
  rfl

theorem wellFormed_of_parse_animal :
    ∃ p, parseInitialization createEmptyUniverse animalFile = .ok (p, none) ∧ p.u.WellFormed := by
  obtain ⟨⟨p, _⟩, h, rfl⟩ := map_eq_ok.mp parse_animalFile
  exact ⟨p, h, wellFormed_of_parse h⟩

end Accepted

end SetQL
