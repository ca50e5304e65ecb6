import SetQL.Parser.Statements

/-!
# What the parsers of statements read

The copies of the groups of a match never fail, so each reading of a text is a function of it. The
equations of the parsers in terms of their readings, and what a parser that returns 0 has stored.

## Main definitions

* `found p s g`: the part of a string that a group of an expression matches
* `column`, `value`, `item`: the readings at a cursor
* `insertion`, `definition`: the readings of a statement
* `RowReads types str row`: the text of a row is read as its values, by their types

## Main results

* `parseUniverseInsert_eq`, `parseSetInsert_eq`, `parseCreateSet_eq`: the parsers by their readings
* `parseValueType_eq_ok`: as many types as names are stored, and at least one
* `parseRow_eq_ok`: a row that is stored has its arity
* `parseRow_eq_assertion`: when the reading of a row fails an assertion
-/

namespace SetQL

/-! ## Groups -/

/-- A part of a string. -/
def slice (s : Bytes) (part : ℕ × ℕ) : Bytes := (s.take part.2).drop part.1

/-- The part of a string that a group matches. -/
def found (p : Pattern) (s : Bytes) (g : ℕ) : Option Bytes :=
  (regexec p s).bind fun m => (m.group g).map (slice s)

section Groups

variable {p : Pattern} {s : Bytes} {m : RegMatch} {g : ℕ}

theorem copyGroup_eq (h : regexec p s = some m) :
    copyGroup s m g = .ok ((m.group g).map (slice s)) := by
  cases hg : m.group g with
  | none => rw [copyGroup, hg, Option.map_none]
  | some part =>
    obtain ⟨a, b⟩ := part
    have hbounds := regexec_group_bounds h hg
    have hstop := (regexec_eq_some h).2.2.1
    rw [copyGroup, hg, Option.map_some]
    show some <$> strCopyIdx s (some (a, b)) = _
    rw [strCopyIdx.eq_def]
    show some <$> (if a ≤ s.length ∧ b ≤ s.length then _ else _) = _
    rw [if_pos (by omega)]
    rfl

theorem found_of_regexec (h : regexec p s = some m) : found p s g = (m.group g).map (slice s) := by
  rw [found, h, Option.bind_some]

theorem found_of_eq_none (h : regexec p s = none) : found p s g = none := by
  rw [found, h, Option.bind_none]

/-- A group that every match captures is read. -/
theorem exists_found (h : regexec p s = some m) (hg : p.body.always g = true) :
    ∃ w, found p s g = some w ∧ copyGroup s m g = .ok (some w) := by
  obtain ⟨a, b, hab⟩ := regexec_exists_group h hg
  refine ⟨slice s (a, b), ?_, ?_⟩
  · rw [found_of_regexec h, hab, Option.map_some]
  · rw [copyGroup_eq h, hab, Option.map_some]

end Groups

/-! ## Readings -/

/-- The column at a cursor: its name, its type and the text after it. -/
def column (cursor : Bytes) : Option (Bytes × Bytes × Bytes) := do
  let m ← regexec parserRegex.valueType cursor
  let name ← m.group 1
  let type ← m.group 2
  let (offset, _) ← m.group 3
  return (slice cursor name, slice cursor type, cursor.drop offset)

/-- The value at a cursor, and the text after it. -/
def value (cursor : Bytes) : Option (Bytes × Bytes) := do
  let m ← regexec parserRegex.universeValues cursor
  let text ← m.group 1
  let (offset, _) ← m.group 7
  return (slice cursor text, cursor.drop offset)

/-- The item of an insertion at a cursor, and where it ends. -/
def item (cursor : Bytes) : Option (Bytes × ℕ) := do
  let m ← regexec parserRegex.universeInsertSupp cursor
  let text ← m.group 1
  return (slice cursor text, m.stop)

/-- The items of an insertion, and what they are inserted into. -/
def insertion (str : Bytes) : Option (Bytes × Bytes) := do
  let items ← found parserRegex.universeInsert str 1
  let name ← found parserRegex.universeInsert str 2
  return (items, name)

/-- The name and the columns of a definition. -/
def definition (p : Pattern) (str : Bytes) : Option (Bytes × Bytes) := do
  let name ← found p str 1
  let columns ← found p str 2
  return (name, columns)

/-- The name of a set that is created. -/
def createdSet (str : Bytes) : Option Bytes := found parserRegex.createSet str 1

/-- The integer in a text. -/
def integerIn (str : Bytes) : Option Bytes :=
  ((found parserRegex.int1 str 1).map (chr '-' :: ·)).or (found parserRegex.int2 str 1)

/-- The value of a text. -/
def valueOf (str : Bytes) : DataType → Option Bytes
  | .string => found parserRegex.str1 str 1
  | .integer | .float => integerIn str

section Readings

variable {cursor str : Bytes} {u : Universe}

theorem nextColumn_eq (cursor : Bytes) : nextColumn parserRegex cursor = .ok (column cursor) := by
  cases h : regexec parserRegex.valueType cursor with
  | none => rw [nextColumn, h, column, h]; rfl
  | some m =>
    obtain ⟨a, b, h₁⟩ := regexec_exists_group (g := 1) h (by decide)
    obtain ⟨c, d, h₂⟩ := regexec_exists_group (g := 2) h (by decide)
    obtain ⟨e, f, h₃⟩ := regexec_exists_group (g := 3) h (by decide)
    rw [nextColumn, h, column, h]
    simp [copyGroup_eq h, h₁, h₂, h₃, strCopy]

theorem nextValue_eq (cursor : Bytes) : nextValue parserRegex cursor = .ok (value cursor) := by
  cases h : regexec parserRegex.universeValues cursor with
  | none => rw [nextValue, h, value, h]; rfl
  | some m =>
    obtain ⟨a, b, h₁⟩ := regexec_exists_group (g := 1) h (by decide)
    obtain ⟨c, d, h₇⟩ := regexec_exists_group (g := 7) h (by decide)
    rw [nextValue, h, value, h]
    simp [copyGroup_eq h, h₁, h₇, strCopy]

theorem nextItem_eq (cursor : Bytes) : nextItem parserRegex cursor = .ok (item cursor) := by
  cases h : regexec parserRegex.universeInsertSupp cursor with
  | none => rw [nextItem, h, item, h]; rfl
  | some m =>
    obtain ⟨a, b, h₁⟩ := regexec_exists_group (g := 1) h (by decide)
    rw [nextItem, h, item, h]
    simp [copyGroup_eq h, h₁, strCopy]

theorem matchedGroup1_eq {p : Pattern} (hp : p.body.always 1 = true) (str : Bytes) :
    matchedGroup1 p str = .ok (found p str 1) := by
  cases h : regexec p str with
  | none => rw [matchedGroup1, h, found_of_eq_none h]
  | some m =>
    obtain ⟨w, hfound, hcopy⟩ := exists_found h hp
    rw [matchedGroup1, h, hfound]
    simp [hcopy, strCopy]

theorem parseInteger_eq (str : Bytes) : parseInteger parserRegex str = .ok (integerIn str) := by
  rw [parseInteger, matchedGroup1_eq (by decide), matchedGroup1_eq (by decide), integerIn]
  cases found parserRegex.int1 str 1 <;> rfl

theorem parseValue_eq (str : Bytes) (t : DataType) :
    parseValue parserRegex (some str) (some t) = .ok (valueOf str t) := by
  cases t with
  | string => exact matchedGroup1_eq (by decide) str
  | integer => exact parseInteger_eq str
  | float => exact parseInteger_eq str

/-- A text that is not null is parsed by its type, if that is known. -/
theorem parseValue_some (str typeName : Bytes) :
    parseValue parserRegex (some str) (typeName2dataType typeName) =
      .ok ((typeName2dataType typeName).bind (valueOf str)) := by
  cases typeName2dataType typeName with
  | none => rfl
  | some t => exact parseValue_eq str t

theorem parseUniverseInsert_eq (u : Universe) (str : Bytes) :
    parseUniverseInsert parserRegex u str =
      match insertion str with
      | none => .ok (u, some (lit "Error parsing the universe insert."))
      | some (items, universeName) =>
        if u.name ≠ universeName then
          .ok (u, some (lit "Error parsing the universe insert: Incorrect <universe_name>"))
        else parseUniverseInsertSupp parserRegex u items := by
  cases h : regexec parserRegex.universeInsert str with
  | none => rw [parseUniverseInsert, h, insertion, found_of_eq_none h]; rfl
  | some m =>
    obtain ⟨items, hitems, hcopy₁⟩ := exists_found (g := 1) h (by decide)
    obtain ⟨name, hname, hcopy₂⟩ := exists_found (g := 2) h (by decide)
    rw [parseUniverseInsert, h, insertion, hitems, hname]
    simp only [hcopy₁, hcopy₂, ok_bind, strCopy]
    rfl

theorem parseSetInsert_eq (u : Universe) (str : Bytes) :
    parseSetInsert parserRegex u str =
      match insertion str with
      | none => .ok (u, some (lit "Error parsing the set insert."))
      | some (items, setName) =>
        match universeSetPosition u setName with
        | none => do
          let message ← errorMessage
            (lit "Error parsing set insert. Set \"" ++ setName ++ lit "\" does not exist")
          return (u, some message)
        | some setIndex => parseSetInsertSupp parserRegex u items setIndex := by
  cases h : regexec parserRegex.universeInsert str with
  | none => rw [parseSetInsert, h, insertion, found_of_eq_none h]; rfl
  | some m =>
    obtain ⟨items, hitems, hcopy₁⟩ := exists_found (g := 1) h (by decide)
    obtain ⟨name, hname, hcopy₂⟩ := exists_found (g := 2) h (by decide)
    rw [parseSetInsert, h, insertion, hitems, hname]
    simp only [hcopy₁, hcopy₂, ok_bind, strCopy]
    rfl

theorem isCreateSet_eq (str : Bytes) :
    (regexec parserRegex.createSet str).isSome = (createdSet str).isSome := by
  cases h : regexec parserRegex.createSet str with
  | none => rw [createdSet, found_of_eq_none h]; rfl
  | some m =>
    obtain ⟨w, hfound, -⟩ := exists_found (g := 1) h (by decide)
    rw [createdSet, hfound]
    rfl

theorem parseCreateSet_eq (u : Universe) (str : Bytes) (setIndex : ℕ) :
    parseCreateSet parserRegex u str setIndex =
      match createdSet str with
      | none => .ok (u, some (lit "Error parsing the create set."))
      | some setName =>
        if 256 ≤ setName.length then .error .assertion
        else if existsUniverseSet u setName then do
          let message ← errorMessage
            (lit "Error creating set. Set \"" ++ setName ++ lit "\" already exists.")
          return (u, some message)
        else if u.name = setName then
          .ok (u, some (lit "Error creating set. Sets cannot have the same name as the universe."))
        else
          match u.sets[setIndex]? with
          | none => .error .assertion
          | some set =>
            .ok ({ u with sets := u.sets.set setIndex { set with name := setName } }, none) := by
  cases h : regexec parserRegex.createSet str with
  | none => rw [parseCreateSet, h, createdSet, found_of_eq_none h]; rfl
  | some m =>
    obtain ⟨name, hname, hcopy⟩ := exists_found (g := 1) h (by decide)
    rw [parseCreateSet, h, createdSet, hname]
    simp only [hcopy, ok_bind, strCopy]
    rfl

theorem parseUniverseDefinition_eq (u : Universe) (str : Bytes) :
    parseUniverseDefinition parserRegex u str =
      match definition parserRegex.universeDefinition str with
      | none => .ok (u, some (lit "Error parsing the universe definition. Usage: CREATE UNIVERSE <universe_name>(<value_name_1> <data_type_1>);"))
      | some (universeName, columns) =>
        if 256 ≤ universeName.length then
          .ok (u, some (lit "Error parsing the universe definition: <universe_name> too long (max 256)."))
        else parseUniverseValueType parserRegex { u with name := universeName } columns := by
  cases h : regexec parserRegex.universeDefinition str with
  | none => rw [parseUniverseDefinition, h, definition, found_of_eq_none h]; rfl
  | some m =>
    obtain ⟨name, hname, hcopy₁⟩ := exists_found (g := 1) h (by decide)
    obtain ⟨columns, hcolumns, hcopy₂⟩ := exists_found (g := 2) h (by decide)
    rw [parseUniverseDefinition, h, definition, hname, hcolumns]
    simp only [hcopy₁, hcopy₂, ok_bind, strCopy]
    rfl

theorem parseAttributesDefinition_eq (u : Universe) (str : Bytes) :
    parseAttributesDefinition parserRegex u str =
      match definition parserRegex.attributesDefinition str with
      | none => .ok (u, some (lit "Error parsing the attributes definition. Usage: CREATE ATTRIBUTES <universe_name>(<value_name_1> <data_type_1>);"))
      | some (universeName, columns) =>
        if u.name ≠ universeName then
          .ok (u, some (lit "Error parsing the attributes definition: Incorrect <universe_name>"))
        else parseAttributesValueType parserRegex u columns := by
  cases h : regexec parserRegex.attributesDefinition str with
  | none => rw [parseAttributesDefinition, h, definition, found_of_eq_none h]; rfl
  | some m =>
    obtain ⟨name, hname, hcopy₁⟩ := exists_found (g := 1) h (by decide)
    obtain ⟨columns, hcolumns, hcopy₂⟩ := exists_found (g := 2) h (by decide)
    rw [parseAttributesDefinition, h, definition, hname, hcolumns]
    simp only [hcopy₁, hcopy₂, ok_bind, strCopy]
    rfl

end Readings

/-! ## Definitions -/

section Definitions

variable {u u' : Universe} {str : Bytes} {types names : List Bytes} {error : Bool}

theorem copyStringArray_eq_ok {strings : List (Option Bytes)} {copy : List Bytes}
    (h : copyStringArray strings = .ok copy) : strings = copy.map some := by
  induction strings generalizing copy with
  | nil =>
    obtain rfl : [] = copy := Except.ok.inj h
    rfl
  | cons string strings ih =>
    rw [copyStringArray, List.mapM_cons] at h
    obtain ⟨s, hs, h⟩ := bind_eq_ok.mp h
    obtain ⟨rest, hrest, h⟩ := bind_eq_ok.mp h
    obtain rfl : s :: rest = copy := Except.ok.inj h
    cases string with
    | none => exact nomatch hs
    | some string =>
      obtain rfl := Except.ok.inj hs
      rw [ih hrest, List.map_cons]

/-- A copy of strings stops at a null pointer only. -/
theorem copyStringArray_ne_error (strings : List (Option Bytes)) {e : Stop} (he : e ≠ .nullDeref) :
    copyStringArray strings ≠ .error e := by
  induction strings with
  | nil => exact nofun
  | cons string strings ih =>
    rw [copyStringArray, List.mapM_cons]
    refine bind_ne_error ?_ fun s _ => bind_ne_error ih fun rest _ => nofun
    cases string with
    | none => exact fun h => he (Except.error.inj h).symm
    | some s => exact nofun

/-- The loop over the columns reads all of them, or leaves a null type. -/
theorem exists_columnsFrom (n : ℕ) (cursor : Bytes) : ∃ names types error,
    columnsFrom parserRegex n cursor = .ok (names, types, error) ∧ names.length = n ∧
      types.length = n ∧ (error = true → none ∈ types) := by
  induction n generalizing cursor with
  | zero => exact ⟨[], [], false, rfl, rfl, rfl, nofun⟩
  | succ n ih =>
    rw [columnsFrom, nextColumn_eq, ok_bind]
    cases column cursor with
    | none =>
      exact ⟨_, _, _, rfl, List.length_replicate, List.length_replicate,
        fun _ => List.mem_replicate.mpr ⟨Nat.succ_ne_zero n, rfl⟩⟩
    | some c =>
      obtain ⟨names, types, error, h, hnames, htypes, herror⟩ := ih c.2.2
      refine ⟨some c.1 :: names, some c.2.1 :: types, error, ?_, ?_, ?_, ?_⟩
      · show (columnsFrom parserRegex n c.2.2 >>= _) = _
        rw [h]
        rfl
      · rw [List.length_cons, hnames]
      · rw [List.length_cons, htypes]
      · intro he
        exact List.mem_cons_of_mem _ (herror he)

/-- **As many types as names are stored, one more than the text has commas.** -/
theorem parseValueType_eq_ok (h : parseValueType parserRegex str = .ok (types, names, error)) :
    types.length = countDelimiter str comma + 1 ∧ names.length = types.length ∧ error = false := by
  obtain ⟨ns, ts, e, hcolumns, hns, hts, he⟩ := exists_columnsFrom (countDelimiter str comma + 1) str
  rw [parseValueType, hcolumns, ok_bind] at h
  obtain ⟨types', htypes, h⟩ := bind_eq_ok.mp h
  obtain ⟨names', hnames, h⟩ := bind_eq_ok.mp h
  obtain ⟨htypes', hrest⟩ := Prod.mk.inj (Except.ok.inj h)
  obtain ⟨hnames', herror⟩ := Prod.mk.inj hrest
  subst htypes' hnames' herror
  have htypes := copyStringArray_eq_ok htypes
  have hnames := copyStringArray_eq_ok hnames
  rw [htypes, List.length_map] at hts
  rw [hnames, List.length_map] at hns
  refine ⟨hts, by rw [hns, hts], ?_⟩
  cases e with
  | false => rfl
  | true => simp [htypes] at he

theorem parseValueType_ne_error (str : Bytes) {e : Stop} (he : e ≠ .nullDeref) :
    parseValueType parserRegex str ≠ .error e := by
  obtain ⟨ns, ts, error, hcolumns, -⟩ := exists_columnsFrom (countDelimiter str comma + 1) str
  rw [parseValueType, hcolumns, ok_bind]
  exact bind_ne_error (copyStringArray_ne_error _ he) fun _ _ =>
    bind_ne_error (copyStringArray_ne_error _ he) fun _ _ => nofun

/-- The universe after its definition. -/
theorem parseUniverseDefinition_eq_ok :
    parseUniverseDefinition parserRegex u str = .ok (u', none) ↔
      ∃ name columns types names, definition parserRegex.universeDefinition str = some (name, columns) ∧
        name.length < 256 ∧ parseValueType parserRegex columns = .ok (types, names, false) ∧
        u' = { u with name, keyDataTypeNames := types, keyDataNames := names } := by
  rw [parseUniverseDefinition_eq]
  cases definition parserRegex.universeDefinition str with
  | none => simp
  | some d =>
    obtain ⟨name, columns⟩ := d
    by_cases hlen : 256 ≤ name.length
    · simp [hlen]
    · simp only [hlen, if_false, parseUniverseValueType, bind_eq_ok, Prod.exists]
      constructor
      · rintro ⟨types, names, error, hcolumns, h⟩
        obtain ⟨-, -, rfl⟩ := parseValueType_eq_ok hcolumns
        obtain rfl := (Prod.mk.inj (Except.ok.inj h)).1
        exact ⟨name, columns, types, names, rfl, Nat.lt_of_not_le hlen, hcolumns, rfl⟩
      · rintro ⟨_, _, types, names, hd, -, hcolumns, rfl⟩
        obtain ⟨rfl, rfl⟩ := Prod.mk.inj (Option.some.inj hd)
        exact ⟨types, names, false, hcolumns, rfl⟩

/-- The universe after the definition of its attributes. -/
theorem parseAttributesDefinition_eq_ok :
    parseAttributesDefinition parserRegex u str = .ok (u', none) ↔
      ∃ columns types names,
        definition parserRegex.attributesDefinition str = some (u.name, columns) ∧
        parseValueType parserRegex columns = .ok (types, names, false) ∧
        u' = { u with attributeDataTypeNames := types, attributeDataNames := names } := by
  rw [parseAttributesDefinition_eq]
  cases definition parserRegex.attributesDefinition str with
  | none => simp
  | some d =>
    obtain ⟨name, columns⟩ := d
    by_cases hname : u.name = name
    · subst hname
      simp only [ne_eq, not_true_eq_false, if_false, parseAttributesValueType, bind_eq_ok, Prod.exists]
      constructor
      · rintro ⟨types, names, error, hcolumns, h⟩
        obtain ⟨-, -, rfl⟩ := parseValueType_eq_ok hcolumns
        obtain rfl := (Prod.mk.inj (Except.ok.inj h)).1
        exact ⟨columns, types, names, rfl, hcolumns, rfl⟩
      · rintro ⟨_, types, names, hd, hcolumns, rfl⟩
        obtain ⟨-, rfl⟩ := Prod.mk.inj (Option.some.inj hd)
        exact ⟨types, names, false, hcolumns, rfl⟩
    · simp [hname, Ne.symm hname]

theorem parseUniverseDefinition_ne_error (u : Universe) (str : Bytes) {e : Stop}
    (he : e ≠ .nullDeref) : parseUniverseDefinition parserRegex u str ≠ .error e := by
  rw [parseUniverseDefinition_eq]
  cases definition parserRegex.universeDefinition str with
  | none => exact nofun
  | some d =>
    show (if _ then _ else _) ≠ _
    split_ifs
    · exact nofun
    · exact bind_ne_error (parseValueType_ne_error _ he) fun _ _ => nofun

theorem parseAttributesDefinition_ne_error (u : Universe) (str : Bytes) {e : Stop}
    (he : e ≠ .nullDeref) : parseAttributesDefinition parserRegex u str ≠ .error e := by
  rw [parseAttributesDefinition_eq]
  cases definition parserRegex.attributesDefinition str with
  | none => exact nofun
  | some d =>
    show (if _ then _ else _) ≠ _
    split_ifs
    · exact nofun
    · exact bind_ne_error (parseValueType_ne_error _ he) fun _ _ => nofun

end Definitions

/-! ## Rows -/

/-- The texts of the next `n` values. -/
def valueTexts : ℕ → Bytes → Option (List Bytes)
  | 0, _ => some []
  | n + 1, cursor => do
    let (text, cursor) ← value cursor
    let texts ← valueTexts n cursor
    return text :: texts

/-- The texts of values, their types, and the values. -/
inductive ParsesAs : List Bytes → List Bytes → List Bytes → Prop
  | nil (types) : ParsesAs [] types []
  | cons {text texts typeName types t v row} (ht : typeName2dataType typeName = some t)
    (hv : valueOf text t = some v) (hrest : ParsesAs texts types row) :
    ParsesAs (text :: texts) (typeName :: types) (v :: row)

/-- The text has as many values as there are types, and they are parsed as the row. -/
def RowReads (types : List Bytes) (str : Bytes) (row : List Bytes) : Prop :=
  types.length = countDelimiter str comma + 1 ∧
    ∃ texts, valueTexts types.length str = some texts ∧ ParsesAs texts types row

section Rows

variable {types texts row : List Bytes} {values : List (Option Bytes)} {error : Bool}
  {kind wrongAmount str cursor : Bytes} {n : ℕ} {assertions : Bool}

theorem ParsesAs.length_eq (h : ParsesAs texts types row) : row.length = texts.length := by
  induction h with
  | nil => rfl
  | cons _ _ _ ih => rw [List.length_cons, List.length_cons, ih]

theorem length_valueTexts (h : valueTexts n cursor = some texts) : texts.length = n := by
  induction n generalizing cursor texts with
  | zero =>
    obtain rfl := Option.some.inj h
    rfl
  | succ n ih =>
    obtain ⟨⟨text, rest⟩, -, h⟩ := Option.bind_eq_some_iff.mp h
    obtain ⟨texts', htexts, h⟩ := Option.bind_eq_some_iff.mp h
    obtain rfl := Option.some.inj h
    rw [List.length_cons, ih htexts]

theorem valueTexts_succ {text rest : Bytes} {texts : List Bytes}
    (hvalue : value cursor = some (text, rest)) (htexts : valueTexts n rest = some texts) :
    valueTexts (n + 1) cursor = some (text :: texts) := by
  rw [valueTexts, hvalue, Option.bind_eq_bind, Option.bind_some]
  dsimp only
  rw [htexts]
  rfl

/-- Fewer values are read as the first ones. -/
theorem valueTexts_take {m : ℕ} (h : valueTexts m cursor = some texts) (hnm : n ≤ m) :
    valueTexts n cursor = some (texts.take n) := by
  induction n generalizing m cursor texts with
  | zero => rw [valueTexts, List.take_zero]
  | succ n ih =>
    obtain ⟨m, rfl⟩ := Nat.exists_eq_succ_of_ne_zero (Nat.ne_of_gt (Nat.zero_lt_of_lt hnm))
    obtain ⟨⟨text, rest⟩, hvalue, h⟩ := Option.bind_eq_some_iff.mp h
    obtain ⟨texts', htexts, h⟩ := Option.bind_eq_some_iff.mp h
    obtain rfl := Option.some.inj h
    exact valueTexts_succ hvalue (ih htexts (Nat.le_of_succ_le_succ hnm))

/-- A value that is parsed from the text at its place. -/
theorem ParsesAs.exists_value (h : ParsesAs texts types row) {j : ℕ} {text typeName : Bytes}
    (htext : texts[j]? = some text) (htype : types[j]? = some typeName) :
    ∃ ty v, typeName2dataType typeName = some ty ∧ valueOf text ty = some v ∧ row[j]? = some v := by
  induction h generalizing j with
  | nil types => exact nomatch htext
  | cons ht hv _ ih =>
    cases j with
    | zero =>
      obtain rfl := Option.some.inj htext
      obtain rfl := Option.some.inj htype
      exact ⟨_, _, ht, hv, rfl⟩
    | succ j => exact ih htext htype

theorem RowReads.length_eq (h : RowReads types str row) : row.length = types.length := by
  obtain ⟨-, texts, htexts, hrow⟩ := h
  rw [hrow.length_eq, length_valueTexts htexts]

/-- The loop over the texts reads all of them, or leaves a null text. -/
theorem valuesFrom_cases (n : ℕ) (cursor : Bytes) :
    (∃ texts, valueTexts n cursor = some texts ∧
        valuesFrom parserRegex n cursor = .ok (texts.map some, false)) ∨
      valueTexts n cursor = none ∧ ∃ values, none ∈ values ∧
        valuesFrom parserRegex n cursor = .ok (values, true) := by
  induction n generalizing cursor with
  | zero => exact Or.inl ⟨[], rfl, rfl⟩
  | succ n ih =>
    rw [valuesFrom, nextValue_eq, ok_bind, valueTexts]
    cases value cursor with
    | none =>
      exact Or.inr ⟨rfl, _, List.mem_replicate.mpr ⟨Nat.succ_ne_zero n, rfl⟩, rfl⟩
    | some v =>
      obtain ⟨text, rest⟩ := v
      rcases ih rest with ⟨texts, htexts, h⟩ | ⟨htexts, values, hnone, h⟩
      · refine Or.inl ⟨text :: texts, ?_, ?_⟩
        · simp [htexts]
        · show (valuesFrom parserRegex n rest >>= _) = _
          rw [h]
          rfl
      · refine Or.inr ⟨?_, some text :: values, List.mem_cons_of_mem _ hnone, ?_⟩
        · simp [htexts]
        · show (valuesFrom parserRegex n rest >>= _) = _
          rw [h]
          rfl

/-- A null text is parsed, or printed where its type is unknown. -/
theorem parseValues_none (kind typeName : Bytes) (values : List (Option Bytes)) (types : List Bytes) :
    parseValues parserRegex kind (none :: values) (typeName :: types) = .error .undefined := by
  show (parseValue parserRegex none (typeName2dataType typeName) >>= _) = _
  cases typeName2dataType typeName <;> rfl

/-- A text that does not parse is named in the error. -/
theorem parseValues_refused {text typeName : Bytes}
    (h : (typeName2dataType typeName).bind (valueOf text) = none) :
    parseValues parserRegex kind (some text :: values) (typeName :: types) =
      Except.error <$> errorMessage (lit "Error parsing " ++ kind ++ lit " value " ++ text ++
        lit " of type " ++ typeName ++ lit ".") := by
  show (parseValue parserRegex (some text) (typeName2dataType typeName) >>= _) = _
  rw [parseValue_some, h]
  rfl

/-- Behind a text that parses the other values are parsed. -/
theorem parseValues_parsed {text typeName v : Bytes}
    (h : (typeName2dataType typeName).bind (valueOf text) = some v) :
    parseValues parserRegex kind (some text :: values) (typeName :: types) = (do
      let rest ← parseValues parserRegex kind values types
      return rest.map (v :: ·)) := by
  show (parseValue parserRegex (some text) (typeName2dataType typeName) >>= _) = _
  rw [parseValue_some, h]
  rfl

theorem parseValues_eq_ok : parseValues parserRegex kind values types = .ok (.ok row) ↔
    ∃ texts, values = texts.map some ∧ ParsesAs texts types row := by
  induction values generalizing types row with
  | nil =>
    rw [parseValues]
    constructor
    · intro h
      obtain rfl := Except.ok.inj (Except.ok.inj h)
      exact ⟨[], rfl, .nil types⟩
    · rintro ⟨texts, htexts, hrow⟩
      obtain rfl := List.map_eq_nil_iff.mp htexts.symm
      cases hrow
      rfl
  | cons value values ih =>
    cases types with
    | nil =>
      refine iff_of_false nofun ?_
      rintro ⟨texts, htexts, hrow⟩
      cases hrow
      exact nomatch htexts
    | cons typeName types =>
      constructor
      · intro h
        cases value with
        | none => exact nomatch (parseValues_none ..).symm.trans h
        | some text =>
          cases hread : (typeName2dataType typeName).bind (valueOf text) with
          | none =>
            rw [parseValues_refused hread] at h
            obtain ⟨_, -, h⟩ := map_eq_ok.mp h
            exact nomatch h
          | some v =>
            rw [parseValues_parsed hread] at h
            obtain ⟨rest, hrest, h⟩ := bind_eq_ok.mp h
            have h := Except.ok.inj h
            cases rest with
            | error message => exact nomatch h
            | ok rest =>
              obtain rfl : v :: rest = row := Except.ok.inj h
              obtain ⟨texts, rfl, hrow⟩ := ih.mp hrest
              obtain ⟨t, ht, hv⟩ := Option.bind_eq_some_iff.mp hread
              exact ⟨text :: texts, rfl, .cons ht hv hrow⟩
      · rintro ⟨texts, htexts, hrow⟩
        cases hrow with
        | nil => exact nomatch htexts
        | @cons text texts _ _ t v row ht hv hrow =>
          obtain ⟨rfl, rfl⟩ := List.cons.inj htexts
          rw [parseValues_parsed (Option.bind_eq_some_iff.mpr ⟨t, ht, hv⟩),
            ih.mpr ⟨texts, rfl, hrow⟩]
          rfl

theorem errorMessage_ne_error {e : Stop} (he : e ≠ .outOfBounds) (text : Bytes) :
    errorMessage text ≠ .error e := by
  unfold errorMessage
  split
  · exact nofun
  · exact fun h => he (Except.error.inj h).symm

theorem parseValues_ne_assertion :
    parseValues parserRegex kind values types ≠ .error .assertion := by
  induction values generalizing types with
  | nil => exact nofun
  | cons value values ih =>
    cases types with
    | nil => exact nofun
    | cons typeName types =>
      cases value with
      | none => rw [parseValues_none]; exact nofun
      | some text =>
        cases hread : (typeName2dataType typeName).bind (valueOf text) with
        | none =>
          rw [parseValues_refused hread]
          exact map_ne_error (errorMessage_ne_error (by decide) _)
        | some v =>
          rw [parseValues_parsed hread]
          exact bind_ne_error ih fun rest _ => nofun

/-- **A row is stored exactly when its text reads as it** and the assertions hold. -/
theorem parseRow_eq_ok :
    parseRow parserRegex wrongAmount kind types types.length assertions str = .ok (.ok row) ↔
      assertions = true ∧ RowReads types str row := by
  rw [parseRow]
  by_cases hcount : types.length = countDelimiter str comma + 1
  · rw [if_neg (not_not.mpr hcount)]
    rcases valuesFrom_cases types.length str with ⟨texts, htexts, h⟩ | ⟨htexts, values, hnone, h⟩
    · rw [h]
      cases assertions with
      | false => simp
      | true =>
        simp only [ok_bind, Bool.not_true, Bool.false_eq_true, if_false, bind_eq_ok, true_and]
        constructor
        · rintro ⟨result, hresult, h⟩
          cases result with
          | error message => exact nomatch h
          | ok parsed =>
            obtain rfl : parsed = row := Except.ok.inj (Except.ok.inj h)
            obtain ⟨texts', heq, hrow⟩ := parseValues_eq_ok.mp hresult
            obtain rfl := List.map_injective_iff.mpr (Option.some_injective _) heq
            exact ⟨hcount, texts, htexts, hrow⟩
        · rintro ⟨-, texts', htexts', hrow⟩
          obtain rfl := Option.some.inj (htexts.symm.trans htexts')
          exact ⟨.ok row, parseValues_eq_ok.mpr ⟨texts, rfl, hrow⟩, rfl⟩
    · rw [h]
      apply iff_of_false
      · cases assertions with
        | false => exact nofun
        | true =>
          simp only [ok_bind, Bool.not_true, Bool.false_eq_true, if_false, bind_eq_ok]
          rintro ⟨result, hresult, h⟩
          cases result with
          | error message => exact nomatch h
          | ok parsed =>
            obtain ⟨texts, rfl, -⟩ := parseValues_eq_ok.mp hresult
            simp at hnone
      · rintro ⟨-, -, texts, h', -⟩
        exact nomatch htexts.symm.trans h'
  · rw [if_pos hcount]
    refine iff_of_false nofun ?_
    rintro ⟨-, hreads, -⟩
    exact hcount hreads

/-- **A row fails an assertion exactly when it has the right amount of values** and the assertions
do not hold. -/
theorem parseRow_eq_assertion :
    parseRow parserRegex wrongAmount kind types n assertions str = .error .assertion ↔
      n = countDelimiter str comma + 1 ∧ assertions = false := by
  rw [parseRow]
  by_cases hcount : n = countDelimiter str comma + 1
  · rw [if_neg (not_not.mpr hcount)]
    have hvalues : ∃ values error, valuesFrom parserRegex n str = .ok (values, error) := by
      rcases valuesFrom_cases n str with ⟨texts, -, h⟩ | ⟨-, values, -, h⟩
      · exact ⟨_, _, h⟩
      · exact ⟨_, _, h⟩
    obtain ⟨values, error, h⟩ := hvalues
    rw [h]
    cases assertions with
    | false => simp [hcount]
    | true =>
      refine iff_of_false ?_ (by simp)
      rw [ok_bind]
      refine bind_ne_error parseValues_ne_assertion fun result _ => ?_
      cases result with
      | error message => exact nofun
      | ok row => exact nofun
  · rw [if_pos hcount]
    exact iff_of_false nofun fun h => hcount h.1

end Rows

end SetQL
