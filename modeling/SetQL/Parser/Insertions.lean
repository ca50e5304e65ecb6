import SetQL.Parser.Readings

/-!
# What insertions store

An insertion reads as many rows as it has delimiters, and each parser stores them as a whole: the
rows of the universe are appended to its two lists, those of a set to its rows. The equations of
the parsers that return 0 say exactly what is read and where it is written.

## Main definitions

* `UniverseRowsRead`, `SetRowsRead`: the rows that are read from a cursor
* `Universe.withRows`, `Universe.withSet`: the universe after an insertion
* `Universe.Declared`: as many names as types are declared

## Main results

* `parseUniverseInsert_eq_ok`: an insertion into the universe appends the rows it reads
* `parseSetInsert_eq_ok`: an insertion into a set appends the rows it reads
* `parseCreateSet_eq_ok`: a set is named
* `parseUniverseInsert_ne_assertion`: an insertion into the universe fails no assertion
-/

namespace SetQL


/-- The universe with its rows replaced. -/
def Universe.withRows (u : Universe) (keyValues attributeValues : ArrayList) : Universe :=
  { u with keyValues, attributeValues }

/-- The universe with a set replaced. -/
def Universe.withSet (u : Universe) (setIndex : ℕ) (set : UniverseSet) : Universe :=
  { u with sets := u.sets.set setIndex set }

/-- The next `n` rows of an insertion into the universe, from the cursor: the item of a key, a colon
and the item of the attributes. -/
inductive UniverseRowsRead (keyTypes attributeTypes : List Bytes) :
    ℕ → Bytes → List (List Bytes × List Bytes) → Prop
  | nil (cursor) : UniverseRowsRead keyTypes attributeTypes 0 cursor []
  | cons {n cursor keys offset keyRow attributes offset' attributeRow rows}
    (hkeys : item cursor = some (keys, offset)) (hbefore : cursor[offset - 1]?.getD 0 ≠ 0)
    (hcolon : cursor[offset]? = some colon) (hkeyRow : RowReads keyTypes keys keyRow)
    (hattributes : item (cursor.drop (offset + 1)) = some (attributes, offset'))
    (hattributeRow : RowReads attributeTypes attributes attributeRow)
    (hrows : UniverseRowsRead keyTypes attributeTypes n ((cursor.drop (offset + 1)).drop offset') rows) :
    UniverseRowsRead keyTypes attributeTypes (n + 1) cursor ((keyRow, attributeRow) :: rows)

/-- The next `n` rows of an insertion into a set, from the cursor. -/
inductive SetRowsRead (keyTypes : List Bytes) : ℕ → Bytes → List (List Bytes) → Prop
  | nil (cursor) : SetRowsRead keyTypes 0 cursor []
  | cons {n cursor keys offset keyRow rows} (hkeys : item cursor = some (keys, offset))
    (hkeyRow : RowReads keyTypes keys keyRow)
    (hrows : SetRowsRead keyTypes n (cursor.drop offset) rows) :
    SetRowsRead keyTypes (n + 1) cursor (keyRow :: rows)

/-- As many names as types are declared. -/
structure Universe.Declared (u : Universe) : Prop where
  keys : u.keyDataNames.length = u.keyDataTypeNames.length
  attributes : u.attributeDataNames.length = u.attributeDataTypeNames.length

theorem Universe.Declared.withRows {u : Universe} (hu : u.Declared) (k a : ArrayList) :
    (u.withRows k a).Declared := ⟨hu.keys, hu.attributes⟩

theorem Universe.Declared.withSet {u : Universe} (hu : u.Declared) (k : ℕ) (set : UniverseSet) :
    (u.withSet k set).Declared := ⟨hu.keys, hu.attributes⟩

section Insertions

variable {u u' : Universe} {str cursor items : Bytes} {n i k : ℕ} {row : List Bytes}

/-- A list with null rows behind its rows, after the first of them is written. -/
theorem ArrayList.set_grow {rows : ArrayList} (h : rows.length = i) (row : List Bytes) :
    (rows ++ List.replicate (n + 1) none).set i (some row) =
      (rows ++ [some row]) ++ List.replicate n none := by
  rw [List.set_append_right _ _ h.le, h, Nat.sub_self, List.replicate_succ, List.set_cons_zero,
    List.append_assoc, List.singleton_append]

theorem Parsed.andThen_eq_ok {part : C Parsed} {rest : Universe → C Parsed} :
    Parsed.andThen part rest = .ok (u', none) ↔ ∃ u, part = .ok (u, none) ∧ rest u = .ok (u', none) := by
  rw [Parsed.andThen, bind_eq_ok]
  constructor
  · rintro ⟨⟨u, _ | message⟩, hpart, h⟩
    · exact ⟨u, hpart, h⟩
    · exact nomatch (Prod.mk.inj (Except.ok.inj h)).2
  · rintro ⟨u, hpart, h⟩
    exact ⟨(u, none), hpart, h⟩

theorem Parsed.andThen_eq_error {part : C Parsed} {rest : Universe → C Parsed} {e : Stop} :
    Parsed.andThen part rest = .error e ↔
      part = .error e ∨ ∃ u, part = .ok (u, none) ∧ rest u = .error e := by
  rw [Parsed.andThen, bind_eq_error]
  apply or_congr_right
  constructor
  · rintro ⟨⟨u, _ | message⟩, hpart, h⟩
    · exact ⟨u, hpart, h⟩
    · exact nomatch h
  · rintro ⟨u, hpart, h⟩
    exact ⟨(u, none), hpart, h⟩

/-- A parser that reports an error in a row does not return 0. -/
theorem rowError_ne_ok (u : Universe) (before : Bytes) (i : ℕ) (after : Bytes) :
    (do return (u, ← rowError before i after) : C Parsed) ≠ .ok (u', none) := by
  intro h
  obtain ⟨message, hmessage, h⟩ := bind_eq_ok.mp h
  obtain ⟨_, -, rfl⟩ := map_eq_ok.mp hmessage
  exact nomatch (Prod.mk.inj (Except.ok.inj h)).2

theorem parseUniverseKeys_eq_ok (hu : u.Declared) :
    parseUniverseValues parserRegex u str u.keyDataNames.length i true = .ok (u', none) ↔
      i < u.keyValues.length ∧ ∃ row, RowReads u.keyDataTypeNames str row ∧
        u' = u.withRows (u.keyValues.set i (some row)) u.attributeValues := by
  rw [parseUniverseValues, if_pos rfl, parseUniverseKeys, hu.keys, bind_eq_ok]
  constructor
  · rintro ⟨result, hresult, h⟩
    cases result with
    | error message => exact nomatch (Prod.mk.inj (Except.ok.inj h)).2
    | ok row =>
      obtain ⟨hlt, hrow⟩ := parseRow_eq_ok.mp hresult
      rw [Bool.and_eq_true, decide_eq_true_eq] at hlt
      exact ⟨hlt.1, row, hrow, (Prod.mk.inj (Except.ok.inj h)).1.symm⟩
  · rintro ⟨hlt, row, hrow, rfl⟩
    exact ⟨.ok row, parseRow_eq_ok.mpr ⟨by simp [hlt], hrow⟩, rfl⟩

theorem parseUniverseAttributes_eq_ok (hu : u.Declared) :
    parseUniverseValues parserRegex u str u.attributeDataNames.length i false = .ok (u', none) ↔
      i < u.attributeValues.length ∧ ∃ row, RowReads u.attributeDataTypeNames str row ∧
        u' = u.withRows u.keyValues (u.attributeValues.set i (some row)) := by
  rw [parseUniverseValues, if_neg Bool.false_ne_true, parseUniverseAttributes, hu.attributes,
    bind_eq_ok]
  constructor
  · rintro ⟨result, hresult, h⟩
    cases result with
    | error message => exact nomatch (Prod.mk.inj (Except.ok.inj h)).2
    | ok row =>
      obtain ⟨hlt, hrow⟩ := parseRow_eq_ok.mp hresult
      rw [Bool.and_eq_true, decide_eq_true_eq] at hlt
      exact ⟨hlt.1, row, hrow, (Prod.mk.inj (Except.ok.inj h)).1.symm⟩
  · rintro ⟨hlt, row, hrow, rfl⟩
    exact ⟨.ok row, parseRow_eq_ok.mpr ⟨by simp [hlt], hrow⟩, rfl⟩

theorem parseSetValues_eq_ok :
    parseSetValues parserRegex u str i k = .ok (u', none) ↔
      i < u.keyValues.length ∧ ∃ set row, u.sets[k]? = some set ∧ i < set.keyValues.length ∧
        RowReads u.keyDataTypeNames str row ∧
        u' = u.withSet k { set with keyValues := set.keyValues.set i (some row) } := by
  rw [parseSetValues, bind_eq_ok]
  constructor
  · rintro ⟨result, hresult, h⟩
    cases result with
    | error message => exact nomatch (Prod.mk.inj (Except.ok.inj h)).2
    | ok row =>
      obtain ⟨hlt, hrow⟩ := parseRow_eq_ok.mp hresult
      rw [Bool.and_eq_true, decide_eq_true_eq] at hlt
      obtain ⟨set, hset, h⟩ := bind_eq_ok.mp h
      obtain ⟨keyValues, hstore, h⟩ := bind_eq_ok.mp h
      obtain ⟨hi, rfl⟩ := store_eq_ok.mp hstore
      exact ⟨hlt.1, set, row, fetch_eq_ok.mp hset, hi, hrow, (Prod.mk.inj (Except.ok.inj h)).1.symm⟩
  · rintro ⟨hlt, set, row, hset, hi, hrow, rfl⟩
    obtain ⟨hk, -⟩ := List.getElem?_eq_some_iff.mp hset
    refine ⟨.ok row, parseRow_eq_ok.mpr ⟨by simp [hlt, hk], hrow⟩, ?_⟩
    simp only [fetch_eq_ok.mpr hset, ok_bind, store_of_lt hi]
    rfl

/-- **The rows of an insertion into the universe** are written over its null rows. -/
theorem universeRowsFrom_eq_ok (hu : u.Declared) {keys attributes : ArrayList}
    (hkeys : u.keyValues = keys ++ List.replicate n none)
    (hattributes : u.attributeValues = attributes ++ List.replicate n none)
    (hi : keys.length = i) (hi' : attributes.length = i) :
    universeRowsFrom parserRegex n i cursor u = .ok (u', none) ↔
      ∃ rows, UniverseRowsRead u.keyDataTypeNames u.attributeDataTypeNames n cursor rows ∧
        u' = u.withRows (keys ++ rows.map fun row => some row.1)
          (attributes ++ rows.map fun row => some row.2) := by
  induction n generalizing i cursor u keys attributes with
  | zero =>
    rw [universeRowsFrom]
    constructor
    · intro h
      obtain rfl := (Prod.mk.inj (Except.ok.inj h)).1
      rw [List.replicate_zero, List.append_nil] at hkeys hattributes
      refine ⟨[], .nil cursor, ?_⟩
      simp only [Universe.withRows, List.map_nil, List.append_nil, ← hkeys, ← hattributes]
    · rintro ⟨rows, hrows, rfl⟩
      rw [List.replicate_zero, List.append_nil] at hkeys hattributes
      cases hrows
      simp only [Universe.withRows, List.map_nil, List.append_nil, ← hkeys, ← hattributes]
  | succ n ih =>
    rw [universeRowsFrom, nextItem_eq, ok_bind]
    cases hitem : item cursor with
    | none =>
      apply iff_of_false
      · intro h
        exact rowError_ne_ok _ _ _ _ h
      · rintro ⟨rows, hrows, -⟩
        cases hrows with
        | cons hkeys => exact nomatch hitem.symm.trans hkeys
    | some it =>
      obtain ⟨keyValuesString, offset⟩ := it
      by_cases hsep : cursor[offset - 1]?.getD 0 = 0 ∨ cursor[offset]? ≠ some colon
      · apply iff_of_false
        · intro h
          simp only [if_pos hsep] at h
          exact rowError_ne_ok _ _ _ _ h
        · rintro ⟨rows, hrows, -⟩
          cases hrows with
          | cons hkeys hbefore hcolon =>
            obtain ⟨rfl, rfl⟩ := Prod.mk.inj (Option.some.inj (hitem.symm.trans hkeys))
            exact hsep.elim hbefore (fun h => h hcolon)
      · obtain ⟨hbefore, hcolon⟩ := not_or.mp hsep
        simp only [if_neg hsep, Parsed.andThen_eq_ok]
        -- both rows have their null place behind the ones that are read
        have hlt : i < u.keyValues.length := by
          rw [hkeys, List.length_append, List.length_replicate]
          omega
        have hlt' : i < u.attributeValues.length := by
          rw [hattributes, List.length_append, List.length_replicate]
          omega
        constructor
        · rintro ⟨u₁, hkey, h⟩
          obtain ⟨-, keyRow, hkeyRow, rfl⟩ := (parseUniverseKeys_eq_ok hu).mp hkey
          rw [nextItem_eq, ok_bind] at h
          cases hitem' : item (cursor.drop (offset + 1)) with
          | none =>
            rw [hitem'] at h
            exact absurd h (rowError_ne_ok _ _ _ _)
          | some it' =>
            obtain ⟨attributeValuesString, offset'⟩ := it'
            rw [hitem'] at h
            obtain ⟨u₂, hattribute, h⟩ := Parsed.andThen_eq_ok.mp h
            obtain ⟨-, attributeRow, hattributeRow, rfl⟩ :=
              (parseUniverseAttributes_eq_ok (hu.withRows _ _)).mp hattribute
            obtain ⟨rows, hrows, rfl⟩ := (ih (hu.withRows _ _)
              ((congrArg (List.set · i (some keyRow)) hkeys).trans (ArrayList.set_grow hi keyRow))
              ((congrArg (List.set · i (some attributeRow)) hattributes).trans
                (ArrayList.set_grow hi' attributeRow))
              (by rw [List.length_append, hi]; rfl) (by rw [List.length_append, hi']; rfl)).mp h
            refine ⟨(keyRow, attributeRow) :: rows,
              .cons hitem hbefore (not_not.mp hcolon) hkeyRow hitem' hattributeRow hrows, ?_⟩
            simp [Universe.withRows]
        · rintro ⟨rows, hrows, rfl⟩
          cases hrows with
          | @cons _ _ _ _ keyRow _ _ attributeRow rows hkeyItem _ _ hkeyRow hattributeItem
              hattributeRow hrows =>
            obtain ⟨rfl, rfl⟩ := Prod.mk.inj (Option.some.inj (hitem.symm.trans hkeyItem))
            refine ⟨_, (parseUniverseKeys_eq_ok hu).mpr ⟨hlt, keyRow, hkeyRow, rfl⟩, ?_⟩
            rw [nextItem_eq, ok_bind, hattributeItem]
            refine Parsed.andThen_eq_ok.mpr ⟨_, (parseUniverseAttributes_eq_ok
              (hu.withRows _ _)).mpr ⟨hlt', attributeRow, hattributeRow, rfl⟩, ?_⟩
            refine (ih (hu.withRows _ _)
              ((congrArg (List.set · i (some keyRow)) hkeys).trans (ArrayList.set_grow hi keyRow))
              ((congrArg (List.set · i (some attributeRow)) hattributes).trans
                (ArrayList.set_grow hi' attributeRow))
              (by rw [List.length_append, hi]; rfl) (by rw [List.length_append, hi']; rfl)).mpr
              ⟨rows, hrows, ?_⟩
            simp [Universe.withRows]

/-- **An insertion into the universe appends the rows it reads.** -/
theorem parseUniverseInsertSupp_eq_ok (hu : u.Declared) :
    parseUniverseInsertSupp parserRegex u items = .ok (u', none) ↔
      u.keyValues.length = u.attributeValues.length ∧ ∃ rows,
        UniverseRowsRead u.keyDataTypeNames u.attributeDataTypeNames (countDelimiter items colon)
          items rows ∧
        u' = u.withRows (u.keyValues ++ rows.map fun row => some row.1)
          (u.attributeValues ++ rows.map fun row => some row.2) := by
  rw [parseUniverseInsertSupp]
  by_cases hlen : u.keyValues.length = u.attributeValues.length
  · simp only [ne_eq, hlen, not_true_eq_false, if_false, true_and]
    exact universeRowsFrom_eq_ok (hu.withRows (u.keyValues.grow (countDelimiter items colon))
      (u.attributeValues.grow (countDelimiter items colon))) rfl rfl hlen rfl
  · simp [hlen]

theorem parseUniverseInsert_eq_ok (hu : u.Declared) :
    parseUniverseInsert parserRegex u str = .ok (u', none) ↔
      ∃ items, insertion str = some (items, u.name) ∧
        u.keyValues.length = u.attributeValues.length ∧ ∃ rows,
        UniverseRowsRead u.keyDataTypeNames u.attributeDataTypeNames (countDelimiter items colon)
          items rows ∧
        u' = u.withRows (u.keyValues ++ rows.map fun row => some row.1)
          (u.attributeValues ++ rows.map fun row => some row.2) := by
  rw [parseUniverseInsert_eq]
  cases insertion str with
  | none => simp
  | some ins =>
    obtain ⟨items, name⟩ := ins
    by_cases hname : u.name = name
    · subst hname
      simp only [ne_eq, not_true_eq_false, if_false]
      rw [parseUniverseInsertSupp_eq_ok hu]
      constructor
      · intro h
        exact ⟨items, rfl, h⟩
      · rintro ⟨items', hitems, h⟩
        obtain ⟨rfl, -⟩ := Prod.mk.inj (Option.some.inj hitems)
        exact h
    · simp [hname, Ne.symm hname]

/-! ### Sets -/

theorem Universe.withSet_self {set : UniverseSet} (h : u.sets[k]? = some set) :
    u.withSet k set = u := by
  obtain ⟨hk, rfl⟩ := List.getElem?_eq_some_iff.mp h
  simp [Universe.withSet]

theorem Universe.withSet_withSet (u : Universe) (k : ℕ) (set set' : UniverseSet) :
    (u.withSet k set).withSet k set' = u.withSet k set' := by
  simp [Universe.withSet]

theorem Universe.sets_withSet {set : UniverseSet} (h : k < u.sets.length) :
    (u.withSet k set).sets[k]? = some set := List.getElem?_set_self h

/-- A set that is found has the name. -/
theorem universeSetPosition_eq_some {name : Bytes} (h : universeSetPosition u name = some k) :
    ∃ set, u.sets[k]? = some set ∧ set.name = name := by
  obtain ⟨hk, hname, -⟩ := List.findIdx?_eq_some_iff_getElem.mp h
  exact ⟨u.sets[k], List.getElem?_eq_getElem hk, by simpa using hname⟩

theorem SetRowsRead.length_eq {types : List Bytes} {rows : List (List Bytes)}
    (h : SetRowsRead types n cursor rows) : rows.length = n := by
  induction h with
  | nil => rfl
  | cons _ _ _ ih => rw [List.length_cons, ih]

/-- **The rows of an insertion into a set** are written over its null rows, if the universe has as
many rows. -/
theorem setRowsFrom_eq_ok {set : UniverseSet} {previous : ArrayList} (hset : u.sets[k]? = some set)
    (hrows : set.keyValues = previous ++ List.replicate n none) (hi : previous.length = i) :
    setRowsFrom parserRegex k n i cursor u = .ok (u', none) ↔
      (n = 0 ∨ i + n ≤ u.keyValues.length) ∧ ∃ rows, SetRowsRead u.keyDataTypeNames n cursor rows ∧
        u' = u.withSet k { set with keyValues := previous ++ rows.map some } := by
  induction n generalizing i cursor u set previous with
  | zero =>
    rw [List.replicate_zero, List.append_nil] at hrows
    subst hrows
    rw [setRowsFrom]
    constructor
    · intro h
      obtain rfl := (Prod.mk.inj (Except.ok.inj h)).1
      refine ⟨Or.inl rfl, [], .nil cursor, ?_⟩
      rw [List.map_nil, List.append_nil, Universe.withSet_self hset]
    · rintro ⟨-, rows, hread, rfl⟩
      cases hread
      rw [List.map_nil, List.append_nil, Universe.withSet_self hset]
  | succ n ih =>
    rw [setRowsFrom, nextItem_eq, ok_bind]
    cases hitem : item cursor with
    | none =>
      apply iff_of_false
      · intro h
        exact rowError_ne_ok _ _ _ _ h
      · rintro ⟨-, rows, hread, -⟩
        cases hread with
        | cons hkeys => exact nomatch hitem.symm.trans hkeys
    | some it =>
      obtain ⟨keyValuesString, offset⟩ := it
      obtain ⟨hk, -⟩ := List.getElem?_eq_some_iff.mp hset
      have hlt : i < set.keyValues.length := by
        rw [hrows, List.length_append, List.length_replicate]
        omega
      have hnext : ∀ row : List Bytes, ({ set with keyValues := set.keyValues.set i (some row) } :
          UniverseSet).keyValues = (previous ++ [some row]) ++ List.replicate n none := by
        intro row
        show set.keyValues.set i (some row) = _
        rw [hrows, ArrayList.set_grow hi]
      show Parsed.andThen _ _ = _ ↔ _
      rw [Parsed.andThen_eq_ok]
      constructor
      · rintro ⟨u₁, hvalues, h⟩
        obtain ⟨hroom, set', row, hset', -, hrow, rfl⟩ := parseSetValues_eq_ok.mp hvalues
        obtain rfl := Option.some.inj (hset.symm.trans hset')
        obtain ⟨hroom', rows, hread, rfl⟩ := (ih (Universe.sets_withSet hk) (hnext row)
          (by rw [List.length_append, hi]; rfl)).mp h
        replace hroom' : n = 0 ∨ i + 1 + n ≤ u.keyValues.length := hroom'
        refine ⟨Or.inr (by omega), row :: rows, .cons hitem hrow hread, ?_⟩
        rw [Universe.withSet_withSet, List.map_cons, List.append_assoc, List.singleton_append]
      · rintro ⟨hroom, rows, hread, rfl⟩
        cases hread with
        | @cons _ _ _ _ row rows hkeys hrow hread =>
          obtain ⟨rfl, rfl⟩ := Prod.mk.inj (Option.some.inj (hitem.symm.trans hkeys))
          refine ⟨_, parseSetValues_eq_ok.mpr ⟨by omega, set, row, hset, hlt, hrow, rfl⟩, ?_⟩
          refine (ih (Universe.sets_withSet hk) (hnext row)
            (by rw [List.length_append, hi]; rfl)).mpr ⟨Or.inr ?_, rows, hread, ?_⟩
          · show i + 1 + n ≤ u.keyValues.length
            omega
          · rw [Universe.withSet_withSet, List.map_cons, List.append_assoc, List.singleton_append]

/-- **An insertion into a set appends the rows it reads.** -/
theorem parseSetInsertSupp_eq_ok :
    parseSetInsertSupp parserRegex u items k = .ok (u', none) ↔ ∃ set rows, u.sets[k]? = some set ∧
      SetRowsRead u.keyDataTypeNames (countDelimiterIgnoringParenthesesContent items comma + 1)
        items rows ∧
      set.keyValues.length + rows.length ≤ u.keyValues.length ∧
      u' = u.withSet k { set with keyValues := set.keyValues ++ rows.map some } := by
  rw [parseSetInsertSupp]
  generalize hlength : countDelimiterIgnoringParenthesesContent items comma + 1 = length
  have hpos : 0 < length := by omega
  by_cases hroom : u.keyValues.length < length
  · apply iff_of_false
    · simp [hroom]
    · rintro ⟨set, rows, -, hread, hle, -⟩
      have := hread.length_eq
      omega
  · have hne : u.keyValues.length ≠ 0 := by omega
    simp only [hroom, if_false, if_neg hne, bind_eq_ok, fetch_eq_ok]
    constructor
    · rintro ⟨set, hset, h⟩
      obtain ⟨hk, -⟩ := List.getElem?_eq_some_iff.mp hset
      obtain ⟨hle, rows, hread, rfl⟩ := (setRowsFrom_eq_ok
        (u := u.withSet k { set with keyValues := set.keyValues.grow length })
        (Universe.sets_withSet hk) rfl rfl).mp h
      replace hle : length = 0 ∨ set.keyValues.length + length ≤ u.keyValues.length := hle
      refine ⟨set, rows, hset, hread, ?_, Universe.withSet_withSet u k _ _⟩
      rw [hread.length_eq]
      omega
    · rintro ⟨set, rows, hset, hread, hle, rfl⟩
      obtain ⟨hk, -⟩ := List.getElem?_eq_some_iff.mp hset
      rw [hread.length_eq] at hle
      exact ⟨set, hset, (setRowsFrom_eq_ok
        (u := u.withSet k { set with keyValues := set.keyValues.grow length })
        (Universe.sets_withSet hk) rfl rfl).mpr
        ⟨Or.inr hle, rows, hread, (Universe.withSet_withSet u k _ _).symm⟩⟩

theorem parseSetInsert_eq_ok :
    parseSetInsert parserRegex u str = .ok (u', none) ↔ ∃ items name k set rows,
      insertion str = some (items, name) ∧ universeSetPosition u name = some k ∧
      u.sets[k]? = some set ∧
      SetRowsRead u.keyDataTypeNames (countDelimiterIgnoringParenthesesContent items comma + 1)
        items rows ∧
      set.keyValues.length + rows.length ≤ u.keyValues.length ∧
      u' = u.withSet k { set with keyValues := set.keyValues ++ rows.map some } := by
  rw [parseSetInsert_eq]
  cases insertion str with
  | none => simp
  | some ins =>
    obtain ⟨items, name⟩ := ins
    dsimp only
    cases hposition : universeSetPosition u name with
    | none =>
      apply iff_of_false
      · intro h
        obtain ⟨message, -, h⟩ := bind_eq_ok.mp h
        exact nomatch (Prod.mk.inj (Except.ok.inj h)).2
      · rintro ⟨_, _, _, _, _, hins, hk, -⟩
        obtain ⟨rfl, rfl⟩ := Prod.mk.inj (Option.some.inj hins)
        exact nomatch hposition.symm.trans hk
    | some k =>
      show parseSetInsertSupp parserRegex u items k = _ ↔ _
      rw [parseSetInsertSupp_eq_ok]
      constructor
      · rintro ⟨set, rows, h⟩
        exact ⟨items, name, k, set, rows, rfl, hposition, h⟩
      · rintro ⟨_, _, _, set, rows, hins, hk, h⟩
        obtain ⟨rfl, rfl⟩ := Prod.mk.inj (Option.some.inj hins)
        obtain rfl := Option.some.inj (hposition.symm.trans hk)
        exact ⟨set, rows, h⟩

/-- **A set is named**, if its name is new. -/
theorem parseCreateSet_eq_ok :
    parseCreateSet parserRegex u str k = .ok (u', none) ↔ ∃ name set,
      createdSet str = some name ∧ name.length < 256 ∧ existsUniverseSet u name = false ∧
      u.name ≠ name ∧ u.sets[k]? = some set ∧ u' = u.withSet k { set with name } := by
  rw [parseCreateSet_eq]
  cases createdSet str with
  | none => simp
  | some name =>
    by_cases hlen : 256 ≤ name.length
    · simp [hlen]
    by_cases hexists : existsUniverseSet u name = true
    · apply iff_of_false
      · simp only [hlen, hexists, if_false, if_true]
        intro h
        obtain ⟨message, -, h⟩ := bind_eq_ok.mp h
        exact nomatch (Prod.mk.inj (Except.ok.inj h)).2
      · rintro ⟨_, _, hname, -, hnew, -⟩
        obtain rfl := Option.some.inj hname
        rw [hexists] at hnew
        exact nomatch hnew
    by_cases hname : u.name = name
    · simp [hlen, hexists, hname]
    · simp only [hlen, hexists, hname, if_false]
      cases hset : u.sets[k]? with
      | none => simp
      | some set =>
        constructor
        · intro h
          exact ⟨name, set, rfl, Nat.lt_of_not_le hlen, by simpa using hexists, hname, rfl,
            (Prod.mk.inj (Except.ok.inj h)).1.symm⟩
        · rintro ⟨_, _, hn, -, -, -, hs, rfl⟩
          obtain rfl := Option.some.inj hn
          obtain rfl := Option.some.inj hs
          rfl

/-! ### Assertions -/

theorem rowError_ne_assertion (before : Bytes) (i : ℕ) (after : Bytes) :
    rowError before i after ≠ .error .assertion := map_ne_error (errorMessage_ne_error (by decide) _)

theorem universeRowsFrom_ne_assertion (hu : u.Declared) (hk : i + n ≤ u.keyValues.length)
    (ha : i + n ≤ u.attributeValues.length) :
    universeRowsFrom parserRegex n i cursor u ≠ .error .assertion := by
  induction n generalizing i cursor u with
  | zero => exact nofun
  | succ n ih =>
    rw [universeRowsFrom, nextItem_eq, ok_bind]
    cases item cursor with
    | none => exact bind_ne_error (rowError_ne_assertion _ _ _) fun _ _ => nofun
    | some it =>
      obtain ⟨keys, offset⟩ := it
      show (if _ then _ else _) ≠ _
      split_ifs
      · exact bind_ne_error (rowError_ne_assertion _ _ _) fun _ _ => nofun
      · intro h
        rcases Parsed.andThen_eq_error.mp h with h | ⟨u₁, hkey, h⟩
        · rw [parseUniverseValues, if_pos rfl, parseUniverseKeys, hu.keys] at h
          rcases bind_eq_error.mp h with h | ⟨result, -, h⟩
          · have hfalse := (parseRow_eq_assertion.mp h).2
            simp [show i < u.keyValues.length by omega] at hfalse
          · cases result <;> exact nomatch h
        · obtain ⟨-, row, -, rfl⟩ := (parseUniverseKeys_eq_ok hu).mp hkey
          simp only [nextItem_eq, ok_bind] at h
          cases hitem : item (cursor.drop (offset + 1)) with
          | none =>
            rw [hitem] at h
            rcases bind_eq_error.mp h with h | ⟨message, -, h⟩
            · exact rowError_ne_assertion _ _ _ h
            · exact nomatch h
          | some it =>
            obtain ⟨attributes, offset'⟩ := it
            rw [hitem] at h
            have hu' := hu.withRows (u.keyValues.set i (some row)) u.attributeValues
            rcases Parsed.andThen_eq_error.mp h with h | ⟨u₂, hattribute, h⟩
            · rw [parseUniverseValues, if_neg Bool.false_ne_true, parseUniverseAttributes,
                hu'.attributes] at h
              rcases bind_eq_error.mp h with h | ⟨result, -, h⟩
              · have hfalse := (parseRow_eq_assertion.mp h).2
                simp [Universe.withRows, show i < u.attributeValues.length by omega] at hfalse
              · cases result <;> exact nomatch h
            · obtain ⟨-, row', -, rfl⟩ := (parseUniverseAttributes_eq_ok hu').mp hattribute
              refine ih (hu'.withRows _ _) ?_ ?_ h
              · show i + 1 + n ≤ (u.keyValues.set i (some row)).length
                rw [List.length_set]
                omega
              · show i + 1 + n ≤ (u.attributeValues.set i (some row')).length
                rw [List.length_set]
                omega

/-- **An insertion into the universe fails no assertion.** -/
theorem parseUniverseInsert_ne_assertion (hu : u.Declared)
    (hlen : u.keyValues.length = u.attributeValues.length) (str : Bytes) :
    parseUniverseInsert parserRegex u str ≠ .error .assertion := by
  rw [parseUniverseInsert_eq]
  cases insertion str with
  | none => exact nofun
  | some ins =>
    show (if _ then _ else _) ≠ _
    split_ifs
    · exact nofun
    · rw [parseUniverseInsertSupp, if_neg (not_not.mpr hlen)]
      apply universeRowsFrom_ne_assertion (hu.withRows _ _)
      · show _ ≤ (u.keyValues.grow _).length
        simp [ArrayList.grow]
      · show _ ≤ (u.attributeValues.grow _).length
        simp [ArrayList.grow, hlen]

end Insertions

end SetQL
