import SetQL.Parser.Insertions

/-!
# What a failed insertion leaves behind

An insertion makes room for its rows before it reads them. When a row is malformed the parser
returns 1, and the room stays: the rows before it as they were read, and null rows from it on. Only
a statement that is refused before, because it is no insertion or names something else, leaves the
universe as it was.

## Main definitions

* `ArrayList.KeptUpTo`: as many rows, the first of them the same
* `RefusedByUniverse`, `RefusedBySets`: the statements that are refused before there is room

## Main results

* `universeRowsFrom_kept`, `setRowsFrom_kept`: what the rows that are read do not change
* `failed_insert_unchanged_iff`: when a failed insertion leaves the universe as it was
-/

namespace SetQL

/-- As many rows, and the first `i` of them are the same. -/
structure ArrayList.KeptUpTo (i : ℕ) (rows rows' : ArrayList) : Prop where
  length : rows'.length = rows.length
  take : rows'.take i = rows.take i

/-- The text is no insertion into the universe: it does not have the form of an insertion, or not
the name of the universe. -/
def RefusedByUniverse (u : Universe) (str : Bytes) : Prop :=
  ∀ items name, insertion str = some (items, name) → u.name ≠ name

/-- The text is no insertion into a set: it does not have the form of an insertion, or not the name
of a set. -/
def RefusedBySets (u : Universe) (str : Bytes) : Prop :=
  ∀ items name, insertion str = some (items, name) → universeSetPosition u name = none

section Failures

variable {u u' : Universe} {str cursor : Bytes} {n i j k : ℕ} {message : Option Bytes}
  {rows rows' rows'' : ArrayList}

namespace ArrayList.KeptUpTo

theorem refl (i : ℕ) (rows : ArrayList) : KeptUpTo i rows rows := ⟨rfl, rfl⟩

theorem trans (h : KeptUpTo i rows rows') (h' : KeptUpTo i rows' rows'') : KeptUpTo i rows rows'' :=
  ⟨h'.length.trans h.length, h'.take.trans h.take⟩

theorem mono (h : KeptUpTo j rows rows') (hij : i ≤ j) : KeptUpTo i rows rows' := by
  refine ⟨h.length, ?_⟩
  have htake := congrArg (List.take i) h.take
  rwa [List.take_take, List.take_take, Nat.min_eq_left hij] at htake

/-- A row is written behind the ones that are kept. -/
theorem set (rows : ArrayList) (row : Option (List Bytes)) : KeptUpTo i rows (rows.set i row) :=
  ⟨List.length_set .., List.take_set_of_le (le_refl i)⟩

end ArrayList.KeptUpTo

/-- A part that returns before the rest, or the rest after it. -/
theorem Parsed.andThen_cases {part : C Parsed} {rest : Universe → C Parsed}
    (h : Parsed.andThen part rest = .ok (u', message)) :
    (part = .ok (u', message) ∧ message.isSome) ∨
      ∃ u, part = .ok (u, none) ∧ rest u = .ok (u', message) := by
  obtain ⟨⟨u, message'⟩, hpart, h⟩ := bind_eq_ok.mp h
  cases message' with
  | none => exact Or.inr ⟨u, hpart, h⟩
  | some text =>
    obtain ⟨rfl, rfl⟩ := Prod.mk.inj (Except.ok.inj h)
    exact Or.inl ⟨hpart, rfl⟩

/-! ### One row -/

/-- A row of the universe is written over its index, or not at all. -/
theorem parseUniverseValues_cases {length : ℕ} {isKeyValue : Bool}
    (h : parseUniverseValues parserRegex u str length i isKeyValue = .ok (u', message)) :
    u' = u.withRows u'.keyValues u'.attributeValues ∧
      ArrayList.KeptUpTo i u.keyValues u'.keyValues ∧
      ArrayList.KeptUpTo i u.attributeValues u'.attributeValues := by
  rw [parseUniverseValues] at h
  split_ifs at h
  · obtain ⟨result, -, h⟩ := bind_eq_ok.mp h
    cases result with
    | error text =>
      obtain ⟨rfl, -⟩ := Prod.mk.inj (Except.ok.inj h)
      exact ⟨rfl, .refl i _, .refl i _⟩
    | ok row =>
      obtain ⟨rfl, -⟩ := Prod.mk.inj (Except.ok.inj h)
      exact ⟨rfl, .set _ _, .refl i _⟩
  · obtain ⟨result, -, h⟩ := bind_eq_ok.mp h
    cases result with
    | error text =>
      obtain ⟨rfl, -⟩ := Prod.mk.inj (Except.ok.inj h)
      exact ⟨rfl, .refl i _, .refl i _⟩
    | ok row =>
      obtain ⟨rfl, -⟩ := Prod.mk.inj (Except.ok.inj h)
      exact ⟨rfl, .refl i _, .set _ _⟩

/-- A row of a set is written over its index, or not at all. -/
theorem parseSetValues_cases {set : UniverseSet} (hset : u.sets[k]? = some set)
    (h : parseSetValues parserRegex u str i k = .ok (u', message)) :
    ∃ keyValues, u' = u.withSet k { set with keyValues } ∧
      ArrayList.KeptUpTo i set.keyValues keyValues := by
  obtain ⟨result, -, h⟩ := bind_eq_ok.mp h
  cases result with
  | error text =>
    obtain ⟨rfl, -⟩ := Prod.mk.inj (Except.ok.inj h)
    exact ⟨set.keyValues, (Universe.withSet_self hset).symm, .refl i _⟩
  | ok row =>
    obtain ⟨set', hset', h⟩ := bind_eq_ok.mp h
    obtain rfl := Option.some.inj (hset.symm.trans (fetch_eq_ok.mp hset'))
    obtain ⟨keyValues, hstore, h⟩ := bind_eq_ok.mp h
    obtain ⟨-, rfl⟩ := store_eq_ok.mp hstore
    obtain ⟨rfl, -⟩ := Prod.mk.inj (Except.ok.inj h)
    exact ⟨_, rfl, .set _ _⟩

/-! ### All rows -/

/-- **Rows that are read into the universe** change no row before the first of them and not how many
there are. -/
theorem universeRowsFrom_kept
    (h : universeRowsFrom parserRegex n i cursor u = .ok (u', message)) :
    u' = u.withRows u'.keyValues u'.attributeValues ∧
      ArrayList.KeptUpTo i u.keyValues u'.keyValues ∧
      ArrayList.KeptUpTo i u.attributeValues u'.attributeValues := by
  induction n generalizing i cursor u with
  | zero =>
    obtain ⟨rfl, -⟩ := Prod.mk.inj (Except.ok.inj h)
    exact ⟨rfl, .refl i _, .refl i _⟩
  | succ n ih =>
    have hfail : ∀ {u₁ : Universe} {error : C (Option Bytes)},
        (do return (u₁, ← error) : C Parsed) = .ok (u', message) → u₁ = u' := by
      intro u₁ error herror
      obtain ⟨text, -, herror⟩ := bind_eq_ok.mp herror
      exact (Prod.mk.inj (Except.ok.inj herror)).1
    rw [universeRowsFrom, nextItem_eq, ok_bind] at h
    cases hitem : item cursor with
    | none =>
      rw [hitem] at h
      obtain rfl := hfail h
      exact ⟨rfl, .refl i _, .refl i _⟩
    | some it =>
      obtain ⟨keys, offset⟩ := it
      rw [hitem] at h
      dsimp only at h
      split_ifs at h
      · obtain rfl := hfail h
        exact ⟨rfl, .refl i _, .refl i _⟩
      rcases Parsed.andThen_cases h with ⟨h, -⟩ | ⟨u₁, hkeys, h⟩
      · exact parseUniverseValues_cases h
      obtain ⟨hu₁, hkeys, hattributes⟩ := parseUniverseValues_cases hkeys
      rw [nextItem_eq, ok_bind] at h
      cases hitem' : item (cursor.drop (offset + 1)) with
      | none =>
        rw [hitem'] at h
        obtain rfl := hfail h
        exact ⟨hu₁, hkeys, hattributes⟩
      | some it' =>
        obtain ⟨attributes, offset'⟩ := it'
        rw [hitem'] at h
        rcases Parsed.andThen_cases h with ⟨h, -⟩ | ⟨u₂, hvalues, h⟩
        · obtain ⟨hu', hkeys', hattributes'⟩ := parseUniverseValues_cases h
          refine ⟨?_, hkeys.trans hkeys', hattributes.trans hattributes'⟩
          rw [hu', hu₁]
          rfl
        · obtain ⟨hu₂, hkeys', hattributes'⟩ := parseUniverseValues_cases hvalues
          obtain ⟨hu', hkeys'', hattributes''⟩ := ih h
          refine ⟨?_, (hkeys.trans hkeys').trans (hkeys''.mono i.le_succ),
            (hattributes.trans hattributes').trans (hattributes''.mono i.le_succ)⟩
          rw [hu', hu₂, hu₁]
          rfl

/-- **Rows that are read into a set** change no row before the first of them and not how many there
are. -/
theorem setRowsFrom_kept {set : UniverseSet} (hset : u.sets[k]? = some set)
    (h : setRowsFrom parserRegex k n i cursor u = .ok (u', message)) :
    ∃ keyValues, u' = u.withSet k { set with keyValues } ∧
      ArrayList.KeptUpTo i set.keyValues keyValues := by
  induction n generalizing i cursor u set with
  | zero =>
    obtain ⟨rfl, -⟩ := Prod.mk.inj (Except.ok.inj h)
    exact ⟨set.keyValues, (Universe.withSet_self hset).symm, .refl i _⟩
  | succ n ih =>
    rw [setRowsFrom, nextItem_eq, ok_bind] at h
    cases hitem : item cursor with
    | none =>
      rw [hitem] at h
      obtain ⟨text, -, h⟩ := bind_eq_ok.mp h
      obtain ⟨rfl, -⟩ := Prod.mk.inj (Except.ok.inj h)
      exact ⟨set.keyValues, (Universe.withSet_self hset).symm, .refl i _⟩
    | some it =>
      obtain ⟨keys, offset⟩ := it
      rw [hitem] at h
      rcases Parsed.andThen_cases h with ⟨h, -⟩ | ⟨u₁, hvalues, h⟩
      · exact parseSetValues_cases hset h
      obtain ⟨keyValues, rfl, hkept⟩ := parseSetValues_cases hset hvalues
      obtain ⟨hk, -⟩ := List.getElem?_eq_some_iff.mp hset
      obtain ⟨keyValues', rfl, hkept'⟩ := ih (Universe.sets_withSet hk) h
      exact ⟨keyValues', Universe.withSet_withSet .., hkept.trans (hkept'.mono i.le_succ)⟩

/-! ### Failures -/

/-- A list with room for more rows is longer. -/
theorem ArrayList.KeptUpTo.ne_of_grow (h : KeptUpTo i (rows.grow n) rows') (hn : n ≠ 0) :
    rows' ≠ rows := by
  rintro rfl
  have hlength := h.length
  rw [ArrayList.grow, List.length_append, List.length_replicate] at hlength
  omega

/-- Rows that are read from a failed insertion are not taken back. -/
theorem parseUniverseInsertSupp_ne {text : Bytes}
    (h : parseUniverseInsertSupp parserRegex u str = .ok (u', some text)) : u' ≠ u := by
  rw [parseUniverseInsertSupp] at h
  split_ifs at h
  have hcount : countDelimiter str colon ≠ 0 := by
    intro hcount
    rw [hcount] at h
    cases (Prod.mk.inj (Except.ok.inj h)).2
  obtain ⟨-, hkept, -⟩ := universeRowsFrom_kept h
  intro hu
  exact hkept.ne_of_grow hcount (congrArg Universe.keyValues hu)

/-- Rows that are read into a set by a failed insertion are not taken back. -/
theorem parseSetInsertSupp_ne {text : Bytes}
    (h : parseSetInsertSupp parserRegex u str k = .ok (u', some text)) : u' ≠ u := by
  rw [parseSetInsertSupp] at h
  split_ifs at h with hroom hempty
  · omega
  obtain ⟨set, hset, h⟩ := bind_eq_ok.mp h
  have hset := fetch_eq_ok.mp hset
  obtain ⟨hk, -⟩ := List.getElem?_eq_some_iff.mp hset
  obtain ⟨keyValues, rfl, hkept⟩ := setRowsFrom_kept
    (u := u.withSet k { set with keyValues := set.keyValues.grow _ }) (Universe.sets_withSet hk) h
  intro hu
  rw [Universe.withSet_withSet] at hu
  have hget := congrArg (fun u : Universe => u.sets[k]?) hu
  rw [Universe.sets_withSet hk, hset] at hget
  exact hkept.ne_of_grow (Nat.succ_ne_zero _)
    (congrArg UniverseSet.keyValues (Option.some.inj hget))

/-- **When a failed insertion changes nothing**: exactly when the statement is refused for its form
or its name, before there is room for its rows. -/
theorem failed_insert_unchanged_iff (u u' : Universe) (str message : Bytes) :
    (parseUniverseInsert parserRegex u str = .ok (u', some message) →
      (u' = u ↔ RefusedByUniverse u str)) ∧
    (parseSetInsert parserRegex u str = .ok (u', some message) →
      (u' = u ↔ RefusedBySets u str)) := by
  constructor
  · intro h
    rw [parseUniverseInsert_eq] at h
    unfold RefusedByUniverse
    cases hinsertion : insertion str with
    | none =>
      rw [hinsertion] at h
      obtain ⟨rfl, -⟩ := Prod.mk.inj (Except.ok.inj h)
      exact iff_of_true rfl nofun
    | some ins =>
      obtain ⟨items, name⟩ := ins
      rw [hinsertion] at h
      dsimp only at h
      split_ifs at h with hname
      · obtain ⟨rfl, -⟩ := Prod.mk.inj (Except.ok.inj h)
        apply iff_of_true rfl
        rintro _ _ ⟨⟩
        exact hname
      · apply iff_of_false (parseUniverseInsertSupp_ne h)
        intro hrefused
        exact hname (hrefused items name rfl)
  · intro h
    rw [parseSetInsert_eq] at h
    unfold RefusedBySets
    cases hinsertion : insertion str with
    | none =>
      rw [hinsertion] at h
      obtain ⟨rfl, -⟩ := Prod.mk.inj (Except.ok.inj h)
      exact iff_of_true rfl nofun
    | some ins =>
      obtain ⟨items, name⟩ := ins
      rw [hinsertion] at h
      dsimp only at h
      cases hposition : universeSetPosition u name with
      | none =>
        rw [hposition] at h
        obtain ⟨text, -, h⟩ := bind_eq_ok.mp h
        obtain ⟨rfl, -⟩ := Prod.mk.inj (Except.ok.inj h)
        apply iff_of_true rfl
        rintro _ _ ⟨⟩
        exact hposition
      | some k =>
        rw [hposition] at h
        apply iff_of_false (parseSetInsertSupp_ne h)
        intro hrefused
        exact nomatch (hrefused items name rfl).symm.trans hposition

/-- A universe of numbers, with a set. -/
def numberUniverse : Universe where
  name := lit "U"
  keyDataTypeNames := [lit "INTEGER"]
  keyDataNames := [lit "n"]
  attributeDataTypeNames := [lit "INTEGER"]
  attributeDataNames := [lit "m"]
  keyValues := [some [lit "1"], some [lit "2"], some [lit "3"]]
  attributeValues := [some [lit "1"], some [lit "4"], some [lit "9"]]
  sets := [⟨lit "S", [some [lit "1"]]⟩]

/-- The first row and half of the second one stay, and a null row. -/
theorem failed_insert_number :
    parseUniverseInsert parserRegex numberUniverse (lit "INSERT \x7b4:8,5:x,6:7\x7d INTO U") =
        .ok (numberUniverse.withRows
          [some [lit "1"], some [lit "2"], some [lit "3"], some [lit "4"], some [lit "5"], none]
          [some [lit "1"], some [lit "4"], some [lit "9"], some [lit "8"], none, none],
          some (lit "Error parsing attribute value x of type INTEGER.")) ∧
      parseSetInsert parserRegex numberUniverse (lit "INSERT \x7b2,x\x7d INTO S") =
        .ok (numberUniverse.withSet 0 ⟨lit "S", [some [lit "1"], some [lit "2"], none]⟩,
          some (lit "Error parsing key value x of type INTEGER.")) := by
  constructor
  · decide
  · decide

/-- Insertions with rows, into a universe and a set of other names. -/
theorem failed_insert_unchanged_number :
    RefusedByUniverse numberUniverse (lit "INSERT {4:8,5:6} INTO V") ∧
      RefusedBySets numberUniverse (lit "INSERT {2,3} INTO T") := by
  have hrows : parseUniverseInsert parserRegex numberUniverse
      (lit "INSERT {4:8,5:6} INTO V") =
        .ok (numberUniverse, some (lit "Error parsing the universe insert: Incorrect <universe_name>")) := by
    decide
  have hkeys : parseSetInsert parserRegex numberUniverse (lit "INSERT {2,3} INTO T") =
      .ok (numberUniverse, some (lit "Error parsing set insert. Set \"T\" does not exist")) := by
    decide
  exact ⟨((failed_insert_unchanged_iff _ _ _ _).1 hrows).mp rfl,
    ((failed_insert_unchanged_iff _ _ _ _).2 hkeys).mp rfl⟩

end Failures

end SetQL
