import SetQL.Query.Evaluation
import SetQL.Translation.Totality

/-!
# A load is faithful

A universe within the capacities is loaded without an error, and the database then holds the keys,
the sets and the values of the universe, and nothing of one value in the place of another.

## Main definitions

* `mainDatabase u`: the database that `main` creates for a universe
* `Universe.LastRow u k r`: the last row of a key
* `Loadable u`: a universe within the capacities, with values that fit
* `Faithful u db`: the database holds the universe

## Main results

* `Loadable.lastAdded_iff`: a load adds to a set the keys that are listed in it
* `lastWritten_key`, `lastWritten_value`: a load writes the value of the last row of a key last
* `dbAddParsedData_faithful`: a load is faithful
-/

namespace SetQL

/-- `createEmptyDB(u->key_values->length, 1000, 100)`. -/
def mainDatabase (u : Universe) : C Database := createEmptyDB u.rows 1000 100

/-- The last row of a key. -/
def Universe.LastRow (u : Universe) (k : Bytes) (r : ℕ) : Prop :=
  r < u.rows ∧ u.key r = k ∧ ∀ r' < u.rows, r < r' → u.key r' ≠ k

/-- A universe within the capacities, with values that fit. -/
structure Loadable (u : Universe) : Prop where
  shaped : Shaped u
  keyColumn : u.keyDataNames.length = 1
  keyName_ne : u.keyName ≠ []
  keyName_lt : u.keyName.length < dbMaxStringLength
  rows_pos : 1 ≤ u.rows
  rows_le : u.rows ≤ 2 ^ 24
  length_eq : u.attributeValues.length = u.keyValues.length
  key : ∀ r < u.rows, u.key r ≠ [] ∧ NulFree (u.key r) ∧ (u.key r).length ≤ dbMaxStringLength
  names : (u.keyName :: u.attributeDataNames).Nodup
  types : ∀ i < u.attributeDataNames.length,
    u.typeName i = lit "STRING" ∨ u.typeName i = lit "INTEGER"
  strings : ∀ i < u.attributeDataNames.length, u.typeName i = lit "STRING" → ∀ r < u.rows,
    NulFree (u.value i r) ∧ (u.value i r).length ≤ dbMaxStringLength
  integers : ∀ i < u.attributeDataNames.length, u.typeName i = lit "INTEGER" → ∀ r < u.rows,
    ∃ z, Decimal (u.value i r) z ∧ -2 ^ 63 ≤ z ∧ z < 2 ^ 63
  setNames : (u.sets.map UniverseSet.name).Nodup
  setNames_ne : ∀ set ∈ u.sets, set.name ≠ []
  sets_le : u.sets.length ≤ 1000
  attributes_le : u.attributeDataNames.length ≤ 99

/-- The database holds the universe. -/
structure Faithful (u : Universe) (db : Database) : Prop where
  keys : ∀ k, (stSearch db.keyTable k).isSome ↔ ∃ r < u.rows, u.key r = k
  indices : ∀ i, i < db.keyCount ↔ ∃ k d, stSearch db.keyTable k = some d ∧ d.index = i
  injective : ∀ k k' d d', stSearch db.keyTable k = some d → stSearch db.keyTable k' = some d' →
    d.index = d'.index → k = k'
  setNames : ∀ set ∈ u.sets, (stSearch db.setNamesTable set.name).isSome
  members : ∀ set ∈ u.sets, ∀ k d, stSearch db.keyTable k = some d →
    (db.inSet set.name d.index = true ↔ k ∈ set.members)
  keyColumn : ∀ k, (∃ r < u.rows, u.key r = k) →
    ∃ b, db.stored u.keyName k = some b ∧ cstr b = k
  strings : ∀ i < u.attributeDataNames.length, u.typeName i = lit "STRING" → ∀ k r, u.LastRow k r →
    ∃ b, db.stored (u.attrName i) k = some b ∧ cstr b = u.value i r
  integers : ∀ i < u.attributeDataNames.length, u.typeName i = lit "INTEGER" → ∀ k r z,
    u.LastRow k r → Decimal (u.value i r) z →
    ∃ b, db.stored (u.attrName i) k = some b ∧ readInt64 b = z

/-! ## The operations of a loadable universe -/

section Split

variable {mem : Memory} {u : Universe} {n i r : ℕ} {op : Op}

/-- The operations of an attribute whose type is stored. -/
def attributeBlock (mem : Memory) (u : Universe) (i : ℕ) : List Op :=
  createOp u i :: valueOps mem u i

theorem range_split (h : r < n) :
    ∃ l, List.range n = List.range r ++ r :: l ∧ ∀ j ∈ l, r < j ∧ j < n := by
  obtain ⟨k, hk⟩ := Nat.exists_eq_add_of_lt h
  refine ⟨(List.range k).map fun j => r + (j + 1), ?_, fun j hj => ?_⟩
  · rw [hk, Nat.add_assoc, List.range_add, List.range_succ_eq_map, List.map_cons, List.map_map]
    rfl
  · obtain ⟨m, hm, rfl⟩ := List.mem_map.mp hj
    have := List.mem_range.mp hm
    omega

/-- The operations of attributes are those of the ones in front of the first type that is not
stored, and the creation of the attribute of this type. -/
theorem exists_attributeOps_eq (mem : Memory) (u : Universe) (n i : ℕ) :
    ∃ j ≤ n, (∀ l < j, storedType (u.typeName (i + l)) ≠ .undefined) ∧
      (j < n → storedType (u.typeName (i + j)) = .undefined) ∧
      attributeOps mem u n i = ((List.range j).flatMap fun l => attributeBlock mem u (i + l)) ++
        if j < n then [createOp u (i + j)] else [] := by
  induction n generalizing i with
  | zero => exact ⟨0, le_rfl, nofun, nofun, rfl⟩
  | succ n ih =>
    by_cases hstored : storedType (u.typeName i) = .undefined
    · exact ⟨0, Nat.zero_le _, nofun, fun _ => hstored, by rw [attributeOps, if_pos hstored]; rfl⟩
    · obtain ⟨j, hj, hall, hend, heq⟩ := ih (i + 1)
      have hshift : ∀ l, i + 1 + l = i + (l + 1) := fun l => by omega
      simp only [hshift] at hall hend heq
      refine ⟨j + 1, Nat.succ_le_succ hj, fun l hl => ?_, fun hlt => hend (by omega), ?_⟩
      · cases l with
        | zero => exact hstored
        | succ l => exact hall l (by omega)
      · rw [attributeOps, if_neg hstored, heq, List.range_succ_eq_map, List.flatMap_cons,
          List.flatMap_map]
        simp [attributeBlock]

theorem attributeOps_eq_flatMap
    (h : ∀ j, i ≤ j → j < i + n → storedType (u.typeName j) ≠ .undefined) :
    attributeOps mem u n i = (List.range n).flatMap fun j => attributeBlock mem u (i + j) := by
  obtain ⟨j, hj, -, hend, heq⟩ := exists_attributeOps_eq mem u n i
  obtain rfl : j = n := by
    by_contra hne
    exact h (i + j) (by omega) (by omega) (hend (by omega))
  rw [heq, if_neg (lt_irrefl j), List.append_nil]

theorem attributeReturn_eq_zero
    (h : ∀ j, i ≤ j → j < i + n → storedType (u.typeName j) ≠ .undefined) :
    attributeReturn u n i = 0 := by
  induction n generalizing i with
  | zero => rfl
  | succ n ih =>
    rw [attributeReturn, if_neg (h i le_rfl (by omega))]
    exact ih fun j hj hj' => h j (by omega) (by omega)

theorem mem_attributeBlock : op ∈ attributeBlock mem u i ↔
    op = createOp u i ∨ op ∈ valueOps mem u i := List.mem_cons

end Split

section Loadable

variable {mem : Memory} {u : Universe} {i r : ℕ} {k : Bytes} {set : UniverseSet} {op : Op}

theorem Loadable.stored (hu : Loadable u) (hi : i < u.attributeDataNames.length) :
    storedType (u.typeName i) ≠ .undefined := by
  rcases hu.types i hi with h | h <;> rw [h] <;> decide

theorem Loadable.loadOps_eq (hu : Loadable u) : loadOps mem u 1000 100 = startOps mem u ++
    u.sets.flatMap setOps ++ (List.range u.attributeDataNames.length).flatMap (attributeBlock mem u) := by
  have hstored : ∀ j, 0 ≤ j → j < 0 + u.attributeDataNames.length →
      storedType (u.typeName j) ≠ .undefined := fun j _ hj => hu.stored (by omega)
  have hsets := hu.sets_le
  have hattrs := hu.attributes_le
  rw [loadOps, if_neg (by omega), if_neg (by omega), attributeOps_eq_flatMap hstored]
  simp only [Nat.zero_add]

theorem Loadable.loadReturn_eq (hu : Loadable u) : loadReturn u 1000 100 = 0 := by
  have hsets := hu.sets_le
  have hattrs := hu.attributes_le
  rw [loadReturn, if_neg (by omega), if_neg (by omega)]
  exact attributeReturn_eq_zero fun j _ hj => hu.stored (by omega)

/-- What the operations of a loadable universe are. -/
theorem Loadable.mem_loadOps (hu : Loadable u) : op ∈ loadOps mem u 1000 100 ↔
    op = .createAttribute u.keyName .string dbMaxStringLength ∨ op ∈ keyOps mem u ∨
      (∃ set ∈ u.sets, op ∈ setOps set) ∨
      ∃ i < u.attributeDataNames.length, op ∈ attributeBlock mem u i := by
  simp only [hu.loadOps_eq, startOps, List.mem_append, List.mem_cons, List.mem_flatMap,
    List.mem_range, or_assoc]

theorem addKey_mem_keyOps : .addKey k ∈ keyOps mem u ↔ ∃ r < u.rows, u.key r = k := by
  rw [mem_keyOps]
  constructor
  · rintro ⟨r, hr, h | h⟩
    · exact ⟨r, hr, (Op.addKey.inj h).symm⟩
    · cases h
  · rintro ⟨r, hr, rfl⟩
    exact ⟨r, hr, Or.inl rfl⟩

theorem Loadable.addKey_mem (hu : Loadable u) :
    .addKey k ∈ loadOps mem u 1000 100 ↔ ∃ r < u.rows, u.key r = k := by
  rw [hu.mem_loadOps, addKey_mem_keyOps]
  refine ⟨?_, fun h => Or.inr (Or.inl h)⟩
  rintro (h | h | ⟨set, -, h⟩ | ⟨i, -, h⟩)
  · cases h
  · exact h
  · obtain h | ⟨_, -, h⟩ := mem_setOps.mp h <;> cases h
  · rcases mem_attributeBlock.mp h with h | h
    · cases h
    · obtain ⟨_, -, h⟩ := mem_valueOps.mp h
      cases h

/-- **A load adds to a set the keys that are listed in it.** -/
theorem Loadable.lastAdded_iff (hu : Loadable u) (hset : set ∈ u.sets)
    (hk : ∃ r < u.rows, u.key r = k) :
    LastAdded (calls (loadOps mem u 1000 100)) set.name k ↔ k ∈ set.members := by
  constructor
  · rintro ⟨pre, post, heq, -⟩
    have hmem : (Call.add set.name k).op ∈ loadOps mem u 1000 100 :=
      (mem_calls.mp (by rw [heq]; simp)).1
    obtain h | h | ⟨set', hset', h⟩ | ⟨i, -, h⟩ := hu.mem_loadOps.mp hmem
    · cases h
    · obtain ⟨_, -, h | h⟩ := mem_keyOps.mp h <;> cases h
    · obtain h | ⟨k', hk', h⟩ := mem_setOps.mp h
      · cases h
      · obtain ⟨hname, rfl⟩ := Op.addToSet.inj h
        obtain rfl := List.inj_on_of_nodup_map hu.setNames hset hset' hname
        exact hk'
    · rcases mem_attributeBlock.mp h with h | h
      · cases h
      · obtain ⟨_, -, h⟩ := mem_valueOps.mp h
        cases h
  · intro hmem
    obtain ⟨l₁, l₂, hl⟩ := List.append_of_mem hset
    obtain ⟨m₁, m₂, hm⟩ := List.append_of_mem hmem
    obtain ⟨r, hr, rfl⟩ := hk
    -- the keys are there before the sets, and a set is created before its members are added
    set pre := startOps mem u ++ l₁.flatMap setOps ++
      .createSet set.name :: m₁.map (.addToSet set.name) with hpre
    set post := m₂.map (.addToSet set.name) ++ l₂.flatMap setOps ++
      (List.range u.attributeDataNames.length).flatMap (attributeBlock mem u) with hpost
    have hops : loadOps mem u 1000 100 = pre ++ .addToSet set.name (u.key r) :: post := by
      rw [hu.loadOps_eq, hl, List.flatMap_append, List.flatMap_cons]
      conv_lhs => rw [setOps, hm]
      simp [hpre, hpost]
    refine ⟨calls pre, calls post, ?_, mem_calls.mpr ⟨?_, (hu.key r hr).1⟩,
      mem_calls.mpr ⟨?_, hu.setNames_ne set hset⟩, fun h => ?_⟩
    · rw [hops, calls, List.filterMap_append]
      rfl
    · have : Op.addKey (u.key r) ∈ keyOps mem u := addKey_mem_keyOps.mpr ⟨r, hr, rfl⟩
      simp [hpre, Call.op, startOps, this]
    · simp [hpre, Call.op]
    · have hno : Op.removeFromSet set.name (u.key r) ∉ loadOps mem u 1000 100 :=
        fun h => loads_of_mem h
      rw [hops] at hno
      exact hno (List.mem_append_right _ (List.mem_cons_of_mem _ (mem_calls.mp h).1))

theorem Loadable.keyName_ne_attrName (hu : Loadable u) (hi : i < u.attributeDataNames.length) :
    u.keyName ≠ u.attrName i := by
  have hmem : u.attrName i ∈ u.attributeDataNames := by
    simp [Universe.attrName, hi]
  exact fun h => (List.nodup_cons.mp hu.names).1 (h ▸ hmem)

theorem Loadable.attrName_inj {j : ℕ} (hu : Loadable u) (hi : i < u.attributeDataNames.length)
    (hj : j < u.attributeDataNames.length) (h : u.attrName i = u.attrName j) : i = j := by
  refine (List.nodup_cons.mp hu.names).2.getElem_inj_iff.mp (?_ : u.attributeDataNames[i] =
    u.attributeDataNames[j])
  simpa [Universe.attrName, hi, hj] using h

/-- Nothing but the blocks of an attribute creates it. -/
theorem Loadable.createAttribute_attributeBlock {j : ℕ} {t : AttrType} {z : ℤ} (hu : Loadable u)
    (hi : i < u.attributeDataNames.length) (hj : j < u.attributeDataNames.length)
    (h : .createAttribute (u.attrName i) t z ∈ attributeBlock mem u j) : i = j := by
  rcases mem_attributeBlock.mp h with h | h
  · exact hu.attrName_inj hi hj (Op.createAttribute.inj h).1
  · obtain ⟨_, -, h⟩ := mem_valueOps.mp h
    cases h

/-- The last value of the key column at a key is the key. -/
theorem Loadable.lastWritten_key (mem : Memory) (hu : Loadable u) (hr : u.LastRow k r) :
    LastWritten Shape.Fits (cellCalls (loadOps mem u 1000 100)) u.keyName k (.text k (mem.key r)) ∧
      shapeOf (cellCalls (loadOps mem u 1000 100)) u.keyName =
        some (newShape .string dbMaxStringLength) := by
  obtain ⟨hlt, rfl, hlast⟩ := hr
  obtain ⟨hne, hnul, hlen⟩ := hu.key r hlt
  obtain ⟨l, hl, hafter⟩ := range_split hlt
  have hops : loadOps mem u 1000 100 =
      (.createAttribute u.keyName .string dbMaxStringLength ::
        ((List.range r).flatMap (keyRowOps mem u) ++ [.addKey (u.key r)])) ++
      .setAttribute u.keyName (u.key r) (.text (u.key r) (mem.key r)) ::
        (l.flatMap (keyRowOps mem u) ++ u.sets.flatMap setOps ++
          (List.range u.attributeDataNames.length).flatMap (attributeBlock mem u)) := by
    rw [hu.loadOps_eq, startOps, keyOps, hl, List.flatMap_append, List.flatMap_cons, keyRowOps]
    simp
  rw [hops]
  refine lastWritten_of_split ?_ ?_ (by simp) hne fun q hq => ?_
  · rw [← List.nil_append (_ :: _)]
    exact shapeOf_cellCalls (by decide) fun _ _ h => absurd h List.not_mem_nil
  · rintro ⟨-, hlong⟩
    exact absurd ((longerThan_text_iff hnul).mp hlong) (Nat.not_lt.mpr hlen)
  · simp only [List.mem_append, List.mem_flatMap, List.mem_range] at hq
    obtain (⟨j, hj, hq⟩ | ⟨set, -, hq⟩) | ⟨i, hi, hq⟩ := hq
    · obtain ⟨hj, hj'⟩ := hafter j hj
      have hkey : u.key r = u.key j := by simp_all [keyRowOps]
      exact hlast j hj' hj hkey.symm
    · obtain h | ⟨_, -, h⟩ := mem_setOps.mp hq <;> cases h
    · rcases mem_attributeBlock.mp hq with h | h
      · cases h
      · obtain ⟨_, -, h⟩ := mem_valueOps.mp h
        exact hu.keyName_ne_attrName hi (Op.setAttribute.inj h).1

/-- The last value of an attribute at a key is the value of the last row of the key. -/
theorem Loadable.lastWritten_value (mem : Memory) (hu : Loadable u) (hi : i < u.attributeDataNames.length)
    (hr : u.LastRow k r) :
    LastWritten Shape.Fits (cellCalls (loadOps mem u 1000 100)) (u.attrName i) k (payload mem u i r) ∧
      shapeOf (cellCalls (loadOps mem u 1000 100)) (u.attrName i) =
        some (newShape (storedType (u.typeName i)) dbMaxStringLength) := by
  obtain ⟨hlt, rfl, hlast⟩ := hr
  obtain ⟨l, hl, hafter⟩ := range_split hlt
  obtain ⟨l', hl', hafter'⟩ := range_split hi
  set before := startOps mem u ++ u.sets.flatMap setOps ++
    (List.range i).flatMap (attributeBlock mem u) with hbefore
  have hops : loadOps mem u 1000 100 = (before ++ createOp u i :: (List.range r).map fun j =>
        .setAttribute (u.attrName i) (u.key j) (payload mem u i j)) ++
      .setAttribute (u.attrName i) (u.key r) (payload mem u i r) ::
        ((l.map fun j => .setAttribute (u.attrName i) (u.key j) (payload mem u i j)) ++
          l'.flatMap (attributeBlock mem u)) := by
    rw [hu.loadOps_eq, hl', List.flatMap_append, List.flatMap_cons, attributeBlock, valueOps, hl,
      List.map_append, List.map_cons]
    simp [hbefore]
  have hshape : newShape (storedType (u.typeName i))
      (if storedType (u.typeName i) = .string then dbMaxStringLength else 0 : ℤ) =
      newShape (storedType (u.typeName i)) dbMaxStringLength := by
    unfold newShape
    split_ifs <;> rfl
  have hsize : ¬ (storedType (u.typeName i) = .string ∧
      (if storedType (u.typeName i) = .string then dbMaxStringLength else 0 : ℤ) < 1) := by
    rintro ⟨hstring, hlt⟩
    rw [if_pos hstring] at hlt
    exact absurd hlt (by decide)
  rw [hops, ← hshape]
  refine lastWritten_of_split ?_ ?_ ?_ (hu.key r hlt).1 fun q hq => ?_
  · refine shapeOf_cellCalls hsize fun t z h => ?_
    simp only [hbefore, startOps, List.mem_append, List.mem_cons, List.mem_flatMap,
      List.mem_range] at h
    obtain ((h | h) | ⟨set, -, h⟩) | ⟨j, hj, h⟩ := h
    · exact hu.keyName_ne_attrName hi (Op.createAttribute.inj h).1.symm
    · obtain ⟨_, -, h | h⟩ := mem_keyOps.mp h <;> cases h
    · obtain h | ⟨_, -, h⟩ := mem_setOps.mp h <;> cases h
    · have := hu.createAttribute_attributeBlock hi (hj.trans hi) h
      omega
  · rintro ⟨hstring, hlong⟩
    have hstored : storedType (u.typeName i) = .string := hstring
    have htype : u.typeName i = lit "STRING" := by
      rcases hu.types i hi with h | h
      · exact h
      · rw [h] at hstored
        exact absurd hstored (by decide)
    obtain ⟨hnul, hlen⟩ := hu.strings i hi htype r hlt
    rw [payload, if_pos hstored, newShape, hstored] at hlong
    exact absurd ((longerThan_text_iff hnul).mp hlong) (Nat.not_lt.mpr hlen)
  · have : Op.addKey (u.key r) ∈ keyOps mem u := addKey_mem_keyOps.mpr ⟨r, hlt, rfl⟩
    simp [hbefore, startOps, this]
  · simp only [List.mem_append, List.mem_map, List.mem_flatMap] at hq
    obtain ⟨j, hj, hq⟩ | ⟨j, hj, hq⟩ := hq
    · obtain ⟨hj, hj'⟩ := hafter j hj
      exact hlast j hj' hj (Op.setAttribute.inj hq).2.1
    · rcases mem_attributeBlock.mp hq with h | h
      · cases h
      · obtain ⟨_, -, h⟩ := mem_valueOps.mp h
        obtain ⟨hj, hj'⟩ := hafter' j hj
        have := hu.attrName_inj hi hj' (Op.setAttribute.inj h).1
        omega

end Loadable

/-! ## The loaded database -/

section Faithful

variable {mem : Memory} {u : Universe} {k : Bytes}

/-- Every key has a last row. -/
theorem Universe.exists_lastRow (h : ∃ r < u.rows, u.key r = k) : ∃ r, u.LastRow k r := by
  classical
  obtain ⟨r, hr, hk⟩ := h
  obtain ⟨hlt, hkey⟩ := Nat.findGreatest_spec (P := fun r => r < u.rows ∧ u.key r = k) hr.le ⟨hr, hk⟩
  refine ⟨_, hlt, hkey, fun r' hr' hgt hkey' => ?_⟩
  exact Nat.findGreatest_is_greatest hgt hr'.le ⟨hr', hkey'⟩

/-- The database of a universe of at most `2 ^ 24` rows is created. -/
theorem exists_mainDatabase (h : u.rows ≤ 2 ^ 24) : ∃ db₀, mainDatabase u = .ok db₀ := by
  obtain ⟨setSlots, hs⟩ := exists_tableSize (n := 1000) (by decide)
  obtain ⟨attrSlots, ha⟩ := exists_tableSize (n := 100) (by decide)
  obtain ⟨keySlots, hk⟩ := exists_tableSize h
  exact ⟨_, createEmptyDB_of_tableSize hs ha hk⟩

/-- A loadable universe is loaded without an error, by its operations. -/
theorem Loadable.exists_load (mem : Memory) (hu : Loadable u) :
    ∃ db₀ s, mainDatabase u = .ok db₀ ∧ dbAddParsedData mem db₀ u = .ok (s, 0) ∧
      run (db₀.withKeyColumn u.keyName) (loadOps mem u 1000 100) = .ok s.db ∧ Safe s.db := by
  obtain ⟨db₀, h₀⟩ := exists_mainDatabase hu.rows_le
  have hkeys := (countP_loadOps mem u 1000 100).1
  have hwords : InWords (db₀.withKeyColumn u.keyName) (loadOps mem u 1000 100) := by
    refine inWords_of_le (safe_withKeyColumn h₀ u.keyName).inv ?_ ?_ <;>
      obtain ⟨_, _, _, -, -, -, rfl⟩ := createEmptyDB_eq_ok h₀
    · exact hu.rows_le
    · simp [Database.withKeyColumn, hkeys]
  obtain ⟨s, hs, hsafe⟩ := exists_loadOps h₀ hwords
  refine ⟨db₀, s, h₀, ?_, (exec_eq_ok hs).1, hsafe⟩
  rw [dbAddParsedData_eq hu.shaped h₀ (by decide) hu.keyName_lt, hs, hu.loadReturn_eq]
  rfl

variable {db₀ db : Database}

/-- The loaded database represents the sets of the universe. -/
theorem refines_loadOps (h₀ : mainDatabase u = .ok db₀)
    (h : run (db₀.withKeyColumn u.keyName) (loadOps mem u 1000 100) = .ok db)
    (hcap : db.keyCount ≤ db.maxKeyCount) :
    Refines db (Store.run (calls (loadOps mem u 1000 100))) := by
  have hempty : Refines (db₀.withKeyColumn u.keyName) Store.empty :=
    (refines_createEmptyDB h₀).congr rfl rfl rfl
  exact refines_run (inv_withKeyColumn (inv_createEmptyDB h₀) u.keyName) hempty h hcap

/-- The loaded database represents the columns of the universe. -/
theorem represents_loadOps (h₀ : mainDatabase u = .ok db₀)
    (h : run (db₀.withKeyColumn u.keyName) (loadOps mem u 1000 100) = .ok db)
    (hcap : db.keyCount ≤ db.maxKeyCount) :
    Represents db (Cells.run Shape.Fits (cellCalls (loadOps mem u 1000 100))) := by
  have hcount := (countP_loadOps mem u 1000 100).2.2
  have hinv := inv_withKeyColumn (inv_createEmptyDB h₀) u.keyName
  obtain ⟨_, _, _, -, -, -, rfl⟩ := createEmptyDB_eq_ok h₀
  refine represents_run hinv (represents_empty ?_ ?_) h ?_ hcap
  · simp [Database.withKeyColumn]
  · simp [Database.withKeyColumn]
  · simpa [Database.withKeyColumn, Database.attrCount] using hcount

/-- The keys of the loaded database are the keys of the universe. -/
theorem Loadable.isSome_key_iff (hu : Loadable u) (h₀ : mainDatabase u = .ok db₀)
    (h : run (db₀.withKeyColumn u.keyName) (loadOps mem u 1000 100) = .ok db)
    (hcap : db.keyCount ≤ db.maxKeyCount) :
    (stSearch db.keyTable k).isSome ↔ ∃ r < u.rows, u.key r = k := by
  rw [(refines_loadOps h₀ h hcap).keys, Store.mem_keys_run_iff, mem_calls]
  constructor
  · rintro ⟨hmem, -⟩
    exact hu.addKey_mem.mp hmem
  · rintro ⟨r, hr, rfl⟩
    exact ⟨hu.addKey_mem.mpr ⟨r, hr, rfl⟩, (hu.key r hr).1⟩

/-- The sets of the loaded database are the sets of the universe. -/
theorem Loadable.isSome_set_iff (hu : Loadable u) (h₀ : mainDatabase u = .ok db₀)
    (h : run (db₀.withKeyColumn u.keyName) (loadOps mem u 1000 100) = .ok db)
    (hcap : db.keyCount ≤ db.maxKeyCount) {name : Bytes} :
    (stSearch db.setNamesTable name).isSome ↔ ∃ set ∈ u.sets, set.name = name := by
  rw [(refines_loadOps h₀ h hcap).names, Store.mem_names_run_iff, mem_calls]
  constructor
  · rintro ⟨hmem, -⟩
    obtain h | h | ⟨set, hset, h⟩ | ⟨i, -, h⟩ := hu.mem_loadOps.mp hmem
    · cases h
    · obtain ⟨_, -, h | h⟩ := mem_keyOps.mp h <;> cases h
    · obtain h | ⟨_, -, h⟩ := mem_setOps.mp h
      · exact ⟨set, hset, (Op.createSet.inj h).symm⟩
      · cases h
    · rcases mem_attributeBlock.mp h with h | h
      · cases h
      · obtain ⟨_, -, h⟩ := mem_valueOps.mp h
        cases h
  · rintro ⟨set, hset, rfl⟩
    have hop : Op.createSet set.name ∈ loadOps mem u 1000 100 :=
      hu.mem_loadOps.mpr (Or.inr (Or.inr (Or.inl ⟨set, hset, mem_setOps.mpr (Or.inl rfl)⟩)))
    exact ⟨hop, hu.setNames_ne set hset⟩

/-- The key column holds the keys. -/
theorem Loadable.stored_key (hu : Loadable u) (h₀ : mainDatabase u = .ok db₀)
    (h : run (db₀.withKeyColumn u.keyName) (loadOps mem u 1000 100) = .ok db)
    (hcap : db.keyCount ≤ db.maxKeyCount) (hk : ∃ r < u.rows, u.key r = k) :
    ∃ attr m, db.table u.keyName = some attr ∧ attr.shape = newShape .string dbMaxStringLength ∧
      db.stored u.keyName k = some ((Payload.text k m).bytes attr.width) := by
  obtain ⟨r, hr⟩ := Universe.exists_lastRow hk
  obtain ⟨hlast, hshape⟩ := hu.lastWritten_key mem hr
  obtain ⟨attr, hattr, hshape, hstored⟩ :=
    stored_of_lastWritten (represents_loadOps h₀ h hcap) hlast hshape
  exact ⟨attr, _, hattr, hshape, hstored⟩

/-- A value of a string column is read back. -/
theorem cstr_stored_text {attr : Attributes} {b : Bytes} {m : ℕ → UInt8} (hnul : NulFree b)
    (hlen : b.length ≤ dbMaxStringLength) (hshape : attr.shape = newShape .string dbMaxStringLength) :
    cstr ((Payload.text b m).bytes attr.width) = b := by
  obtain ⟨htype, hstring⟩ := Shape.mk.inj hshape
  have hwidth : attr.width = dbMaxStringLength := by
    rw [Attributes.width, htype]
    exact hstring
  rw [hwidth]
  exact cstr_bytes_text hnul hlen

/-- **A load is faithful**: a universe within the capacities is loaded without an error, and the
database then holds its keys, its sets and its values. -/
theorem dbAddParsedData_faithful (mem : Memory) (hu : Loadable u) :
    ∃ db₀ s, mainDatabase u = .ok db₀ ∧ dbAddParsedData mem db₀ u = .ok (s, 0) ∧
      Faithful u s.db := by
  obtain ⟨db₀, s, h₀, hload, hrun, hsafe⟩ := hu.exists_load mem
  have hcap := hsafe.keyCount_le
  have hcolumns := represents_loadOps h₀ hrun hcap
  refine ⟨db₀, s, h₀, hload, fun k => hu.isSome_key_iff h₀ hrun hcap, fun i => ?_, ?_,
    fun set hset => (hu.isSome_set_iff h₀ hrun hcap).mpr ⟨set, hset, rfl⟩,
    fun set hset k d hd => ?_, fun k hk => ?_,
    fun i hi htype k r hr => ?_, fun i hi htype k r z hr hz => ?_⟩
  · constructor
    · intro hi
      rw [← hsafe.inv.keys.length_eq hcap] at hi
      obtain ⟨name, hname⟩ := hsafe.inv.keys.exists_name hi
      exact ⟨name, _, hname, rfl⟩
    · rintro ⟨k, d, hd, rfl⟩
      exact hsafe.inv.keys.index_lt_count hd
  · intro k k' d d' hd hd' heq
    exact hsafe.inv.keys.name_eq hd hd' heq
  · rw [(refines_loadOps h₀ hrun hcap).members set.name k d hd, mem_run_iff]
    exact hu.lastAdded_iff hset ((hu.isSome_key_iff h₀ hrun hcap).mp (by rw [hd]; rfl))
  · obtain ⟨attr, m, -, hshape, hstored⟩ := hu.stored_key h₀ hrun hcap hk
    obtain ⟨r, hr, rfl⟩ := hk
    obtain ⟨-, hnul, hlen⟩ := hu.key r hr
    exact ⟨_, hstored, cstr_stored_text hnul hlen hshape⟩
  · obtain ⟨hlast, hshape⟩ := hu.lastWritten_value mem hi hr
    have hstored : storedType (u.typeName i) = .string := if_pos htype
    rw [payload, if_pos hstored] at hlast
    rw [hstored] at hshape
    obtain ⟨attr, -, hattr, hstored⟩ := stored_of_lastWritten hcolumns hlast hshape
    obtain ⟨hnul, hlen⟩ := hu.strings i hi htype r hr.1
    exact ⟨_, hstored, cstr_stored_text hnul hlen hattr⟩
  · obtain ⟨hlast, hshape⟩ := hu.lastWritten_value mem hi hr
    have hstored : storedType (u.typeName i) = .type64 := by
      rw [htype]
      decide
    rw [payload, hstored, if_neg (by decide), integerPayload] at hlast
    rw [hstored] at hshape
    obtain ⟨attr, -, hattr, hstored⟩ := stored_of_lastWritten hcolumns hlast hshape
    have hwidth : attr.width = 8 := by
      rw [Attributes.width, (Shape.mk.inj hattr).1]
    rw [hwidth, bytes_int64] at hstored
    refine ⟨_, hstored, ?_⟩
    obtain ⟨z', hz', hlo, hhi⟩ := hu.integers i hi htype r hr.1
    obtain rfl := hz.unique hz'
    rw [strtol_of_decimal hz hlo hhi, readInt64_leBytes hlo hhi]

/-- A universe of one row, with an integer, a string and a set. -/
def singleUniverse : Universe where
  name := lit "U"
  keyDataTypeNames := [lit "STRING"]
  keyDataNames := [lit "id"]
  attributeDataTypeNames := [lit "INTEGER", lit "STRING"]
  attributeDataNames := [lit "age", lit "name"]
  keyValues := [some [lit "k"]]
  attributeValues := [some [lit "-7", lit "Ann"]]
  sets := [⟨lit "S", [some [lit "k"], some [lit "unknown"]]⟩]

theorem loadable_singleUniverse : Loadable singleUniverse where
  shaped := by
    refine ⟨by decide, rfl, fun k hk => ?_, fun k hk i hi => ?_, fun set hset j hj => ?_⟩
    · obtain rfl := Nat.lt_one_iff.mp hk
      exact ⟨_, rfl⟩
    · obtain rfl := Nat.lt_one_iff.mp hk
      match i, hi with
      | 0, _ | 1, _ => exact ⟨_, rfl⟩
    · obtain rfl := List.mem_singleton.mp hset
      match j, hj with
      | 0, _ | 1, _ => exact ⟨_, rfl⟩
  keyColumn := rfl
  keyName_ne := by decide
  keyName_lt := by decide
  rows_pos := by decide
  rows_le := by decide
  length_eq := rfl
  key := by decide
  names := by decide
  types := by decide
  strings := by decide
  integers := by
    intro i hi htype r hr
    obtain rfl := Nat.lt_one_iff.mp hr
    match i, hi with
    | 0, _ => exact ⟨-7, ⟨lit "7", by decide +kernel, by decide +kernel,
      Or.inr ⟨by decide, by decide⟩⟩, by decide⟩
    | 1, _ => exact absurd htype (by decide)
  setNames := by decide
  setNames_ne := by decide
  sets_le := by decide
  attributes_le := by decide

theorem dbAddParsedData_faithful_single : ∃ db₀ s, mainDatabase singleUniverse = .ok db₀ ∧
    dbAddParsedData ⟨fun _ _ => 0, fun _ _ _ => 0, fun _ _ _ => 0⟩ db₀ singleUniverse = .ok (s, 0) ∧
      Faithful singleUniverse s.db :=
  dbAddParsedData_faithful _ loadable_singleUniverse

end Faithful

end SetQL
