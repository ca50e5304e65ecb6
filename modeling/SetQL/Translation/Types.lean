import SetQL.Parser.SinglePass
import SetQL.Translation.Erasure
import SetQL.Translation.KeyOrder

/-!
# The types of attributes

The parser of values knows the types `STRING`, `INTEGER` and `FLOAT` in any case of letters; the
loader stores `STRING` and `INTEGER`, in capital letters only. A name may be declared more than once:
the first declaration creates the table, and the values of every later one are written to it.

## Main definitions

* `Universe.Processed u j`: the loader stores attribute `j` and all before it
* `SameTypes u`: declarations of one name have one type
* `Usable u db`: every declared attribute has a table of its type
* `Payload.kind`, `TypedWrites calls`: values are written to tables of their kind
* `ReachesValues u`: there are values of attributes that the load comes to

## Main results

* `exists_load_iff`: which universes are loaded within the arrays
* `usable_iff`: which accepted files are loaded with all their attributes
* `typedWrites_iff`: for which accepted files every value is written to a table of its kind
-/

namespace SetQL

/-! ## Accepted universes -/

section Accepted

variable {u u' : Universe} {d a i file : Bytes} {ts inserts sets : List Bytes} {p : Progress}

theorem Inserts.keyDataNames_eq (h : Inserts u ts u') (hu : u.Declared) :
    u'.keyDataNames = u.keyDataNames := by
  induction h with
  | nil => rfl
  | cons h _ ih =>
    obtain ⟨items, -, -, rows, -, rfl⟩ := (parseUniverseInsert_eq_ok hu).mp h
    exact ih (hu.withRows _ _)

/-- The key columns of an accepted universe are those of its definition. -/
theorem Executes.exists_keyColumns (h : Executes createEmptyUniverse d a i inserts sets u') :
    ∃ name columns types, definition parserRegex.universeDefinition d = some (name, columns) ∧
      parseValueType parserRegex columns = .ok (types, u'.keyDataNames, false) := by
  obtain ⟨⟨u₁, u₂, u₃, u₄, k, hd, ha, hi, hinserts, hsets⟩, -⟩ := h
  have hfilled := filled_of_definitions rfl rfl hd ha
  have hkeys := hinserts.keyDataNames_eq (filled_of_insert hfilled hi).declared
  have hsame : u'.keyDataNames = u₄.keyDataNames := hsets.sameBase.keyDataNames
  rw [hsame, hkeys]
  obtain ⟨name, columns, types, names, hdefinition, -, hcolumns, rfl⟩ :=
    parseUniverseDefinition_eq_ok.mp hd
  obtain ⟨columns', types', names', -, -, rfl⟩ := parseAttributesDefinition_eq_ok.mp ha
  obtain ⟨items, -, -, rows, -, rfl⟩ := (parseUniverseInsert_eq_ok hfilled.declared).mp hi
  exact ⟨name, columns, types, hdefinition, hcolumns⟩

/-- A universe is declared with a key column. -/
theorem Executes.keyDataNames_ne_nil (h : Executes createEmptyUniverse d a i inserts sets u') :
    u'.keyDataNames ≠ [] := by
  obtain ⟨name, columns, types, -, hcolumns⟩ := h.exists_keyColumns
  obtain ⟨hlen, hnames, -⟩ := parseValueType_eq_ok hcolumns
  intro hnil
  rw [hlen, hnil] at hnames
  cases hnames

/-- Every set has a name. -/
theorem Executes.setName_ne_nil (h : Executes createEmptyUniverse d a i inserts sets u') :
    ∀ set ∈ u'.sets, set.name ≠ [] := by
  intro set hset
  have hmem : set.name ∈ u'.setNames := List.mem_map_of_mem hset
  rw [h.setNames_eq.1] at hmem
  obtain ⟨t, -, ht⟩ := List.mem_filterMap.mp hmem
  exact ne_nil_of_createdSet_name ht

theorem ArrayList.Rows.cell {values : ArrayList} {n r j : ℕ} (h : values.Rows n)
    (hr : r < values.length) (hj : j < n) : ∃ b, values.cell r j = .ok b := by
  obtain ⟨row, hrow, hlen⟩ := h _ (List.getElem_mem hr)
  have hlt : j < row.length := hlen ▸ hj
  refine ⟨row[j], ?_⟩
  rw [ArrayList.cell, fetch_eq_ok.mpr (List.getElem?_eq_getElem hr), ok_bind, hrow]
  exact fetch_eq_ok.mpr (List.getElem?_eq_getElem hlt)

/-- A well-formed universe has all the strings that a load reads. -/
theorem Universe.WellFormed.shaped (h : u.WellFormed) (hkeys : u.keyDataNames ≠ []) : Shaped u where
  keyName := hkeys
  types := h.declared.attributes.symm
  keys := fun _ hr => h.keyRows.cell hr (List.length_pos_iff.mpr hkeys)
  values := fun _ hr _ hj => h.attributeRows.cell (h.length_eq ▸ hr) hj
  members := fun set hset _ hj => (h.setRows set hset).cell hj (List.length_pos_iff.mpr hkeys)

/-- **An accepted file has all the strings that a load reads**, and names its sets. -/
theorem shaped_of_parse (h : parseInitialization createEmptyUniverse file = .ok (p, none)) :
    Shaped p.u ∧ ∀ set ∈ p.u.sets, set.name ≠ [] := by
  obtain ⟨-, d, a, i, inserts, sets, -, hexecutes, -⟩ := (parse_eq_ok rfl).mp h
  exact ⟨hexecutes.wellFormed.shaped hexecutes.keyDataNames_ne_nil, hexecutes.setName_ne_nil⟩

end Accepted

/-! ## The operations of the attributes -/

/-- The loader stores the attribute and all before it. -/
def Universe.Processed (u : Universe) (j : ℕ) : Prop :=
  j < u.attributeDataNames.length ∧ ∀ l ≤ j, storedType (u.typeName l) ≠ .undefined

section Types

variable {mem : Memory} {u : Universe} {j n i : ℕ} {op : Op}

theorem Universe.typeName_eq (hj : j < u.attributeDataTypeNames.length) :
    u.typeName j = u.attributeDataTypeNames[j] := by simp [Universe.typeName, hj]

theorem storedType_ne_undefined {t : Bytes} :
    storedType t ≠ .undefined ↔ t = lit "STRING" ∨ t = lit "INTEGER" := by
  by_cases hs : t = lit "STRING"
  · rw [storedType, if_pos hs]
    exact iff_of_true (by decide) (Or.inl hs)
  · by_cases hi : t = lit "INTEGER"
    · rw [storedType, if_neg hs, if_pos hi]
      exact iff_of_true (by decide) (Or.inr hi)
    · rw [storedType, if_neg hs, if_neg hi]
      exact iff_of_false (fun h => h rfl) (not_or.mpr ⟨hs, hi⟩)

/-- A stored type has one name. -/
theorem storedType_inj {t t' : Bytes} (ht : storedType t ≠ .undefined)
    (h : storedType t = storedType t') : t = t' := by
  have ht' : storedType t' ≠ .undefined := h ▸ ht
  rcases storedType_ne_undefined.mp ht with rfl | rfl <;>
    rcases storedType_ne_undefined.mp ht' with rfl | rfl
  · rfl
  · exact absurd h (by decide)
  · exact absurd h (by decide)
  · rfl

theorem attributeReturn_eq_zero_iff : attributeReturn u n i = 0 ↔
    ∀ j, i ≤ j → j < i + n → storedType (u.typeName j) ≠ .undefined := by
  refine ⟨?_, attributeReturn_eq_zero⟩
  induction n generalizing i with
  | zero => exact fun _ j hle hlt => absurd hlt (by omega)
  | succ n ih =>
    rw [attributeReturn]
    split_ifs with hstored
    · exact fun h => absurd h (by decide)
    · intro h j hle hlt
      rcases Nat.eq_or_lt_of_le hle with rfl | hle
      · exact hstored
      · exact ih h j hle (by omega)

/-- The operations of a load that comes to its attributes. -/
theorem exists_loadOps_eq (mem : Memory) (hsets : u.sets.length ≤ 1000)
    (hattributes : u.attributeDataNames.length ≤ 99) :
    ∃ n ≤ u.attributeDataNames.length, (∀ l < n, storedType (u.typeName l) ≠ .undefined) ∧
      (n < u.attributeDataNames.length → storedType (u.typeName n) = .undefined) ∧
      loadOps mem u 1000 100 = startOps mem u ++ u.sets.flatMap setOps ++
        ((List.range n).flatMap (attributeBlock mem u) ++
          if n < u.attributeDataNames.length then [createOp u n] else []) := by
  obtain ⟨n, hn, hall, hend, heq⟩ := exists_attributeOps_eq mem u u.attributeDataNames.length 0
  simp only [Nat.zero_add] at hall hend heq
  exact ⟨n, hn, hall, hend, by rw [loadOps, if_neg (by omega), if_neg (by omega), heq]⟩

/-- The operations of a load around the values of an attribute. -/
theorem Universe.Processed.loadOps_split (mem : Memory) (hj : u.Processed j)
    (hsets : u.sets.length ≤ 1000) (hattributes : u.attributeDataNames.length ≤ 99) :
    ∃ post, loadOps mem u 1000 100 =
      (startOps mem u ++ u.sets.flatMap setOps ++ (List.range j).flatMap (attributeBlock mem u) ++
        [createOp u j]) ++ (valueOps mem u j ++ post) := by
  obtain ⟨n, hn, -, hend, heq⟩ := exists_loadOps_eq mem hsets hattributes
  have hlt : j < n := by
    by_contra hge
    exact hj.2 n (by omega) (hend (by have := hj.1; omega))
  obtain ⟨l, hl, -⟩ := range_split hlt
  refine ⟨l.flatMap (attributeBlock mem u) ++
    if n < u.attributeDataNames.length then [createOp u n] else [], ?_⟩
  rw [heq, hl, List.flatMap_append, List.flatMap_cons, attributeBlock]
  simp only [List.append_assoc, List.cons_append, List.nil_append]

/-- The values that a load sets are keys, or values of attributes that it stores. -/
theorem setAttribute_mem_loadOps {name key : Bytes} {data : Payload}
    (h : .setAttribute name key data ∈ loadOps mem u 1000 100) :
    (name = u.keyName ∧ ∃ m, data = .text key m) ∨
      (u.sets.length ≤ 1000 ∧ u.attributeDataNames.length ≤ 99 ∧
        ∃ j r, u.Processed j ∧ r < u.rows ∧ name = u.attrName j ∧ data = payload mem u j r) := by
  have hstart : ∀ {name key data}, .setAttribute name key data ∈ startOps mem u →
      name = u.keyName ∧ ∃ m, data = .text key m := by
    intro name key data h
    rcases List.mem_cons.mp h with h | h
    · cases h
    · obtain ⟨r, -, h | h⟩ := mem_keyOps.mp h
      · cases h
      · obtain ⟨rfl, rfl, rfl⟩ := Op.setAttribute.inj h
        exact ⟨rfl, _, rfl⟩
  have hset : ∀ {name key data}, .setAttribute name key data ∉ u.sets.flatMap setOps := by
    intro name key data h
    obtain ⟨set, -, h⟩ := List.mem_flatMap.mp h
    obtain h | ⟨_, -, h⟩ := mem_setOps.mp h <;> cases h
  by_cases hsets : u.sets.length ≤ 1000
  · by_cases hattributes : u.attributeDataNames.length ≤ 99
    · obtain ⟨n, hn, hall, hend, heq⟩ := exists_loadOps_eq mem hsets hattributes
      rw [heq] at h
      rcases List.mem_append.mp h with h | h
      · exact Or.inl (hstart ((List.mem_append.mp h).resolve_right hset))
      · refine Or.inr ⟨hsets, hattributes, ?_⟩
        have hblock : .setAttribute name key data ∈ (List.range n).flatMap (attributeBlock mem u) := by
          refine (List.mem_append.mp h).resolve_right fun h => ?_
          split_ifs at h
          · cases List.mem_singleton.mp h
          · cases h
        obtain ⟨j, hj, h⟩ := List.mem_flatMap.mp hblock
        have hj := List.mem_range.mp hj
        obtain ⟨r, hr, h⟩ := mem_valueOps.mp ((mem_attributeBlock.mp h).resolve_left nofun)
        obtain ⟨rfl, -, rfl⟩ := Op.setAttribute.inj h
        exact ⟨j, r, ⟨by omega, fun l hl => hall l (by omega)⟩, hr, rfl, rfl⟩
    · rw [loadOps, if_neg (by omega), if_pos (by omega)] at h
      exact Or.inl (hstart ((List.mem_append.mp h).resolve_right hset))
  · rw [loadOps, if_pos (by omega)] at h
    exact Or.inl (hstart h)

end Types

/-! ## The tables of a load -/

/-- The stored attributes of one name have one type, and those of the name of the key column are
strings. -/
def SameTypes (u : Universe) : Prop :=
  ∀ j, u.Processed j → (u.attrName j = u.keyName → u.typeName j = lit "STRING") ∧
    ∀ l < j, u.attrName l = u.attrName j → u.typeName l = u.typeName j

section Tables

variable {mem : Memory} {u : Universe} {j : ℕ} {op : Op} {pre post : List Op} {db₀ db d : Database}
  {name : Bytes} {attr : Attributes} {s s' : Load}

/-- The database represents the columns at every point of a load. -/
theorem represents_load (h₀ : mainDatabase u = .ok db₀)
    (hops : loadOps mem u 1000 100 = pre ++ post)
    (h : run (db₀.withKeyColumn u.keyName) pre = .ok db) :
    Represents db (Cells.run Shape.Fits (cellCalls pre)) := by
  have hcount := (countP_loadOps mem u 1000 100).2.2
  rw [hops, List.countP_append] at hcount
  have hcap := keyCount_load h₀ hops h
  have hinv := inv_withKeyColumn (inv_createEmptyDB h₀) u.keyName
  obtain ⟨_, _, _, -, -, -, rfl⟩ := createEmptyDB_eq_ok h₀
  refine represents_run hinv (represents_empty ?_ ?_) h ?_ hcap
  · simp [Database.withKeyColumn]
  · simp [Database.withKeyColumn]
  · simp only [Database.withKeyColumn, Database.attrCount, List.length_nil]
    omega

/-- A table has the shape that its column is first created with. -/
theorem shapeOf_of_table (h₀ : mainDatabase u = .ok db₀)
    (hops : loadOps mem u 1000 100 = pre ++ post)
    (h : run (db₀.withKeyColumn u.keyName) pre = .ok db) (hattr : db.table name = some attr) :
    shapeOf (cellCalls (loadOps mem u 1000 100)) name = some attr.shape := by
  have hcolumn := (represents_load h₀ hops h).columns name
  rw [columns_run, hattr, Option.map_some] at hcolumn
  rw [hops, cellCalls, List.filterMap_append, ← cellCalls, shapeOf_append, ← hcolumn, Option.some_or]

/-- An attribute that was created has a column. -/
theorem isSome_shapeOf_createOp {ops : List Op} (h : createOp u j ∈ ops) :
    (shapeOf (cellCalls ops) (u.attrName j)).isSome := by
  refine isSome_shapeOf (mem_cellCalls_createColumn.mpr ⟨_, _, h, ?_, rfl⟩)
  rintro ⟨hstring, hlt⟩
  rw [if_pos hstring] at hlt
  exact absurd hlt (by decide)

/-- An attribute that was created has a table. -/
theorem exists_table_of_createOp (h₀ : mainDatabase u = .ok db₀)
    (hops : loadOps mem u 1000 100 = pre ++ post)
    (h : run (db₀.withKeyColumn u.keyName) pre = .ok db) (hcreate : createOp u j ∈ pre) :
    ∃ attr, db.table (u.attrName j) = some attr := by
  have hcolumn := ((represents_load h₀ hops h).columns (u.attrName j)).trans columns_run
  have hsome := isSome_shapeOf_createOp hcreate
  rw [← hcolumn, Option.isSome_map] at hsome
  exact Option.isSome_iff_exists.mp hsome

/-- The key column is a column of strings. -/
theorem shapeOf_keyName (mem : Memory) (u : Universe) :
    shapeOf (cellCalls (loadOps mem u 1000 100)) u.keyName =
      some (newShape .string dbMaxStringLength) := by
  obtain ⟨post, hpost⟩ : ∃ post, loadOps mem u 1000 100 =
      [] ++ .createAttribute u.keyName .string dbMaxStringLength :: post := by
    rw [loadOps, startOps]
    split_ifs <;> exact ⟨_, rfl⟩
  rw [hpost]
  exact shapeOf_cellCalls (by decide) fun _ _ => List.not_mem_nil

/-- The column of an attribute that is stored has the type of the key column, or of an attribute of
its name that is declared before it. -/
theorem Universe.Processed.type_of_shapeOf (hj : u.Processed j) (hsets : u.sets.length ≤ 1000)
    (hattributes : u.attributeDataNames.length ≤ 99) {t : Shape}
    (ht : shapeOf (cellCalls (loadOps mem u 1000 100)) (u.attrName j) = some t) :
    t.type = .string ∧ u.attrName j = u.keyName ∨
      ∃ l ≤ j, u.attrName l = u.attrName j ∧ t.type = storedType (u.typeName l) := by
  obtain ⟨post, hops⟩ := hj.loadOps_split mem hsets hattributes
  rw [hops, cellCalls, List.filterMap_append, ← cellCalls, shapeOf_append] at ht
  obtain ⟨t', ht'⟩ := Option.isSome_iff_exists.mp
    (isSome_shapeOf_createOp (List.mem_append_right _ (List.mem_singleton_self (createOp u j))))
  rw [ht', Option.some_or, Option.some.injEq] at ht
  subst ht
  obtain ⟨type, size, hcreate, -, rfl⟩ :=
    mem_cellCalls_createColumn.mp (createColumn_mem_of_shapeOf ht')
  have hcreated : ∀ l, .createAttribute (u.attrName j) type size = createOp u l →
      u.attrName l = u.attrName j ∧ type = storedType (u.typeName l) := fun l h =>
    ⟨(Op.createAttribute.inj h).1.symm, (Op.createAttribute.inj h).2.1⟩
  simp only [List.mem_append, List.mem_flatMap, List.mem_range, List.mem_singleton] at hcreate
  obtain ((h | ⟨set, -, h⟩) | ⟨l, hl, h⟩) | h := hcreate
  · rcases List.mem_cons.mp h with h | h
    · obtain ⟨hname, rfl, -⟩ := Op.createAttribute.inj h
      exact Or.inl ⟨rfl, hname⟩
    · obtain ⟨_, -, h | h⟩ := mem_keyOps.mp h <;> cases h
  · obtain h | ⟨_, -, h⟩ := mem_setOps.mp h <;> cases h
  · rcases mem_attributeBlock.mp h with h | h
    · exact Or.inr ⟨l, hl.le, hcreated l h⟩
    · obtain ⟨_, -, h⟩ := mem_valueOps.mp h
      cases h
  · exact Or.inr ⟨j, le_rfl, hcreated j h⟩

/-- Columns have the types of their attributes when declarations of one name have one type. -/
theorem sameTypes_iff (mem : Memory) (hsets : u.sets.length ≤ 1000)
    (hattributes : u.attributeDataNames.length ≤ 99) :
    SameTypes u ↔ ∀ j t, u.Processed j →
      shapeOf (cellCalls (loadOps mem u 1000 100)) (u.attrName j) = some t →
        t.type = storedType (u.typeName j) := by
  constructor
  · intro h j t hj ht
    obtain ⟨hkey, hbefore⟩ := h j hj
    rcases hj.type_of_shapeOf hsets hattributes ht with ⟨htype, hname⟩ | ⟨l, hl, hname, htype⟩
    · rw [htype, hkey hname]
      rfl
    · rcases Nat.eq_or_lt_of_le hl with rfl | hl
      · exact htype
      · rw [htype, hbefore l hl hname]
  · intro h j hj
    constructor
    · intro hname
      have hstored := h j _ hj (hname ▸ shapeOf_keyName mem u)
      exact storedType_inj (hj.2 j le_rfl) hstored.symm
    · intro l hl hname
      have hl' : u.Processed l := ⟨hl.trans hj.1, fun i hi => hj.2 i (by omega)⟩
      obtain ⟨post, hops⟩ := hj.loadOps_split mem hsets hattributes
      obtain ⟨t, ht⟩ := Option.isSome_iff_exists.mp (isSome_shapeOf_createOp
        (show createOp u j ∈ loadOps mem u 1000 100 by simp [hops]))
      have hstored : t.type = storedType (u.typeName j) := h j t hj ht
      have hstored' : t.type = storedType (u.typeName l) := h l t hl' (hname ▸ ht)
      exact storedType_inj (hl'.2 l le_rfl) (hstored'.symm.trans hstored)

/-- The calls of a load are its operations, each on the database that those before it lead to. -/
theorem mem_calls_exec (hs : s.calls = []) {ops : List Op} (h : s.exec ops = .ok s') :
    (d, op) ∈ s'.calls ↔ ∃ pre post, ops = pre ++ op :: post ∧ run s.db pre = .ok d := by
  have hboth := foldlM_simulation (f := Load.call) (R := fun ops t => run s.db ops = .ok t.db ∧
    ∀ d op, (d, op) ∈ t.calls ↔ ∃ pre post, ops = pre ++ op :: post ∧ run s.db pre = .ok d)
    ⟨rfl, fun d op => by simp [hs]⟩ ?_ h
  · exact hboth.2 d op
  rintro ops op' t t' ⟨hrun, hcalls⟩ hstep
  obtain ⟨db, hop, rfl⟩ := Load.call_eq_ok.mp hstep
  refine ⟨foldlM_snoc_eq_ok.mpr ⟨_, hrun, hop⟩, fun d op => ?_⟩
  rw [List.mem_append, hcalls, List.mem_singleton, Prod.mk.injEq]
  constructor
  · rintro (⟨pre, post, rfl, hpre⟩ | ⟨rfl, rfl⟩)
    · exact ⟨pre, post ++ [op'], by simp, hpre⟩
    · exact ⟨ops, [], rfl, hrun⟩
  · rintro ⟨pre, post, heq, hpre⟩
    rcases List.eq_nil_or_concat post with rfl | ⟨post, last, rfl⟩
    · obtain ⟨rfl, hlast⟩ := List.append_inj' heq rfl
      obtain rfl := (List.cons.inj hlast).1
      exact Or.inr ⟨Except.ok.inj (hpre.symm.trans hrun), rfl⟩
    · rw [List.concat_eq_append, ← List.cons_append, ← List.append_assoc] at heq
      obtain ⟨rfl, -⟩ := List.append_inj' heq rfl
      exact Or.inl ⟨pre, post, rfl, hpre⟩

/-- A load that returns made its calls. -/
theorem exec_of_load {ret : ℕ} (hu : Shaped u) (h₀ : mainDatabase u = .ok db₀)
    (h : dbAddParsedData mem db₀ u = .ok (s, ret)) :
    (loadStart db₀ u).exec (loadOps mem u 1000 100) = .ok s := by
  obtain ⟨-, -, -, hname⟩ := run_of_load hu h₀ (by decide) h
  rw [dbAddParsedData_eq hu h₀ (by decide) hname] at h
  obtain ⟨t, ht, heq⟩ := map_eq_ok.mp h
  obtain ⟨rfl, -⟩ := Prod.mk.inj heq
  exact ht

/-- **A load stays within the arrays exactly when** the name of the key column fits its array, and no
listed member of a set that is created is past the words of the set. -/
theorem exists_load_iff (mem : Memory) (hshaped : Shaped u) (hnames : ∀ set ∈ u.sets, set.name ≠ [])
    (h₀ : mainDatabase u = .ok db₀) : (∃ s ret, dbAddParsedData mem db₀ u = .ok (s, ret)) ↔
      u.keyName.length < dbMaxStringLength ∧ (u.sets.length ≤ 1000 → MembersInWords u) := by
  constructor
  · rintro ⟨s, ret, hload⟩
    obtain ⟨hrun, -, -, hname⟩ := run_of_load hshaped h₀ (by decide) hload
    exact ⟨hname, fun hsets => membersInWords_of_run h₀ hsets hnames hrun⟩
  · rintro ⟨hname, hmembers⟩
    have hwords : InWords _ (loadOps mem u 1000 100) := inWords_of_members h₀ hmembers
    obtain ⟨s, hs, -⟩ := exists_loadOps h₀ hwords
    refine ⟨s, loadReturn u 1000 100, ?_⟩
    rw [dbAddParsedData_eq hshaped h₀ (by decide) hname, hs]
    rfl

end Tables

/-! ## Every attribute is loaded -/

/-- Every declared attribute has a table of its type, which is one that is stored. -/
def Usable (u : Universe) (db : Database) : Prop :=
  ∀ j < u.attributeDataNames.length, ∃ attr, db.table (u.attrName j) = some attr ∧
    attr.type = storedType (u.typeName j) ∧ attr.type ≠ .undefined

section Usable

variable {mem : Memory} {u : Universe} {file : Bytes} {p : Progress} {db₀ : Database}

theorem attributeReturn_eq_zero_iff_types (hu : u.attributeDataTypeNames.length =
    u.attributeDataNames.length) : attributeReturn u u.attributeDataNames.length 0 = 0 ↔
      ∀ t ∈ u.attributeDataTypeNames, t = lit "STRING" ∨ t = lit "INTEGER" := by
  rw [attributeReturn_eq_zero_iff]
  constructor
  · intro h t ht
    obtain ⟨j, hj, rfl⟩ := List.getElem_of_mem ht
    have := h j (Nat.zero_le _) (by omega)
    rwa [storedType_ne_undefined, Universe.typeName_eq hj] at this
  · intro h j _ hj
    have hj : j < u.attributeDataTypeNames.length := by omega
    rw [storedType_ne_undefined, Universe.typeName_eq hj]
    exact h _ (List.getElem_mem hj)

/-- **A load whose attributes are all stored gives each of them a table of its type exactly when
declarations of one name have one type.** -/
theorem usable_run_iff {db : Database} (h₀ : mainDatabase u = .ok db₀)
    (hsets : u.sets.length ≤ 1000) (hattributes : u.attributeDataNames.length ≤ 99)
    (hstored : ∀ j < u.attributeDataNames.length, storedType (u.typeName j) ≠ .undefined)
    (h : run (db₀.withKeyColumn u.keyName) (loadOps mem u 1000 100) = .ok db) :
    Usable u db ↔ SameTypes u := by
  have hops : loadOps mem u 1000 100 = loadOps mem u 1000 100 ++ [] := (List.append_nil _).symm
  rw [sameTypes_iff mem hsets hattributes]
  constructor
  · intro husable j t hj ht
    obtain ⟨attr, hattr, htype, -⟩ := husable j hj.1
    obtain rfl := Option.some.inj (ht.symm.trans (shapeOf_of_table h₀ hops h hattr))
    exact htype
  · intro hsame j hj
    have hprocessed : u.Processed j := ⟨hj, fun l hl => hstored l (by omega)⟩
    obtain ⟨post, hsplit⟩ := hprocessed.loadOps_split mem hsets hattributes
    obtain ⟨attr, hattr⟩ := exists_table_of_createOp (j := j) h₀ hops h (by simp [hsplit])
    have htype : attr.type = _ := hsame j _ hprocessed (shapeOf_of_table h₀ hops h hattr)
    exact ⟨attr, hattr, htype, htype ▸ hstored j hj⟩

/-- **The loader stores what the parser accepts**, when the name of the key column fits into its
array, the types are written in capital letters and none of them is `FLOAT`, declarations of one name
have one type, and no listed member of a set is past the words of the set; and only then. -/
theorem usable_iff (mem : Memory)
    (h : parseInitialization createEmptyUniverse file = .ok (p, none))
    (hsets : p.u.sets.length ≤ 1000) (hattributes : p.u.attributeDataNames.length ≤ 99)
    (h₀ : mainDatabase p.u = .ok db₀) :
    (∃ s, dbAddParsedData mem db₀ p.u = .ok (s, 0) ∧ Usable p.u s.db) ↔
      (p.u.keyName.length < dbMaxStringLength ∧ MembersInWords p.u) ∧
        (∀ t ∈ p.u.attributeDataTypeNames, t = lit "STRING" ∨ t = lit "INTEGER") ∧
        SameTypes p.u := by
  obtain ⟨hshaped, hnames⟩ := shaped_of_parse h
  have hload := exists_load_iff mem hshaped hnames h₀
  rw [forall_prop_of_true hsets] at hload
  rw [← hload, ← attributeReturn_eq_zero_iff_types hshaped.types]
  have hreturn : loadReturn p.u 1000 100 =
      attributeReturn p.u p.u.attributeDataNames.length 0 := by
    rw [loadReturn, if_neg (by omega), if_neg (by omega)]
  have hstored : attributeReturn p.u p.u.attributeDataNames.length 0 = 0 →
      ∀ j < p.u.attributeDataNames.length, storedType (p.u.typeName j) ≠ .undefined :=
    fun hzero j hj => attributeReturn_eq_zero_iff.mp hzero j (Nat.zero_le _) (by omega)
  constructor
  · rintro ⟨s, hload, husable⟩
    obtain ⟨hrun, -, hret, -⟩ := run_of_load hshaped h₀ (by decide) hload
    have hzero := (hret.trans hreturn).symm
    exact ⟨⟨s, 0, hload⟩, hzero,
      (usable_run_iff h₀ hsets hattributes (hstored hzero) hrun).mp husable⟩
  · rintro ⟨⟨s, ret, hload⟩, hzero, hsame⟩
    obtain ⟨hrun, -, hret, -⟩ := run_of_load hshaped h₀ (by decide) hload
    obtain rfl : ret = 0 := (hret.trans hreturn).trans hzero
    exact ⟨s, hload, (usable_run_iff h₀ hsets hattributes (hstored hzero) hrun).mpr hsame⟩

theorem membersInWords_animal : MembersInWords animalSetUniverse := by
  unfold MembersInWords
  decide

theorem sameTypes_animal : SameTypes animalSetUniverse := by
  rintro j ⟨hj, -⟩
  obtain rfl := Nat.lt_one_iff.mp hj
  exact ⟨fun hname => absurd hname (by decide), fun l hl => absurd hl (Nat.not_lt_zero l)⟩

theorem usable_iff_animal : ∃ p db₀,
    parseInitialization createEmptyUniverse animalFile = .ok (p, none) ∧
      mainDatabase p.u = .ok db₀ ∧
      ∃ s, dbAddParsedData Memory.zeros db₀ p.u = .ok (s, 0) ∧ Usable p.u s.db := by
  obtain ⟨p, h, hu⟩ := exists_parse parse_animalFile_eq
  obtain ⟨db₀, h₀⟩ := exists_mainDatabase (u := p.u) (by rw [hu]; decide)
  refine ⟨p, db₀, h, h₀, (usable_iff Memory.zeros h ?_ ?_ h₀).mpr ?_⟩ <;> rw [hu]
  · decide
  · decide
  · exact ⟨⟨by decide, membersInWords_animal⟩, by decide, sameTypes_animal⟩

/-- A file whose attribute has its type in small letters. -/
def smallFile : Bytes :=
  lit "CREATE UNIVERSE A(n STRING);CREATE ATTRIBUTES A(c string);INSERT \x7b\"x\":\"y\"\x7d INTO A"

/-- The universe of the file. -/
def smallUniverse : Universe where
  name := lit "A"
  keyDataTypeNames := [lit "STRING"]
  keyDataNames := [lit "n"]
  attributeDataTypeNames := [lit "string"]
  attributeDataNames := [lit "c"]
  keyValues := [some [lit "x"]]
  attributeValues := [some [lit "y"]]
  sets := []

theorem parse_smallFile : (fun r => (r.1.u, r.2)) <$>
    parseInitialization createEmptyUniverse smallFile = .ok (smallUniverse, none) := by
  rw [parseInitialization, initializeParserRegex_eq]
  decide +kernel

/-- A type in small letters is accepted, and not stored. -/
theorem not_usable_small : ¬ ∀ file p mem db₀,
    parseInitialization createEmptyUniverse file = .ok (p, none) → p.u.sets.length ≤ 1000 →
      p.u.attributeDataNames.length ≤ 99 → mainDatabase p.u = .ok db₀ →
        ∃ s, dbAddParsedData mem db₀ p.u = .ok (s, 0) ∧ Usable p.u s.db := by
  intro husable
  obtain ⟨p, h, hu⟩ := exists_parse parse_smallFile
  obtain ⟨db₀, h₀⟩ := exists_mainDatabase (u := p.u) (by rw [hu]; decide)
  obtain ⟨s, hload, -⟩ :=
    husable _ p Memory.zeros db₀ h (by rw [hu]; decide) (by rw [hu]; decide) h₀
  obtain ⟨-, -, hret, -⟩ := run_of_load (shaped_of_parse h).1 h₀ (by decide) hload
  rw [hu] at hret
  exact absurd hret (by decide)

end Usable

/-! ## Values are written to tables of their kind -/

/-- The type of the tables that a value is meant for. -/
def Payload.kind : Payload → AttrType
  | text .. => .string
  | int64 .. => .type64

/-- Every value is written to a table that was created for values of its kind. -/
def TypedWrites (calls : List (Database × Op)) : Prop :=
  ∀ d name key data attr, (d, .setAttribute name key data) ∈ calls → d.table name = some attr →
    attr.type = data.kind

/-- The load comes to values of attributes: there are rows, and room for the sets and attributes. -/
structure ReachesValues (u : Universe) : Prop where
  rows_pos : 0 < u.rows
  sets_le : u.sets.length ≤ 1000
  attributes_le : u.attributeDataNames.length ≤ 99

section Writes

variable {mem : Memory} {u : Universe} {file : Bytes} {p : Progress} {db₀ : Database} {j r : ℕ}

theorem kind_payload (h : storedType (u.typeName j) ≠ .undefined) :
    (payload mem u j r).kind = storedType (u.typeName j) := by
  rcases storedType_ne_undefined.mp h with h | h <;> rw [payload, h] <;> rfl

/-- The values that a load writes go to tables of their kind exactly when those of the attributes are
not reached, or declarations of one name have one type. -/
theorem typedWrites_calls_iff {s : Load} {ret : ℕ} (hshaped : Shaped u)
    (h₀ : mainDatabase u = .ok db₀) (hload : dbAddParsedData mem db₀ u = .ok (s, ret)) :
    TypedWrites s.calls ↔ (ReachesValues u → SameTypes u) := by
  have hexec := exec_of_load hshaped h₀ hload
  have hrun := (exec_eq_ok hexec).1
  constructor
  · intro htyped hreach
    rw [sameTypes_iff mem hreach.sets_le hreach.attributes_le]
    intro j t hj ht
    obtain ⟨post, hops⟩ := hj.loadOps_split mem hreach.sets_le hreach.attributes_le
    obtain ⟨d, hpre, -⟩ := foldlM_append_eq_ok.mp (hops ▸ hrun)
    obtain ⟨attr, hattr⟩ := exists_table_of_createOp (j := j) h₀ hops hpre (by simp)
    have hvalues : valueOps mem u j = .setAttribute (u.attrName j) (u.key 0)
        (payload mem u j 0) :: (valueOps mem u j).tail := by
      obtain ⟨n, hn⟩ := Nat.exists_eq_succ_of_ne_zero hreach.rows_pos.ne'
      rw [valueOps, hn, List.range_succ_eq_map]
      rfl
    rw [hvalues] at hops
    have hcall := (mem_calls_exec rfl hexec).mpr ⟨_, _, hops, hpre⟩
    have hkind : attr.type = _ := htyped _ _ _ _ attr hcall hattr
    have hshape := shapeOf_of_table h₀ hops hpre hattr
    obtain rfl := Option.some.inj (ht.symm.trans hshape)
    rwa [kind_payload (hj.2 j le_rfl)] at hkind
  · intro hsame d name key data attr hcall hattr
    obtain ⟨pre, post, hops, hpre⟩ := (mem_calls_exec rfl hexec).mp hcall
    have hshape := shapeOf_of_table h₀ hops hpre hattr
    have hmem : .setAttribute name key data ∈ loadOps mem u 1000 100 := by simp [hops]
    rcases setAttribute_mem_loadOps hmem with ⟨rfl, m, rfl⟩ |
      ⟨hsets, hattributes, j, r, hj, hr, rfl, rfl⟩
    · rw [shapeOf_keyName, Option.some.injEq] at hshape
      exact (Shape.mk.inj hshape).1.symm
    · have hreach : ReachesValues u := ⟨Nat.zero_lt_of_lt hr, hsets, hattributes⟩
      rw [kind_payload (hj.2 j le_rfl)]
      exact (sameTypes_iff mem hsets hattributes).mp (hsame hreach) j _ hj hshape

/-- **Every value is written to a table of its kind, and the load stays within the arrays**, exactly
when the name of the key column fits its array, no listed member of a set is past the words of the
set, and declarations of one name have one type where values of attributes are written. -/
theorem typedWrites_iff (mem : Memory)
    (h : parseInitialization createEmptyUniverse file = .ok (p, none))
    (h₀ : mainDatabase p.u = .ok db₀) :
    (∃ s ret, dbAddParsedData mem db₀ p.u = .ok (s, ret) ∧ TypedWrites s.calls) ↔
      (p.u.keyName.length < dbMaxStringLength ∧
        (p.u.sets.length ≤ 1000 → MembersInWords p.u)) ∧
        (ReachesValues p.u → SameTypes p.u) := by
  obtain ⟨hshaped, hnames⟩ := shaped_of_parse h
  rw [← exists_load_iff mem hshaped hnames h₀]
  constructor
  · rintro ⟨s, ret, hload, htyped⟩
    exact ⟨⟨s, ret, hload⟩, (typedWrites_calls_iff hshaped h₀ hload).mp htyped⟩
  · rintro ⟨⟨s, ret, hload⟩, hsame⟩
    exact ⟨s, ret, hload, (typedWrites_calls_iff hshaped h₀ hload).mpr hsame⟩

theorem typedWrites_iff_animal : ∃ p db₀,
    parseInitialization createEmptyUniverse animalFile = .ok (p, none) ∧
      mainDatabase p.u = .ok db₀ ∧
      ∃ s ret, dbAddParsedData Memory.zeros db₀ p.u = .ok (s, ret) ∧ TypedWrites s.calls := by
  obtain ⟨p, h, hu⟩ := exists_parse parse_animalFile_eq
  obtain ⟨db₀, h₀⟩ := exists_mainDatabase (u := p.u) (by rw [hu]; decide)
  refine ⟨p, db₀, h, h₀, (typedWrites_iff Memory.zeros h h₀).mpr ?_⟩
  rw [hu]
  exact ⟨⟨by decide, fun _ => membersInWords_animal⟩, fun _ => sameTypes_animal⟩

/-- A file that declares an attribute twice, first of integers and then of strings. -/
def twiceFile : Bytes :=
  lit "CREATE UNIVERSE A(n STRING);CREATE ATTRIBUTES A(m INTEGER,m STRING);INSERT \x7b\"x\":(2,\"y\")\x7d INTO A"

/-- The universe of the file. -/
def twiceUniverse : Universe where
  name := lit "A"
  keyDataTypeNames := [lit "STRING"]
  keyDataNames := [lit "n"]
  attributeDataTypeNames := [lit "INTEGER", lit "STRING"]
  attributeDataNames := [lit "m", lit "m"]
  keyValues := [some [lit "x"]]
  attributeValues := [some [lit "2", lit "y"]]
  sets := []

theorem parse_twiceFile : (fun r => (r.1.u, r.2)) <$>
    parseInitialization createEmptyUniverse twiceFile = .ok (twiceUniverse, none) := by
  rw [parseInitialization, initializeParserRegex_eq]
  decide +kernel

/-- The string of an attribute that is declared twice is written to a table of integers. -/
theorem not_typedWrites_twice : ¬ ∀ file p mem db₀,
    parseInitialization createEmptyUniverse file = .ok (p, none) → mainDatabase p.u = .ok db₀ →
      ∀ s ret, dbAddParsedData mem db₀ p.u = .ok (s, ret) → TypedWrites s.calls := by
  intro htyped
  obtain ⟨p, h, hu⟩ := exists_parse parse_twiceFile
  obtain ⟨db₀, h₀⟩ := exists_mainDatabase (u := p.u) (by rw [hu]; decide)
  obtain ⟨hshaped, hnames⟩ := shaped_of_parse h
  obtain ⟨s, ret, hload⟩ := (exists_load_iff Memory.zeros hshaped hnames h₀).mpr (by
    rw [hu]
    exact ⟨by decide, fun _ set hset => absurd hset List.not_mem_nil⟩)
  have hsame := (typedWrites_calls_iff hshaped h₀ hload).mp (htyped _ p _ db₀ h h₀ s ret hload) (by
    rw [hu]
    exact ⟨by decide, by decide, by decide⟩)
  rw [hu] at hsame
  have hprocessed : twiceUniverse.Processed 1 := by
    refine ⟨by decide, fun l hl => ?_⟩
    match l, hl with
    | 0, _ | 1, _ => decide
  exact absurd ((hsame 1 hprocessed).2 0 one_pos rfl) (by decide)

end Writes

end SetQL
