import SetQL.Base.Distinct
import SetQL.Server.Client
import SetQL.Translation.KeyOrder

/-!
# What a query means over a universe

The answer to a query, with no database: the different keys of the rows are read in the order in
which they come first, those in the denoted set are selected, and each column has the value of the
last row of every selected key. A loaded database holds the keys in this order, and for every column
the values of the last rows.

## Main definitions

* `Universe.distinctKeys`, `Universe.selected e`: the keys, and those that an expression selects
* `Universe.cell n k`: the text of a column at a key
* `Universe.columnOf keys n`, `Universe.answer ns e`: a column of an answer, and the answer
* `LoadedFrom mem u db`: `main` has loaded the universe into the database

## Main results

* `mem_selected_iff`: the selected keys are those in the denoted set
* `LoadedFrom.stSearch_eq_some_iff`: a loaded database numbers the keys in this order
* `LoadedFrom.selected_eq`: the selected keys are those at whose index the expression reads true
* `LoadedFrom.exists_textColumn`, `LoadedFrom.exists_integerColumn`: the columns of a loaded database
-/

namespace SetQL

/-! ## Values -/

/-- The integer that a decimal text stands for. -/
def decimalValue (s : Bytes) : ℤ :=
  if s.head? = some 45 then -digitsValue s.tail else digitsValue s

/-- The bytes are a string in UTF-8. -/
def IsUtf8 (s : Bytes) : Prop := (String.fromUTF8? s.toByteArray).isSome

/-- The string that bytes in UTF-8 stand for. -/
def ofUtf8 (s : Bytes) : String := (String.fromUTF8? s.toByteArray).getD ""

theorem Decimal.decimalValue_eq {s : Bytes} {z : ℤ} (h : Decimal s z) : decimalValue s = z := by
  obtain ⟨ds, hne, hds, ⟨rfl, rfl⟩ | ⟨rfl, rfl⟩⟩ := h
  · obtain ⟨c, s, rfl⟩ := List.exists_cons_of_ne_nil hne
    have hminus := (not_isspace_of_isdigit (hds c List.mem_cons_self)).2.1
    exact if_neg fun h => hminus (Option.some.inj h)
  · rfl

/-! ## Answers -/

namespace Universe

/-- The different keys, in the order of their first rows. -/
def distinctKeys (u : Universe) : List Bytes := u.keys.eraseDups

/-- A key is listed in a set. -/
def lists (u : Universe) (s k : Bytes) : Bool :=
  u.sets.any fun set => decide (set.name = s) && set.members.any fun m => decide (m = k)

theorem lists_iff {u : Universe} {s k : Bytes} :
    u.lists s k = true ↔ ∃ set ∈ u.sets, set.name = s ∧ k ∈ set.members := by
  simp [lists]

/-- The keys that an expression selects. -/
def selected (u : Universe) (e : SetExpr Bytes) : List Bytes :=
  u.distinctKeys.filter fun k => e.evalBool (u.lists · k)

/-- The last row of a key. -/
def lastRow (u : Universe) (k : Bytes) : ℕ :=
  Nat.findGreatest (fun r => r < u.rows ∧ u.key r = k) u.rows

/-- The names of the columns that queries can ask for. -/
def columnNames (u : Universe) : List Bytes := u.keyName :: u.attributeDataNames

/-- The attribute of a name. -/
def attrIndex (u : Universe) (n : Bytes) : ℕ := u.attributeDataNames.idxOf n

/-- A column of strings: the key column, or an attribute of this type. -/
def IsText (u : Universe) (n : Bytes) : Prop :=
  n = u.keyName ∨ u.typeName (u.attrIndex n) = lit "STRING"

instance (u : Universe) (n : Bytes) : Decidable (u.IsText n) := inferInstanceAs (Decidable (_ ∨ _))

/-- The text of a column at a key: the key itself, or the value of its last row. -/
def cell (u : Universe) (n k : Bytes) : Bytes :=
  if n = u.keyName then k else u.value (u.attrIndex n) (u.lastRow k)

/-- A column of an answer. -/
def columnOf (u : Universe) (keys : List Bytes) (n : Bytes) : Column :=
  if u.IsText n then .strings (keys.map fun k => ofUtf8 (u.cell n k))
  else .integers (keys.map fun k => decimalValue (u.cell n k))

/-- The answer to a query. -/
def answer (u : Universe) (ns : List Bytes) (e : SetExpr Bytes) : List Column :=
  ns.map (u.columnOf (u.selected e))

end Universe

section Answer

variable {u : Universe} {e : SetExpr Bytes} {k n : Bytes} {i : ℕ}

theorem mem_keys_iff : k ∈ u.keys ↔ ∃ r < u.rows, u.key r = k := by
  simp [Universe.keys]

theorem mem_distinctKeys_iff : k ∈ u.distinctKeys ↔ k ∈ u.keys := List.mem_eraseDups

/-- **The selected keys are those in the denoted set.** -/
theorem mem_selected_iff : k ∈ u.selected e ↔
    k ∈ e.denote {k | k ∈ u.keys} fun s => {k | k ∈ u.keys ∧ u.lists s k = true} := by
  rw [Universe.selected, List.mem_filter, mem_distinctKeys_iff]
  have hpoint : k ∈ u.keys → (k ∈ e.denote {k | k ∈ u.keys} (fun s => {k | k ∈ u.keys ∧
      u.lists s k = true}) ↔ e.evalBool (u.lists · k) = true) := fun hk =>
    SetExpr.mem_denote_iff (show k ∈ {k | k ∈ u.keys} from hk) e fun s _ => (and_iff_right hk).symm
  constructor
  · rintro ⟨hk, heval⟩
    exact (hpoint hk).mpr heval
  · intro hmem
    have hk : k ∈ u.keys :=
      SetExpr.denote_subset (U := {k | k ∈ u.keys}) (fun s => fun _ hk => hk.1) e hmem
    exact ⟨hk, (hpoint hk).mp hmem⟩

theorem lastRow_spec (hk : k ∈ u.keys) : u.LastRow k (u.lastRow k) := by
  obtain ⟨r, hr, hkey⟩ := mem_keys_iff.mp hk
  obtain ⟨hlt, hlast⟩ :=
    Nat.findGreatest_spec (P := fun r => r < u.rows ∧ u.key r = k) hr.le ⟨hr, hkey⟩
  refine ⟨hlt, hlast, fun r' hr' hgt hkey' => ?_⟩
  exact Nat.findGreatest_is_greatest hgt hr'.le ⟨hr', hkey'⟩

end Answer

/-! ## The loaded database -/

/-- `main` has loaded the universe into the database. -/
structure LoadedFrom (mem : Memory) (u : Universe) (db : Database) : Prop where
  loadable : Loadable u
  safe : Safe db
  run : ∃ db₀, mainDatabase u = .ok db₀ ∧
    run (db₀.withKeyColumn u.keyName) (loadOps mem u 1000 100) = .ok db

section Loaded

variable {mem : Memory} {u : Universe} {db : Database} {e : SetExpr Bytes} {k n : Bytes} {i : ℕ}

theorem exists_loadedFrom (mem : Memory) (hu : Loadable u) : ∃ db₀ s, mainDatabase u = .ok db₀ ∧
    dbAddParsedData mem db₀ u = .ok (s, 0) ∧ LoadedFrom mem u s.db := by
  obtain ⟨db₀, s, h₀, hload, hrun, hsafe⟩ := hu.exists_load mem
  exact ⟨db₀, s, h₀, hload, hu, hsafe, db₀, h₀, hrun⟩

/-- The keys are numbered in the order of the rows. -/
theorem LoadedFrom.keyOrder (h : LoadedFrom mem u db) : KeyOrder db u.keys := by
  obtain ⟨db₀, h₀, hrun⟩ := h.run
  have horder := keyOrder_load h₀ (List.append_nil _).symm hrun
  rwa [addedKeys_loadOps] at horder

theorem LoadedFrom.key_ne_nil (h : LoadedFrom mem u db) (hk : k ∈ u.keys) : k ≠ [] := by
  obtain ⟨r, hr, rfl⟩ := mem_keys_iff.mp hk
  exact (h.loadable.key r hr).1

/-- **A loaded database numbers the keys in the order of their first rows.** -/
theorem LoadedFrom.stSearch_eq_some_iff (h : LoadedFrom mem u db) :
    stSearch db.keyTable k = some ⟨i, k⟩ ↔ u.distinctKeys[i]? = some k := by
  have hnumber : numberBefore u.keys k = ((u.keys.takeWhile (· ≠ k)).toFinset).card := by
    rw [numberBefore, Finset.erase_eq_of_notMem]
    exact fun hmem => h.key_ne_nil ((List.takeWhile_subset _) (List.mem_toFinset.mp hmem)) rfl
  rw [h.keyOrder.index, Universe.distinctKeys, getElem?_eraseDups_iff, hnumber, TableData.mk.injEq]
  constructor
  · rintro ⟨⟨hk, -⟩, hi, -⟩
    exact ⟨hk, hi⟩
  · rintro ⟨hk, hi⟩
    exact ⟨⟨hk, h.key_ne_nil hk⟩, hi, rfl⟩

theorem LoadedFrom.keyCount_eq (h : LoadedFrom mem u db) : db.keyCount = u.distinctKeys.length := by
  rw [h.keyOrder.count, Universe.distinctKeys, length_eraseDups, Finset.erase_eq_of_notMem]
  exact fun hmem => h.key_ne_nil (List.mem_toFinset.mp hmem) rfl

/-- There is room for a key in each row. -/
theorem LoadedFrom.keyCount_le (h : LoadedFrom mem u db) : db.keyCount ≤ u.rows := by
  obtain ⟨db₀, h₀, hrun⟩ := h.run
  have hcap := h.safe.keyCount_le
  rw [(capacities_run hrun).maxKeyCount] at hcap
  obtain ⟨_, _, _, -, -, -, rfl⟩ := createEmptyDB_eq_ok h₀
  exact hcap

/-- The bits of a key in the sets are read off the lists. -/
theorem LoadedFrom.inSet_iff (h : LoadedFrom mem u db) (hi : u.distinctKeys[i]? = some k) {s : Bytes}
    (hs : ∃ set ∈ u.sets, set.name = s) : db.inSet s i = u.lists s k := by
  obtain ⟨set, hset, rfl⟩ := hs
  obtain ⟨db₀, h₀, hrun⟩ := h.run
  have hd := h.stSearch_eq_some_iff.mpr hi
  have hk : ∃ r < u.rows, u.key r = k :=
    mem_keys_iff.mp (mem_distinctKeys_iff.mp (List.mem_of_getElem? hi))
  rw [Bool.eq_iff_iff, (refines_loadOps h₀ hrun h.safe.keyCount_le).members set.name k _ hd,
    mem_run_iff, h.loadable.lastAdded_iff hset hk, Universe.lists_iff]
  constructor
  · intro hmem
    exact ⟨set, hset, rfl, hmem⟩
  · rintro ⟨set', hset', hname, hmem⟩
    rwa [← List.inj_on_of_nodup_map h.loadable.setNames hset' hset hname]

/-- **The selected keys are those at whose index the expression reads true.** -/
theorem LoadedFrom.selected_eq (h : LoadedFrom mem u db)
    (hsets : ∀ s ∈ e.leaves, ∃ set ∈ u.sets, set.name = s) :
    u.selected e = ((List.range u.distinctKeys.length).filter (db.evalAt e)).map
      fun i => u.distinctKeys[i]?.getD [] := by
  have hkeys : u.distinctKeys =
      (List.range u.distinctKeys.length).map fun i => u.distinctKeys[i]?.getD [] := by
    refine List.ext_getElem (by simp) fun i hi hi' => ?_
    simp [hi]
  have hselected : u.selected e = ((List.range u.distinctKeys.length).filter
      ((fun k => e.evalBool (u.lists · k)) ∘ fun i => u.distinctKeys[i]?.getD [])).map
        fun i => u.distinctKeys[i]?.getD [] := by
    rw [← List.filter_map, ← hkeys, Universe.selected]
  rw [hselected]
  refine congrArg (List.map _) (List.filter_congr fun i hi => ?_)
  have hget := List.getElem?_eq_getElem (List.mem_range.mp hi)
  rw [Function.comp_apply, hget, Option.getD_some, Database.evalAt]
  exact SetExpr.evalBool_congr e fun s hs => (h.inSet_iff hget (hsets s hs)).symm

/-! ## Its columns -/

theorem Loadable.exists_key (hu : Loadable u) : ∃ k, k ∈ u.keys :=
  ⟨u.key 0, mem_keys_iff.mpr ⟨0, hu.rows_pos, rfl⟩⟩

/-- A column found at every key is one column. -/
theorem Loadable.exists_column (hu : Loadable u) {t : Shape} {P : Bytes → Prop}
    (h : ∀ k ∈ u.keys, ∃ attr, db.table n = some attr ∧ attr.shape = t ∧ P k) :
    ∃ attr, db.table n = some attr ∧ attr.shape = t ∧ ∀ k ∈ u.keys, P k := by
  obtain ⟨k₀, hk₀⟩ := hu.exists_key
  obtain ⟨attr, hattr, hshape, -⟩ := h k₀ hk₀
  refine ⟨attr, hattr, hshape, fun k hk => ?_⟩
  obtain ⟨-, -, -, hP⟩ := h k hk
  exact hP

theorem attrIndex_lt (hn : n ∈ u.attributeDataNames) :
    u.attrIndex n < u.attributeDataNames.length := List.idxOf_lt_length_of_mem hn

theorem attrName_attrIndex (hn : n ∈ u.attributeDataNames) : u.attrName (u.attrIndex n) = n := by
  rw [Universe.attrName, List.getD_eq_getElem?_getD, List.getElem?_eq_getElem (attrIndex_lt hn)]
  exact List.getElem_idxOf (attrIndex_lt hn)

theorem Loadable.ne_keyName (hu : Loadable u) (hn : n ∈ u.attributeDataNames) : n ≠ u.keyName := by
  rintro rfl
  exact (List.nodup_cons.mp hu.names).1 hn

theorem Loadable.cell_eq (hu : Loadable u) (hn : n ∈ u.attributeDataNames) :
    u.cell n k = u.value (u.attrIndex n) (u.lastRow k) := if_neg (hu.ne_keyName hn)

/-- **A column of strings holds the texts of its cells.** -/
theorem LoadedFrom.exists_textColumn (h : LoadedFrom mem u db) (hn : n ∈ u.columnNames) (htext : u.IsText n) :
    ∃ attr, db.table n = some attr ∧ attr.shape = newShape .string dbMaxStringLength ∧
      ∀ k ∈ u.keys, ∃ b, db.stored n k = some b ∧ cstr b = u.cell n k := by
  obtain ⟨db₀, h₀, hrun⟩ := h.run
  have hu := h.loadable
  have hcap := h.safe.keyCount_le
  refine hu.exists_column fun k hk => ?_
  rcases List.mem_cons.mp hn with rfl | hattr
  · obtain ⟨r, hr, rfl⟩ := mem_keys_iff.mp hk
    obtain ⟨attr, m, htable, hshape, hstored⟩ := hu.stored_key h₀ hrun hcap ⟨r, hr, rfl⟩
    obtain ⟨-, hnul, hlen⟩ := hu.key r hr
    refine ⟨attr, htable, hshape, _, hstored, ?_⟩
    rw [cstr_stored_text hnul hlen hshape, Universe.cell, if_pos rfl]
  · have hi := attrIndex_lt hattr
    have htype : u.typeName (u.attrIndex n) = lit "STRING" := htext.resolve_left (hu.ne_keyName hattr)
    have hstring : storedType (u.typeName (u.attrIndex n)) = .string := if_pos htype
    have hlast := lastRow_spec hk
    obtain ⟨hwritten, hshape⟩ := hu.lastWritten_value mem hi hlast
    rw [payload, if_pos hstring, attrName_attrIndex hattr] at hwritten
    rw [hstring, attrName_attrIndex hattr] at hshape
    obtain ⟨attr, htable, hattrShape, hstored⟩ :=
      stored_of_lastWritten (represents_loadOps h₀ hrun hcap) hwritten hshape
    obtain ⟨hnul, hlen⟩ := hu.strings _ hi htype _ hlast.1
    refine ⟨attr, htable, hattrShape, _, hstored, ?_⟩
    rw [cstr_stored_text hnul hlen hattrShape, hu.cell_eq hattr]

/-- **A column of integers holds the values of its cells.** -/
theorem LoadedFrom.exists_integerColumn (h : LoadedFrom mem u db) (hn : n ∈ u.columnNames) (htext : ¬ u.IsText n) :
    ∃ attr, db.table n = some attr ∧ attr.shape = newShape .type64 dbMaxStringLength ∧
      ∀ k ∈ u.keys, ∃ z, decimalValue (u.cell n k) = z ∧ (-2 ^ 63 ≤ z ∧ z < 2 ^ 63) ∧
        db.stored n k = some (leBytes 8 (BitVec.ofInt 64 z).toNat) := by
  obtain ⟨db₀, h₀, hrun⟩ := h.run
  have hu := h.loadable
  have hcap := h.safe.keyCount_le
  refine hu.exists_column fun k hk => ?_
  rw [Universe.IsText, not_or] at htext
  have hattr : n ∈ u.attributeDataNames := (List.mem_cons.mp hn).resolve_left htext.1
  have hi := attrIndex_lt hattr
  have htype : u.typeName (u.attrIndex n) = lit "INTEGER" := (hu.types _ hi).resolve_left htext.2
  have hstored64 : storedType (u.typeName (u.attrIndex n)) = .type64 := by
    rw [htype]
    decide
  have hlast := lastRow_spec hk
  obtain ⟨hwritten, hshape⟩ := hu.lastWritten_value mem hi hlast
  rw [payload, hstored64, if_neg (by decide), integerPayload, attrName_attrIndex hattr] at hwritten
  rw [hstored64, attrName_attrIndex hattr] at hshape
  obtain ⟨attr, htable, hattrShape, hstored⟩ :=
    stored_of_lastWritten (represents_loadOps h₀ hrun hcap) hwritten hshape
  have hwidth : attr.width = 8 := by
    rw [Attributes.width, (Shape.mk.inj hattrShape).1]
  obtain ⟨z, hz, hlo, hhi⟩ := hu.integers _ hi htype _ hlast.1
  rw [hwidth, bytes_int64, strtol_of_decimal hz hlo hhi] at hstored
  exact ⟨attr, htable, hattrShape, z, by rw [hu.cell_eq hattr, hz.decimalValue_eq], ⟨hlo, hhi⟩,
    hstored⟩

end Loaded

end SetQL
