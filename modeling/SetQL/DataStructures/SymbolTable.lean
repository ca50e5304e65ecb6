import SetQL.Base.Bytes
import Mathlib.Data.List.Nodup
import Mathlib.Data.List.ReduceOption

/-!
# The symbol table

`symboltable.c`: a fixed array of slots, each null or holding a name and its index. An insertion
scans the slots for the first null one and stops the process at an entry of the same name; a
search scans them for the name.

## Main definitions

* `SymbolTable`, `createTable`, `stInsert`, `stSearch`: the table and its operations
* `SymbolTable.entries`: the stored entries, in slot order
* `SymbolTable.WF`: the entries occupy the first `count` slots, under distinct names
* `SymbolTable.Dense`: the entry of slot `i` has index `i`

## Main results

* `stSearch_eq_some`: a search returns the entry of the name
* `stInsert_fresh`, `stInsert_full`, `stInsert_dup`: a new name is appended, or dropped by a full
  table; a stored name stops the process
* `stSearch_stInsert_of_ne`: other names are found as before
-/

namespace SetQL

/-- An entry of the table. -/
structure TableData where
  index : ℕ
  name : Bytes
  deriving DecidableEq, Repr

/-- The slots of a table, `none` for a null slot, and the number of entries. -/
structure SymbolTable where
  tableData : List (Option TableData)
  count : ℕ
  deriving DecidableEq, Repr

/-- The number of slots. -/
def SymbolTable.size (table : SymbolTable) : ℕ := table.tableData.length

/-- An empty table of `size` slots. -/
def createTable (size : ℕ) : SymbolTable := ⟨List.replicate size none, 0⟩

/-- The insertion loop, having passed the slots `before`. -/
def stInsertFrom (table : SymbolTable) (tableData : TableData) (before : List (Option TableData)) :
    List (Option TableData) → C SymbolTable
  | [] => .ok table
  | none :: slots =>
    if table.count = table.size then
      -- the new entry is freed, and `free_TableData` decrements the counter
      .ok { table with count := table.count - 1 }
    else .ok ⟨before ++ some tableData :: slots, table.count + 1⟩
  | some d :: slots =>
    if tableData.name = d.name then .error .exit
    else stInsertFrom table tableData (before ++ [some d]) slots

/-- Insertion into the first null slot. -/
def stInsert (table : SymbolTable) (name : Bytes) (index : ℕ) : C SymbolTable :=
  stInsertFrom table ⟨index, name⟩ [] table.tableData

/-- The first slot that holds `name`. -/
def stSearchFrom (name : Bytes) : List (Option TableData) → Option TableData
  | [] => none
  | none :: slots => stSearchFrom name slots
  | some d :: slots => if d.name = name then some d else stSearchFrom name slots

/-- Search by name; `none` for a null result. -/
def stSearch (table : SymbolTable) (name : Bytes) : Option TableData :=
  stSearchFrom name table.tableData

namespace SymbolTable

/-- The stored entries, in slot order. -/
def entries (table : SymbolTable) : List TableData := table.tableData.reduceOption

/-- The stored names, in slot order. -/
def names (table : SymbolTable) : List Bytes := table.entries.map TableData.name

/-- The entries occupy the first `count` slots, under distinct names. -/
structure WF (table : SymbolTable) : Prop where
  slots : table.tableData = table.entries.map some ++ List.replicate (table.size - table.count) none
  count_eq : table.entries.length = table.count
  nodup : table.names.Nodup

/-- The entry of slot `i` has index `i`. -/
def Dense (table : SymbolTable) : Prop :=
  ∀ (i : ℕ) (d : TableData), table.entries[i]? = some d → d.index = i

end SymbolTable

variable {table table' : SymbolTable} {name : Bytes} {index : ℕ} {d : TableData}

@[simp] theorem size_createTable (size : ℕ) : (createTable size).size = size := by
  simp [createTable, SymbolTable.size]

@[simp] theorem count_createTable (size : ℕ) : (createTable size).count = 0 := rfl

@[simp] theorem entries_createTable (size : ℕ) : (createTable size).entries = [] := by
  simp [createTable, SymbolTable.entries, List.reduceOption]

theorem wf_createTable (size : ℕ) : (createTable size).WF where
  slots := by
    rw [entries_createTable, size_createTable]
    simp [createTable]
  count_eq := by rw [entries_createTable]; rfl
  nodup := by simp [SymbolTable.names]

theorem dense_createTable (size : ℕ) : (createTable size).Dense := by
  intro i d h
  simp at h

/-! ## Search -/

theorem stSearch_eq_find? (table : SymbolTable) (name : Bytes) :
    stSearch table name = table.entries.find? (fun d => d.name = name) := by
  unfold stSearch SymbolTable.entries
  induction table.tableData with
  | nil => rfl
  | cons slot slots ih =>
    rcases slot with _ | d
    · simpa [stSearchFrom, List.reduceOption] using ih
    · by_cases h : d.name = name
      · simp [stSearchFrom, List.reduceOption_cons_of_some, h]
      · simp [stSearchFrom, List.reduceOption_cons_of_some, h, ih]

/-- A search returns null when the name is not stored. -/
theorem stSearch_eq_none : stSearch table name = none ↔ name ∉ table.names := by
  rw [stSearch_eq_find?, List.find?_eq_none]
  simp [SymbolTable.names]

@[simp] theorem stSearch_createTable (size : ℕ) (name : Bytes) :
    stSearch (createTable size) name = none :=
  stSearch_eq_none.mpr (by simp [SymbolTable.names])

theorem mem_names_of_stSearch (h : stSearch table name = some d) : d.name = name ∧ d ∈ table.entries := by
  rw [stSearch_eq_find?] at h
  exact ⟨by simpa using List.find?_some h, List.mem_of_find?_eq_some h⟩

/-- A search returns the entry of the name. -/
theorem stSearch_eq_some (hw : table.WF) :
    stSearch table name = some d ↔ d ∈ table.entries ∧ d.name = name := by
  constructor
  · intro h
    exact (mem_names_of_stSearch h).symm
  · rintro ⟨hd, rfl⟩
    cases h : stSearch table d.name with
    | none => exact absurd (List.mem_map_of_mem hd) (stSearch_eq_none.mp h)
    | some e =>
      obtain ⟨he, hmem⟩ := mem_names_of_stSearch h
      rw [List.inj_on_of_nodup_map hw.nodup hmem hd he]

/-- In a dense table the entry found is the one in the slot of its index. -/
theorem SymbolTable.Dense.getElem?_index (hdense : table.Dense) (h : d ∈ table.entries) :
    table.entries[d.index]? = some d := by
  obtain ⟨i, hi, rfl⟩ := List.getElem_of_mem h
  have := hdense i _ (List.getElem?_eq_getElem hi)
  rw [this]
  exact List.getElem?_eq_getElem hi

theorem SymbolTable.Dense.index_lt (hdense : table.Dense) (h : d ∈ table.entries) :
    d.index < table.entries.length :=
  (List.getElem?_eq_some_iff.mp (hdense.getElem?_index h)).1

/-- In a dense table an index belongs to one name. -/
theorem SymbolTable.Dense.eq_of_index (hdense : table.Dense) {e : TableData}
    (hd : d ∈ table.entries) (he : e ∈ table.entries) (h : d.index = e.index) : d = e := by
  have hd' := hdense.getElem?_index hd
  rw [h, hdense.getElem?_index he] at hd'
  exact (Option.some.inj hd').symm

/-! ## Insertion -/

section Insertion

variable {entries : List TableData}

/-- The loop passes the entries of other names. -/
theorem stInsertFrom_append (before : List (Option TableData)) (slots : List (Option TableData))
    (h : ∀ e ∈ entries, d.name ≠ e.name) :
    stInsertFrom table d before (entries.map some ++ slots) =
      stInsertFrom table d (before ++ entries.map some) slots := by
  induction entries generalizing before with
  | nil => simp
  | cons e entries ih =>
    rw [List.map_cons, List.cons_append, stInsertFrom, if_neg (h e List.mem_cons_self),
      ih _ fun e' he' => h e' (List.mem_cons_of_mem _ he')]
    simp

/-- The loop stops the process at an entry of the same name. -/
theorem stInsertFrom_dup (before : List (Option TableData)) (slots : List (Option TableData))
    (h : d.name ∈ entries.map TableData.name) :
    stInsertFrom table d before (entries.map some ++ slots) = .error .exit := by
  induction entries generalizing before with
  | nil => simp at h
  | cons e entries ih =>
    rw [List.map_cons, List.cons_append, stInsertFrom]
    split
    · rfl
    · rename_i hne
      apply ih _
      simpa [hne] using h

end Insertion

/-- A stored name stops the process. -/
theorem stInsert_dup (hw : table.WF) (h : name ∈ table.names) (index : ℕ) :
    stInsert table name index = .error .exit := by
  rw [stInsert, hw.slots]
  exact stInsertFrom_dup [] _ h

/-- A full table drops a new name. -/
theorem stInsert_full (hw : table.WF) (h : name ∉ table.names) (hfull : table.size ≤ table.count)
    (index : ℕ) : stInsert table name index = .ok table := by
  have hne : ∀ e ∈ table.entries, name ≠ e.name := fun e he heq =>
    h (heq ▸ List.mem_map_of_mem he)
  rw [stInsert, hw.slots, Nat.sub_eq_zero_of_le hfull, stInsertFrom_append _ _ hne]
  rfl

/-- The loop fills one null slot, or leaves the slots as they are. -/
theorem tableData_stInsertFrom {before slots : List (Option TableData)}
    (htable : table.tableData = before ++ slots)
    (h : stInsertFrom table d before slots = .ok table') :
    table'.tableData = table.tableData ∨ ∃ pre post,
      table.tableData = pre ++ none :: post ∧ table'.tableData = pre ++ some d :: post := by
  induction slots generalizing before with
  | nil =>
    obtain rfl := Except.ok.inj h
    exact Or.inl rfl
  | cons slot slots ih =>
    rcases slot with _ | e
    · rw [stInsertFrom] at h
      split_ifs at h
      · obtain rfl := Except.ok.inj h
        exact Or.inl rfl
      · obtain rfl := Except.ok.inj h
        exact Or.inr ⟨before, slots, htable, rfl⟩
    · rw [stInsertFrom] at h
      split_ifs at h
      exact ih (by simpa using htable) h

theorem stSearchFrom_append (name : Bytes) (pre post : List (Option TableData)) :
    stSearchFrom name (pre ++ post) = (stSearchFrom name pre).or (stSearchFrom name post) := by
  induction pre with
  | nil => rfl
  | cons slot pre ih =>
    rcases slot with _ | e
    · exact ih
    · by_cases he : e.name = name
      · simp [stSearchFrom, he]
      · simp [stSearchFrom, he, ih]

/-- **An insertion does not change the search for another name**, whatever the table. -/
theorem stSearch_stInsert_of_ne {other : Bytes} (h : stInsert table name index = .ok table')
    (hne : other ≠ name) : stSearch table' other = stSearch table other := by
  obtain hsame | ⟨pre, post, hbefore, hafter⟩ := tableData_stInsertFrom (List.nil_append _).symm h
  · rw [stSearch, hsame, stSearch]
  · rw [stSearch, stSearch, hbefore, hafter, stSearchFrom_append, stSearchFrom_append, stSearchFrom,
      stSearchFrom, if_neg hne.symm]

/-- The table with one more entry in its first null slot. -/
def SymbolTable.push (table : SymbolTable) (d : TableData) : SymbolTable :=
  ⟨(table.entries ++ [d]).map some ++ List.replicate (table.size - table.count - 1) none,
    table.count + 1⟩

/-- A new name is appended while there is room. -/
theorem stInsert_fresh (hw : table.WF) (h : name ∉ table.names) (hroom : table.count < table.size)
    (index : ℕ) : stInsert table name index = .ok (table.push ⟨index, name⟩) := by
  have hne : ∀ e ∈ table.entries, name ≠ e.name := fun e he heq =>
    h (heq ▸ List.mem_map_of_mem he)
  obtain ⟨k, hk⟩ : ∃ k, table.size - table.count = k + 1 := ⟨table.size - table.count - 1, by omega⟩
  rw [stInsert, hw.slots, hk, List.replicate_succ, stInsertFrom_append _ _ hne, stInsertFrom,
    if_neg hroom.ne]
  simp [SymbolTable.push, hk]

namespace SymbolTable

@[simp] theorem count_push : (table.push d).count = table.count + 1 := rfl

@[simp] theorem entries_push : (table.push d).entries = table.entries ++ [d] := by
  have hmap : ∀ l : List TableData, (l.map some).reduceOption = l := fun l => by
    simp [List.reduceOption]
  rw [entries, push, List.reduceOption_append, hmap]
  simp [List.reduceOption]

@[simp] theorem names_push : (table.push d).names = table.names ++ [d.name] := by
  simp [names]

theorem size_push (hw : table.WF) (hroom : table.count < table.size) :
    (table.push d).size = table.size := by
  have h := hw.count_eq
  simp only [size, push] at hroom ⊢
  simp only [List.map_append, List.map_cons, List.map_nil, List.length_append, List.length_map,
    List.length_singleton, List.length_replicate, h]
  omega

theorem WF.push (hw : table.WF) (h : d.name ∉ table.names) (hroom : table.count < table.size) :
    (table.push d).WF where
  slots := by
    rw [size_push hw hroom, entries_push, count_push, Nat.sub_add_eq]
    rfl
  count_eq := by
    rw [entries_push, count_push, List.length_append, hw.count_eq]
    rfl
  nodup := by
    rw [names_push]
    exact List.nodup_append.mpr ⟨hw.nodup, List.nodup_singleton _, fun a ha b hb => by
      rw [List.mem_singleton.mp hb]
      exact fun heq => h (heq ▸ ha)⟩

theorem Dense.push (hdense : table.Dense) (h : d.index = table.entries.length) :
    (table.push d).Dense := by
  intro i e he
  rw [entries_push] at he
  rcases Nat.lt_or_ge i table.entries.length with hi | hi
  · rw [List.getElem?_append_left hi] at he
    exact hdense i e he
  · rw [List.getElem?_append_right hi, List.getElem?_singleton] at he
    split at he
    · obtain rfl := Option.some.inj he
      omega
    · exact absurd he (by simp)

end SymbolTable

/-- A search after an insertion finds the new name, and every other name as before. -/
theorem stSearch_push (h : d.name ∉ table.names) (name : Bytes) :
    stSearch (table.push d) name = if d.name = name then some d else stSearch table name := by
  rw [stSearch_eq_find?, stSearch_eq_find?, SymbolTable.entries_push, List.find?_append]
  split
  · rename_i heq
    subst heq
    rw [← stSearch_eq_find?, stSearch_eq_none.mpr h]
    simp
  · rename_i hne
    simp [hne]

end SetQL
