import SetQL.DataStructures.SymbolTable
import SetQL.Spec.BoundedMap

/-!
# The symbol table as a bounded map

Runs of insertions and searches on a new table, compared with the same run on a bounded map in the
order of insertion.

## Main definitions

* `SymbolCall`, `runCalls`: the calls of the table and their runs
* `inserted`: the entries that a run inserts
* `SymbolTable.Models`: a table holds the entries of a bounded map

## Main results

* `Models.stInsert`, `Models.stSearch`: one call on the table is one operation of the map
* `runCalls_models`: a run on a table is the run on the map
* `symbolTable_run`: the table after a run from an empty table
-/

namespace SetQL

/-- A call of the symbol table. -/
inductive SymbolCall
  | insert (name : Bytes) (index : ℕ)
  | search (name : Bytes)
  deriving DecidableEq, Repr

/-- Calls in sequence, with the results of the searches. -/
def runCalls (table : SymbolTable) : List SymbolCall → C (SymbolTable × List (Option TableData))
  | [] => .ok (table, [])
  | .insert name index :: calls => do
    let table ← stInsert table name index
    runCalls table calls
  | .search name :: calls => do
    let (table', results) ← runCalls table calls
    .ok (table', stSearch table name :: results)

/-- The entries that a run inserts, in their order. -/
def inserted : List SymbolCall → List TableData
  | [] => []
  | .insert name index :: calls => ⟨index, name⟩ :: inserted calls
  | .search _ :: calls => inserted calls

/-- An entry as a key and its value. -/
def TableData.entry (d : TableData) : Bytes × ℕ := (d.name, d.index)

/-- The run on a bounded map, with the results of the searches. -/
def mapCalls (m : BoundedMap Bytes ℕ) : List SymbolCall → BoundedMap Bytes ℕ × List (Option ℕ)
  | [] => (m, [])
  | .insert name index :: calls => mapCalls (m.insert name index) calls
  | .search name :: calls => ((mapCalls m calls).1, m.get? name :: (mapCalls m calls).2)

/-- No call inserts a name that the table holds at that point of the run. -/
def NoneStored (table : SymbolTable) (calls : List SymbolCall) : Prop :=
  ∀ pre name index post reached results, calls = pre ++ .insert name index :: post →
    runCalls table pre = .ok (reached, results) → name ∉ reached.names

namespace SymbolTable

/-- The table holds the entries of the map, in its first slots. -/
structure Models (table : SymbolTable) (m : BoundedMap Bytes ℕ) : Prop where
  wf : table.WF
  size_eq : table.size = m.capacity
  entries_eq : table.entries.map TableData.entry = m.entries

end SymbolTable

variable {table table' : SymbolTable} {m : BoundedMap Bytes ℕ} {name : Bytes} {index size : ℕ}
  {calls : List SymbolCall}

theorem models_createTable (size : ℕ) : (createTable size).Models (.empty size) where
  wf := wf_createTable size
  size_eq := size_createTable size
  entries_eq := by rw [entries_createTable]; rfl

namespace SymbolTable.Models

theorem keys_eq (h : table.Models m) : m.keys = table.names := by
  rw [BoundedMap.keys, ← h.entries_eq, List.map_map]
  rfl

theorem length_eq (h : table.Models m) : m.entries.length = table.count := by
  rw [← h.entries_eq, List.length_map, h.wf.count_eq]

/-- **A search of the table is a look-up of the map.** -/
theorem stSearch (h : table.Models m) (name : Bytes) :
    (stSearch table name).map TableData.index = m.get? name := by
  rw [stSearch_eq_find?, BoundedMap.get?, ← h.entries_eq, List.find?_map, Option.map_map]
  rfl

/-- **An insertion of a new name into the table is an insertion into the map.** -/
theorem stInsert (h : table.Models m) (hnew : name ∉ m.keys) (index : ℕ) :
    ∃ table', stInsert table name index = .ok table' ∧ table'.Models (m.insert name index) := by
  have hname : name ∉ table.names := h.keys_eq ▸ hnew
  rcases Nat.lt_or_ge table.count table.size with hroom | hfull
  · refine ⟨table.push ⟨index, name⟩, stInsert_fresh h.wf hname hroom index,
      h.wf.push hname hroom, ?_, ?_⟩
    · rw [size_push h.wf hroom, h.size_eq, BoundedMap.capacity_insert]
    · have hlen : m.entries.length < m.capacity := by rwa [h.length_eq, ← h.size_eq]
      rw [entries_push, List.map_append, h.entries_eq,
        BoundedMap.entries_insert_of_room hnew hlen]
      rfl
  · have hlen : m.capacity ≤ m.entries.length := by rwa [h.length_eq, ← h.size_eq]
    rw [BoundedMap.insert_of_full hlen]
    exact ⟨table, stInsert_full h.wf hname hfull index, h⟩

end SymbolTable.Models

/-! ## Runs -/

@[simp] theorem noneStored_nil : NoneStored table [] := by
  intro pre name index post reached results hsplit
  simp at hsplit

@[simp] theorem noneStored_search :
    NoneStored table (.search name :: calls) ↔ NoneStored table calls := by
  constructor
  · intro h pre other index post reached results hsplit hrun
    refine h (.search name :: pre) other index post reached (stSearch table name :: results) ?_ ?_
    · rw [hsplit, List.cons_append]
    · rw [runCalls, hrun]
      rfl
  · intro h pre other index post reached results hsplit hrun
    cases pre with
    | nil => simp at hsplit
    | cons call pre =>
      obtain ⟨rfl, rfl⟩ := List.cons.inj hsplit
      cases hpre : runCalls table pre with
      | error e => rw [runCalls, hpre] at hrun; cases hrun
      | ok p =>
        rw [runCalls, hpre] at hrun
        obtain ⟨rfl, -⟩ := Prod.mk.inj (Except.ok.inj hrun)
        exact h pre other index post p.1 p.2 rfl hpre

@[simp] theorem noneStored_insert :
    NoneStored table (.insert name index :: calls) ↔ name ∉ table.names ∧
      ∀ table', stInsert table name index = .ok table' → NoneStored table' calls := by
  constructor
  · intro h
    refine ⟨h [] name index calls table [] rfl rfl, ?_⟩
    intro table' hstep pre other index' post reached results hsplit hrun
    refine h (.insert name index :: pre) other index' post reached results ?_ ?_
    · rw [hsplit, List.cons_append]
    · rw [runCalls, hstep]
      exact hrun
  · rintro ⟨hname, h⟩ pre other index' post reached results hsplit hrun
    cases pre with
    | nil =>
      obtain ⟨hcall, -⟩ := List.cons.inj hsplit
      obtain ⟨rfl, -⟩ := SymbolCall.insert.inj hcall
      obtain ⟨rfl, -⟩ := Prod.mk.inj (Except.ok.inj hrun)
      exact hname
    | cons call pre =>
      obtain ⟨rfl, rfl⟩ := List.cons.inj hsplit
      cases hstep : stInsert table name index with
      | error e => rw [runCalls, hstep] at hrun; cases hrun
      | ok table' =>
        rw [runCalls, hstep] at hrun
        exact h table' hstep pre other index' post reached results rfl hrun

/-- **A run on a table is the run on the map**, and so are the results of its searches. -/
theorem runCalls_models (h : table.Models m) (hnew : NoneStored table calls) :
    ∃ table' results, runCalls table calls = .ok (table', results) ∧
      table'.Models (mapCalls m calls).1 ∧
      results.map (Option.map TableData.index) = (mapCalls m calls).2 := by
  induction calls generalizing table m with
  | nil => exact ⟨table, [], rfl, h, rfl⟩
  | cons call calls ih =>
    cases call with
    | insert name index =>
      obtain ⟨hname, hnext⟩ := noneStored_insert.mp hnew
      obtain ⟨table₁, hstep, h₁⟩ := h.stInsert (h.keys_eq ▸ hname) index
      obtain ⟨table', results, hrun, h', hresults⟩ := ih h₁ (hnext table₁ hstep)
      refine ⟨table', results, ?_, h', hresults⟩
      rw [runCalls, hstep]
      exact hrun
    | search name =>
      obtain ⟨table', results, hrun, h', hresults⟩ := ih h (noneStored_search.mp hnew)
      refine ⟨table', stSearch table name :: results, ?_, h', ?_⟩
      · rw [runCalls, hrun]
        rfl
      · rw [List.map_cons, h.stSearch, hresults, mapCalls]

/-- The map at the end of a run holds what the run inserted. -/
theorem mapCalls_fst (m : BoundedMap Bytes ℕ) (calls : List SymbolCall) :
    (mapCalls m calls).1 = m.inserts ((inserted calls).map TableData.entry) := by
  induction calls generalizing m with
  | nil => rfl
  | cons call calls ih =>
    cases call with
    | insert name index => exact ih (m.insert name index)
    | search name => exact ih m

theorem fresh_inserted (h : table.Models m) (hnew : NoneStored table calls) :
    m.Fresh ((inserted calls).map TableData.entry) := by
  induction calls generalizing table m with
  | nil => exact True.intro
  | cons call calls ih =>
    cases call with
    | insert name index =>
      obtain ⟨hname, hnext⟩ := noneStored_insert.mp hnew
      have hkey : name ∉ m.keys := h.keys_eq ▸ hname
      obtain ⟨table₁, hstep, h₁⟩ := h.stInsert hkey index
      exact ⟨hkey, ih h₁ (hnext table₁ hstep)⟩
    | search name => exact ih h (noneStored_search.mp hnew)

theorem entry_injective : Function.Injective TableData.entry := by
  rintro ⟨i, n⟩ ⟨j, k⟩ h
  obtain ⟨rfl, rfl⟩ := Prod.mk.inj h
  rfl

/-- After a run from an empty table the entries are the first `size` insertions. -/
theorem entries_runCalls (h : table.Models (mapCalls (.empty size) calls).1)
    (hnew : NoneStored (createTable size) calls) : table.entries = (inserted calls).take size := by
  refine (List.map_injective_iff.mpr entry_injective) ?_
  rw [h.entries_eq, mapCalls_fst,
    BoundedMap.entries_inserts (fresh_inserted (models_createTable size) hnew), List.map_take]
  rfl

/-- **The symbol table is a bounded map in the order of insertion**, over every run from an empty
table that inserts no stored name. -/
theorem symbolTable_run (h : NoneStored (createTable size) calls) :
    ∃ table results, runCalls (createTable size) calls = .ok (table, results) ∧
      results.map (Option.map TableData.index) = (mapCalls (.empty size) calls).2 ∧
      table.tableData = ((inserted calls).take size).map some ++
        List.replicate (size - ((inserted calls).take size).length) none ∧
      (((inserted calls).take size).map TableData.name).Nodup ∧
      table.count = ((inserted calls).take size).length ∧
      (∀ d ∈ (inserted calls).take size, stSearch table d.name = some d) ∧
      (∀ name, name ∉ ((inserted calls).take size).map TableData.name →
        stSearch table name = none ∧
          (table.count = size → ∀ index, stInsert table name index = .ok table)) ∧
      ∀ name ∈ ((inserted calls).take size).map TableData.name, ∀ index,
        stInsert table name index = .error .exit := by
  obtain ⟨table, results, hrun, hmodels, hresults⟩ := runCalls_models (models_createTable size) h
  have hentries := entries_runCalls hmodels h
  have hnames : table.names = ((inserted calls).take size).map TableData.name := by
    rw [SymbolTable.names, hentries]
  have hsize : table.size = size := by
    rw [hmodels.size_eq, mapCalls_fst, BoundedMap.capacity_inserts]
    rfl
  have hcount : table.count = ((inserted calls).take size).length := by
    rw [← hentries, hmodels.wf.count_eq]
  refine ⟨table, results, hrun, hresults, ?_, ?_, hcount, ?_, ?_, ?_⟩
  · rw [hmodels.wf.slots, hentries, hsize, hcount]
  · rw [← hnames]
    exact hmodels.wf.nodup
  · intro d hd
    exact (stSearch_eq_some hmodels.wf).mpr ⟨hentries ▸ hd, rfl⟩
  · intro name hname
    rw [← hnames] at hname
    refine ⟨stSearch_eq_none.mpr hname, fun hfull index => ?_⟩
    exact stInsert_full hmodels.wf hname (hsize.trans hfull.symm).le index
  · intro name hname index
    exact stInsert_dup hmodels.wf (hnames ▸ hname) index

/-- Two names on a table of one slot: the second is dropped. -/
theorem symbolTable_run_one :
    NoneStored (createTable 1) [.insert [97] 7, .search [97], .insert [98] 8, .search [98]] ∧
      ∃ table results, runCalls (createTable 1)
          [.insert [97] 7, .search [97], .insert [98] 8, .search [98]] = .ok (table, results) ∧
        table.tableData = [some ⟨7, [97]⟩] ∧ results.map (Option.map TableData.index) =
          [some 7, none] := by
  have h : NoneStored (createTable 1)
      [.insert [97] 7, .search [97], .insert [98] 8, .search [98]] := by
    refine noneStored_insert.mpr ⟨by decide, fun table h₁ => ?_⟩
    obtain rfl := Except.ok.inj h₁
    refine noneStored_search.mpr (noneStored_insert.mpr ⟨by decide, fun table h₂ => ?_⟩)
    simp
  obtain ⟨table, results, hrun, hresults, hslots, -⟩ := symbolTable_run h
  exact ⟨h, table, results, hrun, hslots, hresults.trans (by decide)⟩

end SetQL
