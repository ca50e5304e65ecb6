import SetQL.DataStructures.Invariant

/-!
# Counters, tables and bitsets in step

What the counters, the symbol tables and the bitsets of a database have to do with each other over
any run of the public operations. `db_addKey` does not check its limit, so all of it depends on
there being room for every new key.

## Main definitions

* `Indexed table n`: the table holds `n` names, under the indices `0, ..., n - 1`
* `Represented db`: counters within their limits, tables in step with them, indices inside bitsets
* `Adds db op table name index`: an operation reports a name as added
* `Intact db₀ ops`: the property of a run
* `KeysFit db₀ ops`: there is room for every new key of a run

## Main results

* `intact_iff`: a run is intact exactly when its keys fit
-/

namespace SetQL

/-- The table holds `n` distinct names, with the indices `0, ..., n - 1` in this order, and each
name is found with its own index. -/
structure Indexed (table : SymbolTable) (n : ℕ) : Prop where
  count_eq : table.count = n
  indices : table.entries.map TableData.index = List.range n
  nodup : table.names.Nodup
  found : ∀ d ∈ table.entries, stSearch table d.name = some d

/-- The counters are within their limits and in step with the tables, and the indices of a known
key and a known set address a bit. -/
structure Represented (db : Database) : Prop where
  keyCount_le : db.keyCount ≤ db.maxKeyCount
  setCount_le : db.setCount ≤ db.maxSetSize
  attrCount_le : db.attrCount ≤ db.maxAttrSize
  keys : Indexed db.keyTable db.keyCount
  setNames : Indexed db.setNamesTable db.setCount
  attrNames : Indexed db.attrNamesTable db.attrCount
  bit : db.maxKeyCount ≤ 2 ^ 24 → ∀ key set edata sdata, stSearch db.keyTable key = some edata →
    stSearch db.setNamesTable set = some sdata →
    ∃ b, db.sets[sdata.index]? = some b ∧ edata.index < 64 * b.integerCount

/-- The operation reports that it adds a name to one of the tables, under an index: none of its
error messages is printed. -/
inductive Adds (db : Database) : Op → (Database → SymbolTable) → Bytes → ℕ → Prop
  | key {name} (hne : name ≠ []) (hnew : stSearch db.keyTable name = none) :
    Adds db (.addKey name) Database.keyTable name db.keyCount
  | set {name} (hne : name ≠ []) (hnew : stSearch db.setNamesTable name = none)
    (hroom : db.setCount < db.maxSetSize) :
    Adds db (.createSet name) Database.setNamesTable name db.setCount
  | attr {name type stringSize} (hnew : stSearch db.attrNamesTable name = none)
    (hroom : db.attrCount ≠ db.maxAttrSize) (hsize : ¬ (type = .string ∧ stringSize < 1)) :
    Adds db (.createAttribute name type stringSize) Database.attrNamesTable name db.attrCount

/-- Every state of a run is represented well, and a name reported as added is found with its own
index after the operation and ever after. -/
structure Intact (db₀ : Database) (ops : List Op) : Prop where
  represented : ∀ pre post db, ops = pre ++ post → run db₀ pre = .ok db → Represented db
  found : ∀ pre op mid post db db' table name index, ops = pre ++ op :: mid ++ post →
    run db₀ pre = .ok db → run db (op :: mid) = .ok db' → Adds db op table name index →
    stSearch (table db') name = some ⟨index, name⟩

/-- Whenever a run adds a new key, the number of keys is below the limit. -/
def KeysFit (db₀ : Database) (ops : List Op) : Prop :=
  ∀ pre name post db, ops = pre ++ .addKey name :: post → run db₀ pre = .ok db → name ≠ [] →
    stSearch db.keyTable name = none → db.keyCount < db.maxKeyCount

variable {db db' db₀ : Database} {op : Op} {ops : List Op} {name : Bytes} {d : TableData}

/-! ## States -/

/-- The names of a table are indexed while they are within its capacity. -/
theorem Names.indexed {table : SymbolTable} {n capacity : ℕ} (h : Names table n capacity)
    (hn : n ≤ capacity) : Indexed table n where
  count_eq := by rw [← h.wf.count_eq, h.length_eq hn]
  indices := by
    apply List.ext_getElem (by rw [List.length_map, h.length_eq hn, List.length_range])
    intro i hi hi'
    rw [List.getElem_map, List.getElem_range]
    exact h.dense i _ (List.getElem?_eq_getElem (by simpa using hi))
  nodup := h.wf.nodup
  found := fun d hd => (stSearch_eq_some h.wf).mpr ⟨hd, rfl⟩

/-- **A database of the invariant whose keys are within the limit is represented well.** -/
theorem Inv.represented (hinv : Inv db) (hcap : db.keyCount ≤ db.maxKeyCount) : Represented db where
  keyCount_le := hcap
  setCount_le := hinv.setCount_le
  attrCount_le := hinv.attrCount_le
  keys := hinv.keys.indexed hcap
  setNames := hinv.setNames.indexed hinv.setCount_le
  attrNames := hinv.attrNames.indexed hinv.attrCount_le
  bit := by
    intro hmax key set edata sdata hkey hset
    have hlt := hinv.setNames.index_lt_count hset
    refine ⟨_, List.getElem?_eq_getElem hlt, ?_⟩
    rw [hinv.words _ (List.getElem_mem hlt)]
    have hk := hinv.keys.index_lt_count hkey
    have hwords := le_ceilDivSingle_mul hmax (show 0 < 64 by decide)
    omega

/-! ## Names stay -/

/-- No operation changes what the search for a stored name returns. -/
theorem search_exec (h : op.exec db = .ok db') :
    (∀ name d, stSearch db.keyTable name = some d → stSearch db'.keyTable name = some d) ∧
      (∀ name d, stSearch db.setNamesTable name = some d →
        stSearch db'.setNamesTable name = some d) ∧
      ∀ name d, stSearch db.attrNamesTable name = some d →
        stSearch db'.attrNamesTable name = some d := by
  have hkeep : ∀ {table table' : SymbolTable} {new : Bytes} {index : ℕ},
      stSearch table new = none → stInsert table new index = .ok table' →
      ∀ name d, stSearch table name = some d → stSearch table' name = some d := by
    intro table table' new index hnew hins name d hd
    rw [stSearch_stInsert_of_ne hins, hd]
    rintro rfl
    rw [hnew] at hd
    cases hd
  cases op with
  | createSet new =>
    obtain ⟨-, rfl⟩ | ⟨hnew, -, -, table, _, hins, -, rfl⟩ := dbCreateSet_cases h
    · exact ⟨fun _ _ => id, fun _ _ => id, fun _ _ => id⟩
    · exact ⟨fun _ _ => id, hkeep hnew hins, fun _ _ => id⟩
  | addKey new =>
    obtain ⟨-, rfl⟩ | ⟨-, hnew, table, hins, rfl⟩ := dbAddKey_cases h
    · exact ⟨fun _ _ => id, fun _ _ => id, fun _ _ => id⟩
    · exact ⟨hkeep hnew hins, fun _ _ => id, fun _ _ => id⟩
  | createAttribute new type stringSize =>
    obtain ⟨-, rfl⟩ | ⟨hnew, -, -, table, hins, rfl⟩ := dbCreateAttribute_cases h
    · exact ⟨fun _ _ => id, fun _ _ => id, fun _ _ => id⟩
    · exact ⟨fun _ _ => id, fun _ _ => id, hkeep hnew hins⟩
  | addToSet set key | removeFromSet set key =>
    obtain ⟨-, rfl⟩ | ⟨_, _, _, _, -, -, -, -, rfl⟩ := dbUpdateSet_cases h <;>
      exact ⟨fun _ _ => id, fun _ _ => id, fun _ _ => id⟩
  | setAttribute attrName keyName data =>
    obtain ⟨-, rfl⟩ | ⟨_, _, _, -, -, -, ⟨-, -, rfl⟩ | ⟨-, _, -, rfl⟩⟩ := dbSetAttribute_cases h <;>
      exact ⟨fun _ _ => id, fun _ _ => id, fun _ _ => id⟩

theorem search_run (h : run db ops = .ok db') :
    (∀ name d, stSearch db.keyTable name = some d → stSearch db'.keyTable name = some d) ∧
      (∀ name d, stSearch db.setNamesTable name = some d →
        stSearch db'.setNamesTable name = some d) ∧
      ∀ name d, stSearch db.attrNamesTable name = some d →
        stSearch db'.attrNamesTable name = some d := by
  refine foldlM_invariant (I := fun db' =>
    (∀ name d, stSearch db.keyTable name = some d → stSearch db'.keyTable name = some d) ∧
      (∀ name d, stSearch db.setNamesTable name = some d →
        stSearch db'.setNamesTable name = some d) ∧
      ∀ name d, stSearch db.attrNamesTable name = some d →
        stSearch db'.attrNamesTable name = some d) ?_
    ⟨fun _ _ => id, fun _ _ => id, fun _ _ => id⟩ h
  rintro t op t' - ⟨hk, hs, ha⟩ hstep
  obtain ⟨hk', hs', ha'⟩ := search_exec hstep
  exact ⟨fun n e he => hk' n e (hk n e he), fun n e he => hs' n e (hs n e he),
    fun n e he => ha' n e (ha n e he)⟩

/-- A name reported as added is found, while the number of keys stays within the limit. -/
theorem Adds.found {table : Database → SymbolTable} {index : ℕ} (hadd : Adds db op table name index)
    (hinv : Inv db) (hcap : db'.keyCount ≤ db'.maxKeyCount) (h : op.exec db = .ok db') :
    stSearch (table db') name = some ⟨index, name⟩ := by
  -- the new entry is pushed: a full table has no room for a name within the limit
  have hpush : ∀ {table table' : SymbolTable} {n capacity : ℕ}, Names table n capacity →
      stSearch table name = none → n < capacity → stInsert table name n = .ok table' →
      stSearch table' name = some ⟨n, name⟩ := by
    intro table table' n capacity hnames hnew hlt hins
    have hle := hnames.capacity_le
    obtain ⟨-, ⟨-, rfl⟩ | ⟨hfull, -⟩⟩ := hnames.stInsert hnew hins
    · rw [stSearch_push (stSearch_eq_none.mp hnew), if_pos rfl]
    · omega
  cases hadd with
  | key hne hnew =>
    obtain ⟨hbad, -⟩ | ⟨-, -, table, hins, rfl⟩ := dbAddKey_cases h
    · simp [hne, hnew] at hbad
    · exact hpush hinv.keys hnew hcap hins
  | set hne hnew hroom =>
    obtain ⟨hbad, -⟩ | ⟨-, -, -, table, _, hins, -, rfl⟩ := dbCreateSet_cases h
    · simp [hne, hnew] at hbad
    · exact hpush hinv.setNames hnew hroom hins
  | attr hnew hroom hsize =>
    obtain ⟨hbad, -⟩ | ⟨-, -, -, table, hins, rfl⟩ := dbCreateAttribute_cases h
    · rw [hnew] at hbad
      simp [hroom, hsize] at hbad
    · exact hpush hinv.attrNames hnew (Nat.lt_of_le_of_ne hinv.attrCount_le hroom) hins

/-! ## Runs -/

/-- The keys of a run that fit stay within the limit. -/
theorem keyCount_le_of_keysFit (hcap : db₀.keyCount ≤ db₀.maxKeyCount) (hfit : KeysFit db₀ ops)
    {pre post : List Op} (hops : ops = pre ++ post) (h : run db₀ pre = .ok db) :
    db.keyCount ≤ db.maxKeyCount := by
  subst hops
  -- by induction on the steps made: only a new key counts, and it was below the limit
  induction pre using List.reverseRecOn generalizing post db with
  | nil =>
    obtain rfl := Except.ok.inj h
    exact hcap
  | append_singleton pre op ih =>
    obtain ⟨t, ht, hop⟩ := foldlM_snoc_eq_ok.mp h
    rw [List.append_assoc] at hfit
    have hle := ih ht hfit
    have hcount := (counts_exec hop).keyCount
    have hmax := (capacities_exec hop).maxKeyCount
    by_cases hkey : op.addsKey = true
    · cases op with
      | addKey name =>
        obtain ⟨-, rfl⟩ | ⟨hne, hnew, -, -, rfl⟩ := dbAddKey_cases hop
        · exact hle
        · exact hfit pre name post t rfl ht hne hnew
      | createSet _ | removeFromSet _ _ | addToSet _ _ | createAttribute _ _ _
      | setAttribute _ _ _ => cases hkey
    · rw [Bool.not_eq_true] at hkey
      rw [hkey, Bool.toNat_false] at hcount
      omega

/-- **A run on a new database is intact exactly when its keys fit**: every state is represented
well and every name reported as added is found with its own index, if and only if each new key is
added while the number of keys is below the limit. -/
theorem intact_iff {n s a : ℕ} (h₀ : createEmptyDB n s a = .ok db₀) (ops : List Op) :
    Intact db₀ ops ↔ KeysFit db₀ ops := by
  have hinv₀ := inv_createEmptyDB h₀
  constructor
  · intro hintact pre name post db hops hpre hne hnew
    have hinv := inv_run hinv₀ hpre
    obtain ⟨table, hins⟩ := hinv.keys.exists_stInsert hnew db.keyCount
    have hstep : Op.exec db (.addKey name) = .ok _ := dbAddKey_new hne hnew hins
    have hrun := foldlM_snoc_eq_ok.mpr ⟨db, hpre, hstep⟩
    rw [← List.singleton_append, ← List.append_assoc] at hops
    exact (hintact.represented _ post _ hops hrun).keyCount_le
  · intro hfit
    have hcap₀ : db₀.keyCount ≤ db₀.maxKeyCount := by
      obtain ⟨_, _, _, -, -, -, rfl⟩ := createEmptyDB_eq_ok h₀
      exact Nat.zero_le _
    refine ⟨?_, ?_⟩
    · intro pre post db hops hpre
      exact (inv_run hinv₀ hpre).represented (keyCount_le_of_keysFit hcap₀ hfit hops hpre)
    · intro pre op mid post db db' table name index hops hpre hmid hadd
      obtain ⟨t, hop, hmid⟩ := bind_eq_ok.mp hmid
      have hsnoc := foldlM_snoc_eq_ok.mpr ⟨db, hpre, hop⟩
      have hops' : ops = (pre ++ [op]) ++ (mid ++ post) := by simp [hops]
      have hcap := keyCount_le_of_keysFit hcap₀ hfit hops' hsnoc
      have hfound := hadd.found (inv_run hinv₀ hpre) hcap hop
      obtain ⟨hkeys, hsets, hattrs⟩ := search_run hmid
      cases hadd with
      | key => exact hkeys _ _ hfound
      | set => exact hsets _ _ hfound
      | attr => exact hattrs _ _ hfound

/-- A key is added twice and put into a set, and an attribute is created. -/
theorem intact_iff_single : ∃ db₀, createEmptyDB 1 1 1 = .ok db₀ ∧
    (Intact db₀ [.addKey (lit "a"), .createSet (lit "S"), .addToSet (lit "S") (lit "a"),
        .addKey (lit "a"), .createAttribute (lit "n") .type64 0] ↔
      KeysFit db₀ [.addKey (lit "a"), .createSet (lit "S"), .addToSet (lit "S") (lit "a"),
        .addKey (lit "a"), .createAttribute (lit "n") .type64 0]) :=
  ⟨_, createEmptyDB_one, intact_iff createEmptyDB_one _⟩

/-- The second key of a database for one key is counted, but not stored. -/
theorem not_intact_overfull : ∃ db₀, createEmptyDB 1 1 1 = .ok db₀ ∧
    ¬ Intact db₀ [.addKey (lit "a"), .addKey (lit "b")] := by
  refine ⟨_, createEmptyDB_one, fun hintact => ?_⟩
  have hrep := hintact.represented [.addKey (lit "a"), .addKey (lit "b")] [] _ rfl rfl
  exact absurd hrep.keyCount_le (by decide)

end SetQL
