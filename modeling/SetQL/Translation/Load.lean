import SetQL.Base.Decimal
import SetQL.DataStructures.Invariant
import SetQL.Parser.Universe

/-!
# Loading a universe

`db_addParsedData`: the key column is created, and the keys, the sets and the attributes of a
universe are added to a database by calls of its public operations. The state of the loader keeps
the list of these calls, each with the database it was made on.

## Main definitions

* `Memory`: what lies behind the strings of a universe and behind the integer passed by address
* `Load`, `Load.call`: the state of the loader, and one call
* `dbAddParsedDataKeys`, `dbAddParsedDataSets`, `dbAddParsedDataAttributes`, `dbAddParsedData`:
  the functions, with their return values
* `Op.Loads op`: an operation that a load makes
* `Calls db₀ calls db`: the calls lead from one database to the other

## Main results

* `calls_dbAddParsedData`: a load is a run of public operations
-/

namespace SetQL

/-- What lies in memory behind the key of a row, behind the value of a row and a column, and behind
the integer that this value is converted to. -/
structure Memory where
  key : ℕ → ℕ → UInt8
  value : ℕ → ℕ → ℕ → UInt8
  integer : ℕ → ℕ → ℕ → UInt8

/-- The database while it is loaded, and the calls made so far, each with the database it was made
on. -/
structure Load where
  db : Database
  calls : List (Database × Op)

/-- One call of a public operation. -/
def Load.call (s : Load) (op : Op) : C Load := do
  let db ← op.exec s.db
  return ⟨db, s.calls ++ [(s.db, op)]⟩

/-- The rest of a function after a part that may have failed with a return value of 1. -/
def Load.andThen (part : C (Load × ℕ)) (rest : Load → C (Load × ℕ)) : C (Load × ℕ) := do
  let (s, ret) ← part
  if ret ≠ 0 then return (s, 1) else rest s

/-- The difference of unsigned 64-bit integers. -/
def uint64Sub (a b : ℕ) : ℕ := (2 ^ 64 + a - b) % 2 ^ 64

/-- The body of the loop of `db_addParsedData_keys`. -/
def addKeyRow (mem : Memory) (u : Universe) (s : Load) (i : ℕ) : C Load := do
  let key ← u.keyValues.cell i 0
  let s ← s.call (.addKey key)
  s.call (.setAttribute s.db.primaryKeyName key (.text key (mem.key i)))

/-- `db_addParsedData_keys`. -/
def dbAddParsedDataKeys (mem : Memory) (u : Universe) (s : Load) : C (Load × ℕ) :=
  if u.keyValues.length > uint64Sub s.db.maxKeyCount s.db.keyCount then .ok (s, 1)
  else do
    let s ← (List.range u.keyValues.length).foldlM (addKeyRow mem u) s
    return (s, 0)

/-- The body of the loop of `db_addParsedData_sets`. -/
def addSet (s : Load) (set : UniverseSet) : C Load := do
  let s ← s.call (.createSet set.name)
  (List.range set.keyValues.length).foldlM (fun s j => do
    let key ← set.keyValues.cell j 0
    s.call (.addToSet set.name key)) s

/-- `db_addParsedData_sets`. -/
def dbAddParsedDataSets (u : Universe) (s : Load) : C (Load × ℕ) :=
  if u.sets.length > uint64Sub s.db.maxSetSize s.db.setCount then .ok (s, 1)
  else do
    let s ← u.sets.foldlM addSet s
    return (s, 0)

/-- The values of attribute `i`, each made into a payload. -/
def setValues (payload : ℕ → Bytes → Payload) (u : Universe) (i : ℕ) (uname : Bytes) (s : Load) :
    C Load :=
  (List.range u.keyValues.length).foldlM (fun s k => do
    let value ← u.attributeValues.cell k i
    let key ← u.keyValues.cell k 0
    s.call (.setAttribute uname key (payload k value))) s

/-- The integer of a value, passed by address. -/
def integerPayload (mem : Memory) (i k : ℕ) (value : Bytes) : Payload :=
  .int64 (BitVec.ofInt 64 (strtol value)) (mem.integer k i)

/-- The loop of `db_addParsedData_attributes` over the next `n` attributes from attribute `i`. The
source tests the type again before the values are set, and cannot find another one. -/
def addAttributesFrom (mem : Memory) (u : Universe) : ℕ → ℕ → Load → C (Load × ℕ)
  | 0, _, s => .ok (s, 0)
  | n + 1, i, s => do
    let uname ← fetch u.attributeDataNames i
    let utype ← fetch u.attributeDataTypeNames i
    if utype = lit "STRING" then do
      let s ← s.call (.createAttribute uname .string dbMaxStringLength)
      let s ← setValues (fun k value => .text value (mem.value k i)) u i uname s
      addAttributesFrom mem u n (i + 1) s
    else if utype = lit "INTEGER" then do
      let s ← s.call (.createAttribute uname .type64 0)
      let s ← setValues (integerPayload mem i) u i uname s
      addAttributesFrom mem u n (i + 1) s
    else do
      let s ← s.call (.createAttribute uname .undefined 0)
      return (s, 1)

/-- `db_addParsedData_attributes`. -/
def dbAddParsedDataAttributes (mem : Memory) (u : Universe) (s : Load) : C (Load × ℕ) :=
  if u.attributeDataNames.length > uint64Sub s.db.maxAttrSize s.db.attrCount then .ok (s, 1)
  else addAttributesFrom mem u u.attributeDataNames.length 0 s

/-- The name of the key column is copied into an array of 256 bytes, and the column is created; a
database that has another key column is refused. -/
def openKeyColumn (db : Database) (uname : Bytes) : C (Load × ℕ) :=
  if db.primaryKeyName = [] then
    if uname.length < dbMaxStringLength then do
      let s ← Load.call ⟨{ db with primaryKeyName := uname }, []⟩
        (.createAttribute uname .string dbMaxStringLength)
      return (s, 0)
    else .error .outOfBounds
  else if db.primaryKeyName ≠ uname then .ok (⟨db, []⟩, 1)
  else .ok (⟨db, []⟩, 0)

/-- `db_addParsedData`. -/
def dbAddParsedData (mem : Memory) (db : Database) (u : Universe) : C (Load × ℕ) := do
  let uname ← fetch u.keyDataNames 0
  Load.andThen (openKeyColumn db uname) fun s =>
    Load.andThen (dbAddParsedDataKeys mem u s) fun s =>
      Load.andThen (dbAddParsedDataSets u s) fun s =>
        dbAddParsedDataAttributes mem u s

/-- An operation that a load makes. -/
def Op.Loads : Op → Prop
  | createAttribute _ type stringSize =>
    (type = .string ∧ stringSize = dbMaxStringLength) ∨ type = .type64 ∨ type = .undefined
  | removeFromSet .. => False
  | _ => True

/-! ## A load is a run -/

/-- The calls lead from one database to the other. -/
inductive Calls (db₀ : Database) : List (Database × Op) → Database → Prop
  | nil : Calls db₀ [] db₀
  | snoc {calls db op db'} (h : Calls db₀ calls db) (hop : op.exec db = .ok db') :
    Calls db₀ (calls ++ [(db, op)]) db'

section Calls

variable {db₀ db : Database} {calls : List (Database × Op)} {s s' : Load} {op : Op}

theorem Calls.run (h : Calls db₀ calls db) : run db₀ (calls.map Prod.snd) = .ok db := by
  induction h with
  | nil => rfl
  | snoc _ hop ih =>
    rw [List.map_append]
    exact foldlM_snoc_eq_ok.mpr ⟨_, ih, hop⟩

theorem Load.call_eq_ok :
    s.call op = .ok s' ↔ ∃ db, op.exec s.db = .ok db ∧ s' = ⟨db, s.calls ++ [(s.db, op)]⟩ := by
  rw [Load.call, bind_eq_ok]
  refine exists_congr fun db => and_congr_right fun _ => ?_
  rw [pure_eq_ok, Except.ok.injEq]
  exact eq_comm

theorem Load.andThen_eq_ok {part : C (Load × ℕ)} {rest : Load → C (Load × ℕ)} {r : Load × ℕ} :
    Load.andThen part rest = .ok r ↔ ∃ s ret, part = .ok (s, ret) ∧
      (ret ≠ 0 ∧ r = (s, 1) ∨ ret = 0 ∧ rest s = .ok r) := by
  rw [Load.andThen, bind_eq_ok]
  constructor
  · rintro ⟨⟨s, ret⟩, hpart, h⟩
    refine ⟨s, ret, hpart, ?_⟩
    by_cases hret : ret = 0
    · exact Or.inr ⟨hret, by simpa [hret] using h⟩
    · exact Or.inl ⟨hret, by simpa [hret, eq_comm] using h⟩
  · rintro ⟨s, ret, hpart, ⟨hret, rfl⟩ | ⟨rfl, h⟩⟩
    · exact ⟨(s, ret), hpart, by simp [hret]⟩
    · exact ⟨(s, 0), hpart, by simpa using h⟩

end Calls

/-! ## Invariants of a load -/

section Invariant

variable {I : Load → Prop} {mem : Memory} {u : Universe} {s s' : Load} {ret : ℕ}

theorem addSet_invariant {set : UniverseSet}
    (hI : ∀ s op s', op.addsKey = false → op.Loads → I s → s.call op = .ok s' → I s') (hs : I s)
    (h : addSet s set = .ok s') : I s' := by
  obtain ⟨t, ht, h⟩ := bind_eq_ok.mp h
  refine foldlM_invariant (I := I) (fun t j t' _ hI' hstep => ?_) (hI s _ t rfl (by trivial) hs ht) h
  obtain ⟨key, -, hstep⟩ := bind_eq_ok.mp hstep
  exact hI t _ t' rfl (by trivial) hI' hstep

theorem setValues_invariant {payload : ℕ → Bytes → Payload} {i : ℕ} {uname : Bytes}
    (hI : ∀ s op s', op.addsKey = false → op.Loads → I s → s.call op = .ok s' → I s') (hs : I s)
    (h : setValues payload u i uname s = .ok s') : I s' := by
  refine foldlM_invariant (I := I) (fun t k t' _ hI' hstep => ?_) hs h
  obtain ⟨value, -, hstep⟩ := bind_eq_ok.mp hstep
  obtain ⟨key, -, hstep⟩ := bind_eq_ok.mp hstep
  exact hI t _ t' rfl (by trivial) hI' hstep

theorem addAttributesFrom_invariant
    (hI : ∀ s op s', op.addsKey = false → op.Loads → I s → s.call op = .ok s' → I s') {n i : ℕ} (hs : I s)
    (h : addAttributesFrom mem u n i s = .ok (s', ret)) : I s' := by
  induction n generalizing i s with
  | zero =>
    obtain ⟨rfl, -⟩ := Prod.mk.inj (Except.ok.inj h)
    exact hs
  | succ n ih =>
    obtain ⟨uname, -, h⟩ := bind_eq_ok.mp h
    obtain ⟨utype, -, h⟩ := bind_eq_ok.mp h
    split_ifs at h
    · obtain ⟨t, ht, h⟩ := bind_eq_ok.mp h
      obtain ⟨t', ht', h⟩ := bind_eq_ok.mp h
      exact ih (setValues_invariant hI (hI s _ t rfl (by exact Or.inl ⟨rfl, rfl⟩) hs ht) ht') h
    · obtain ⟨t, ht, h⟩ := bind_eq_ok.mp h
      obtain ⟨t', ht', h⟩ := bind_eq_ok.mp h
      exact ih (setValues_invariant hI (hI s _ t rfl (by exact Or.inr (Or.inl rfl)) hs ht) ht') h
    · obtain ⟨t, ht, h⟩ := bind_eq_ok.mp h
      obtain ⟨rfl, -⟩ := Prod.mk.inj (Except.ok.inj h)
      exact hI s _ t rfl (by exact Or.inr (Or.inr rfl)) hs ht

/-- **The invariant rule for loads**: a property that holds once the key column is open, and is kept
by the keys and by every other call, holds after the load. -/
theorem load_invariant {db : Database}
    (hopen : ∀ uname s ret, openKeyColumn db uname = .ok (s, ret) → I s)
    (hkeys : ∀ s s' ret, I s → dbAddParsedDataKeys mem u s = .ok (s', ret) → I s')
    (hI : ∀ s op s', op.addsKey = false → op.Loads → I s → s.call op = .ok s' → I s')
    (h : dbAddParsedData mem db u = .ok (s, ret)) : I s := by
  obtain ⟨uname, -, h⟩ := bind_eq_ok.mp h
  obtain ⟨s₁, ret₁, h₁, ⟨-, hend⟩ | ⟨-, h⟩⟩ := Load.andThen_eq_ok.mp h
  · obtain ⟨rfl, -⟩ := Prod.mk.inj hend
    exact hopen uname _ _ h₁
  have hs₁ := hopen uname _ _ h₁
  obtain ⟨s₂, ret₂, h₂, ⟨-, hend⟩ | ⟨-, h⟩⟩ := Load.andThen_eq_ok.mp h
  · obtain ⟨rfl, -⟩ := Prod.mk.inj hend
    exact hkeys _ _ _ hs₁ h₂
  have hs₂ := hkeys _ _ _ hs₁ h₂
  have hsets : ∀ s₃ ret₃, dbAddParsedDataSets u s₂ = .ok (s₃, ret₃) → I s₃ := by
    intro s₃ ret₃ h₃
    rw [dbAddParsedDataSets] at h₃
    split_ifs at h₃
    · obtain ⟨rfl, -⟩ := Prod.mk.inj (Except.ok.inj h₃)
      exact hs₂
    · obtain ⟨t, ht, h₃⟩ := bind_eq_ok.mp h₃
      obtain ⟨rfl, -⟩ := Prod.mk.inj (Except.ok.inj h₃)
      exact foldlM_invariant (I := I) (fun _ _ _ _ hI' hstep => addSet_invariant hI hI' hstep) hs₂ ht
  obtain ⟨s₃, ret₃, h₃, ⟨-, hend⟩ | ⟨-, h⟩⟩ := Load.andThen_eq_ok.mp h
  · obtain ⟨rfl, -⟩ := Prod.mk.inj hend
    exact hsets _ _ h₃
  rw [dbAddParsedDataAttributes] at h
  split_ifs at h
  · obtain ⟨rfl, -⟩ := Prod.mk.inj (Except.ok.inj h)
    exact hsets _ _ h₃
  · exact addAttributesFrom_invariant hI (hsets _ _ h₃) h

/-- A property kept by every call is kept by the keys. -/
theorem dbAddParsedDataKeys_invariant (hI : ∀ s op s', op.Loads → I s → s.call op = .ok s' → I s') (hs : I s)
    (h : dbAddParsedDataKeys mem u s = .ok (s', ret)) : I s' := by
  rw [dbAddParsedDataKeys] at h
  split_ifs at h
  · obtain ⟨rfl, -⟩ := Prod.mk.inj (Except.ok.inj h)
    exact hs
  · obtain ⟨t, ht, h⟩ := bind_eq_ok.mp h
    obtain ⟨rfl, -⟩ := Prod.mk.inj (Except.ok.inj h)
    refine foldlM_invariant (I := I) (fun t i t' _ hI' hstep => ?_) hs ht
    obtain ⟨key, -, hstep⟩ := bind_eq_ok.mp hstep
    obtain ⟨t₁, ht₁, hstep⟩ := bind_eq_ok.mp hstep
    exact hI _ _ _ (by trivial) (hI _ _ _ (by trivial) hI' ht₁) hstep

/-- The database whose key column has a name. -/
def Database.withKeyColumn (db : Database) (uname : Bytes) : Database :=
  { db with primaryKeyName := uname }

/-- **A load is a run** of the calls it makes. -/
theorem calls_dbAddParsedData {db : Database} (h : dbAddParsedData mem db u = .ok (s, ret)) :
    ∃ uname, Calls (db.withKeyColumn uname) s.calls s.db := by
  have hcall : ∀ (s : Load) (op : Op) (s' : Load), (∃ uname, Calls (db.withKeyColumn uname) s.calls s.db) →
      s.call op = .ok s' → ∃ uname, Calls (db.withKeyColumn uname) s'.calls s'.db := by
    rintro s op s' ⟨uname, hs⟩ hcall
    obtain ⟨db', hop, rfl⟩ := Load.call_eq_ok.mp hcall
    exact ⟨uname, hs.snoc hop⟩
  refine load_invariant (I := fun s => ∃ uname, Calls (db.withKeyColumn uname) s.calls s.db)
    (fun uname s ret hopen => ?_)
    (fun s s' ret => dbAddParsedDataKeys_invariant fun s op s' _ => hcall s op s')
    (fun s op s' _ _ => hcall s op s') h
  rw [openKeyColumn] at hopen
  split_ifs at hopen
  · obtain ⟨t, ht, hopen⟩ := bind_eq_ok.mp hopen
    obtain ⟨rfl, -⟩ := Prod.mk.inj (Except.ok.inj hopen)
    exact hcall _ _ _ ⟨uname, .nil⟩ ht
  · obtain ⟨rfl, -⟩ := Prod.mk.inj (Except.ok.inj hopen)
    exact ⟨db.primaryKeyName, .nil⟩
  · obtain ⟨rfl, -⟩ := Prod.mk.inj (Except.ok.inj hopen)
    exact ⟨db.primaryKeyName, .nil⟩

theorem uint64Sub_of_le {a b : ℕ} (h : b ≤ a) (ha : a < 2 ^ 64) : uint64Sub a b = a - b := by
  unfold uint64Sub
  omega

/-- The keys of a load are within the capacity. -/
theorem keyCount_dbAddParsedData {db : Database} (hmax : db.maxKeyCount < 2 ^ 64)
    (hcap : db.keyCount ≤ db.maxKeyCount) (h : dbAddParsedData mem db u = .ok (s, ret)) :
    s.db.keyCount ≤ s.db.maxKeyCount ∧ s.db.maxKeyCount < 2 ^ 64 := by
  have hcall : ∀ {s : Load} {op : Op} {s' : Load}, s.call op = .ok s' →
      s'.db.keyCount ≤ s.db.keyCount + op.addsKey.toNat ∧
        s'.db.maxKeyCount = s.db.maxKeyCount := by
    intro s op s' hcall
    obtain ⟨db', hop, rfl⟩ := Load.call_eq_ok.mp hcall
    exact ⟨(counts_exec hop).keyCount, (capacities_exec hop).maxKeyCount⟩
  have hother : ∀ (s : Load) (op : Op) (s' : Load), op.addsKey = false →
      s.db.keyCount ≤ s.db.maxKeyCount ∧ s.db.maxKeyCount < 2 ^ 64 → s.call op = .ok s' →
      s'.db.keyCount ≤ s'.db.maxKeyCount ∧ s'.db.maxKeyCount < 2 ^ 64 := by
    intro s op s' hop hs h
    obtain ⟨hk, hm⟩ := hcall h
    rw [hop, Bool.toNat_false] at hk
    omega
  refine load_invariant (I := fun s => s.db.keyCount ≤ s.db.maxKeyCount ∧ s.db.maxKeyCount < 2 ^ 64)
    (fun uname s ret hopen => ?_) (fun s s' ret hs hkeys => ?_)
    (fun s op s' hop _ => hother s op s' hop) h
  · rw [openKeyColumn] at hopen
    split_ifs at hopen
    · obtain ⟨t, ht, hopen⟩ := bind_eq_ok.mp hopen
      obtain ⟨rfl, -⟩ := Prod.mk.inj (Except.ok.inj hopen)
      exact hother _ _ _ rfl ⟨hcap, hmax⟩ ht
    · obtain ⟨rfl, -⟩ := Prod.mk.inj (Except.ok.inj hopen)
      exact ⟨hcap, hmax⟩
    · obtain ⟨rfl, -⟩ := Prod.mk.inj (Except.ok.inj hopen)
      exact ⟨hcap, hmax⟩
  · rw [dbAddParsedDataKeys, uint64Sub_of_le hs.1 hs.2] at hkeys
    split_ifs at hkeys with hroom
    · obtain ⟨rfl, -⟩ := Prod.mk.inj (Except.ok.inj hkeys)
      exact hs
    · obtain ⟨t, ht, hkeys⟩ := bind_eq_ok.mp hkeys
      obtain ⟨rfl, -⟩ := Prod.mk.inj (Except.ok.inj hkeys)
      have hloop := foldlM_simulation (R := fun rows (t : Load) =>
        t.db.keyCount ≤ s.db.keyCount + rows.length ∧ t.db.maxKeyCount = s.db.maxKeyCount)
        ⟨le_rfl, rfl⟩ (fun pre i t t' hpre hstep => by
          obtain ⟨key, -, hstep⟩ := bind_eq_ok.mp hstep
          obtain ⟨t₁, ht₁, hstep⟩ := bind_eq_ok.mp hstep
          obtain ⟨hk₁, hm₁⟩ := hcall ht₁
          obtain ⟨hk₂, hm₂⟩ := hcall hstep
          simp only [Op.addsKey, Bool.toNat_true, Bool.toNat_false] at hk₁ hk₂
          rw [List.length_append, List.length_singleton]
          omega) ht
      rw [List.length_range] at hloop
      omega

end Invariant

/-! ## Loaded databases -/

/-- A database that universes were loaded into: the first one when it was new. -/
inductive Loaded : Database → Prop
  | first {mem u m sets attributes db₀ s ret} (hattr : 1 ≤ attributes)
    (h₀ : createEmptyDB m sets attributes = .ok db₀)
    (h : dbAddParsedData mem db₀ u = .ok (s, ret)) : Loaded s.db
  | next {mem u db s ret} (hdb : Loaded db) (h : dbAddParsedData mem db u = .ok (s, ret)) :
    Loaded s.db

section Loaded

variable {mem : Memory} {u : Universe} {db : Database} {s : Load} {ret : ℕ}

theorem inv_withKeyColumn (hinv : Inv db) (uname : Bytes) : Inv (db.withKeyColumn uname) :=
  { hinv with }

theorem inv_dbAddParsedData (hinv : Inv db) (h : dbAddParsedData mem db u = .ok (s, ret)) :
    Inv s.db := by
  obtain ⟨uname, hcalls⟩ := calls_dbAddParsedData h
  exact inv_run (inv_withKeyColumn hinv uname) hcalls.run

theorem Loaded.inv (h : Loaded db) : Inv db := by
  induction h with
  | first _ h₀ h => exact inv_dbAddParsedData (inv_createEmptyDB h₀) h
  | next _ h ih => exact inv_dbAddParsedData ih h

theorem Loaded.keyCount_le (h : Loaded db) : db.keyCount ≤ db.maxKeyCount := by
  induction h with
  | first _ h₀ h =>
    have hsize := (inv_createEmptyDB h₀).size_le
    obtain ⟨_, _, _, -, -, -, rfl⟩ := createEmptyDB_eq_ok h₀
    exact (keyCount_dbAddParsedData (by simp only at hsize ⊢; omega) (Nat.zero_le _) h).1
  | next hdb h ih =>
    have hsize := hdb.inv.size_le
    exact (keyCount_dbAddParsedData (by omega) ih h).1

/-- The first load creates the key column. -/
theorem attrCount_of_first {db₀ : Database} {m sets attributes : ℕ} (hattr : 1 ≤ attributes)
    (h₀ : createEmptyDB m sets attributes = .ok db₀)
    (h : dbAddParsedData mem db₀ u = .ok (s, ret)) : s.db.attrCount ≠ 0 := by
  obtain ⟨_, _, _, -, -, -, rfl⟩ := createEmptyDB_eq_ok h₀
  have hcall : ∀ (s : Load) (op : Op) (s' : Load), s.db.attrCount ≠ 0 → s.call op = .ok s' →
      s'.db.attrCount ≠ 0 := by
    intro s op s' hs hcall
    obtain ⟨db', hop, rfl⟩ := Load.call_eq_ok.mp hcall
    have := (counts_exec hop).attrCount_ge
    show db'.attrCount ≠ 0
    omega
  refine load_invariant (I := fun s => s.db.attrCount ≠ 0) (fun uname s ret hopen => ?_)
    (fun s s' ret => dbAddParsedDataKeys_invariant fun s op s' _ => hcall s op s')
    (fun s op s' _ _ => hcall s op s') h
  rw [openKeyColumn, if_pos rfl] at hopen
  split_ifs at hopen
  obtain ⟨t, ht, hopen⟩ := bind_eq_ok.mp hopen
  obtain ⟨rfl, -⟩ := Prod.mk.inj (Except.ok.inj hopen)
  obtain ⟨db', hop, rfl⟩ := Load.call_eq_ok.mp ht
  obtain ⟨hbad | hbad | hbad, -⟩ | ⟨-, -, -, table, -, rfl⟩ := dbCreateAttribute_cases hop
  · simp at hbad
  · simp [Database.attrCount] at hbad
    omega
  · exact absurd hbad.2 (by decide)
  · simp [Database.attrCount]

/-- A loaded database has its key column. -/
theorem Loaded.attrCount_ne_zero (h : Loaded db) : db.attrCount ≠ 0 := by
  induction h with
  | first hattr h₀ h => exact attrCount_of_first hattr h₀ h
  | next _ h ih =>
    obtain ⟨uname, hcalls⟩ := calls_dbAddParsedData h
    exact ((Nat.pos_of_ne_zero ih).trans_le (counts_run hcalls.run).attrCount_ge).ne'

end Loaded

end SetQL
