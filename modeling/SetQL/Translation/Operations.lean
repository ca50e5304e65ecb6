import SetQL.Translation.Load

/-!
# The operations of a load

A universe whose rows are all there is loaded by a list of operations that can be read off the
universe: the creation of the key column, two calls for each row, the sets with their members, and
each attribute with its values, up to the first attribute whose type is not stored.

## Main definitions

* `Shaped u`: all the strings that a load reads are there
* `keyOps`, `setOps`, `attributeOps`: the operations of the parts of a load
* `loadOps`, `loadReturn`: the operations of a load, and its return value

## Main results

* `dbAddParsedData_eq`: a load makes its operations, in order
-/

namespace SetQL

/-! ## The strings of a universe -/

/-- `values[i][j]`, empty where it is missing. -/
def ArrayList.entry (values : ArrayList) (i j : ℕ) : Bytes :=
  match values.cell i j with
  | .ok b => b
  | .error _ => []

theorem ArrayList.cell_eq {values : ArrayList} {i j : ℕ} (h : ∃ b, values.cell i j = .ok b) :
    values.cell i j = .ok (values.entry i j) := by
  obtain ⟨b, hb⟩ := h
  rw [entry, hb]

/-- The members of a set, as they are listed. -/
def UniverseSet.members (set : UniverseSet) : List Bytes :=
  (List.range set.keyValues.length).map fun j => set.keyValues.entry j 0

namespace Universe

/-- The number of rows. -/
def rows (u : Universe) : ℕ := u.keyValues.length

/-- The name of the key column. -/
def keyName (u : Universe) : Bytes := u.keyDataNames.headD []

/-- The key of a row. -/
def key (u : Universe) (k : ℕ) : Bytes := u.keyValues.entry k 0

/-- The name of an attribute. -/
def attrName (u : Universe) (i : ℕ) : Bytes := u.attributeDataNames.getD i []

/-- The declared type of an attribute. -/
def typeName (u : Universe) (i : ℕ) : Bytes := u.attributeDataTypeNames.getD i []

/-- The value of an attribute in a row. -/
def value (u : Universe) (i k : ℕ) : Bytes := u.attributeValues.entry k i

end Universe

/-- All the strings that a load reads are there. -/
structure Shaped (u : Universe) : Prop where
  keyName : u.keyDataNames ≠ []
  types : u.attributeDataTypeNames.length = u.attributeDataNames.length
  keys : ∀ k < u.rows, ∃ b, u.keyValues.cell k 0 = .ok b
  values : ∀ k < u.rows, ∀ i < u.attributeDataNames.length, ∃ b, u.attributeValues.cell k i = .ok b
  members : ∀ set ∈ u.sets, ∀ j < set.keyValues.length, ∃ b, set.keyValues.cell j 0 = .ok b

/-! ## The operations -/

/-- The operations of a row. -/
def keyRowOps (mem : Memory) (u : Universe) (k : ℕ) : List Op :=
  [.addKey (u.key k), .setAttribute u.keyName (u.key k) (.text (u.key k) (mem.key k))]

/-- The operations of the keys. -/
def keyOps (mem : Memory) (u : Universe) : List Op := (List.range u.rows).flatMap (keyRowOps mem u)

/-- The operations of a set. -/
def setOps (set : UniverseSet) : List Op :=
  .createSet set.name :: set.members.map (.addToSet set.name)

/-- The type that a declared type is stored as, undefined for any other than `STRING` and
`INTEGER`. -/
def storedType (utype : Bytes) : AttrType :=
  if utype = lit "STRING" then .string else if utype = lit "INTEGER" then .type64 else .undefined

/-- The creation of an attribute. -/
def createOp (u : Universe) (i : ℕ) : Op :=
  .createAttribute (u.attrName i) (storedType (u.typeName i))
    (if storedType (u.typeName i) = .string then dbMaxStringLength else 0)

/-- The payload of a value. -/
def payload (mem : Memory) (u : Universe) (i k : ℕ) : Payload :=
  if storedType (u.typeName i) = .string then .text (u.value i k) (mem.value k i)
  else integerPayload mem i k (u.value i k)

/-- The operations that set the values of an attribute. -/
def valueOps (mem : Memory) (u : Universe) (i : ℕ) : List Op :=
  (List.range u.rows).map fun k => .setAttribute (u.attrName i) (u.key k) (payload mem u i k)

/-- The operations of the next `n` attributes from attribute `i`, up to the first one whose type is
not stored. -/
def attributeOps (mem : Memory) (u : Universe) : ℕ → ℕ → List Op
  | 0, _ => []
  | n + 1, i =>
    if storedType (u.typeName i) = .undefined then [createOp u i]
    else createOp u i :: (valueOps mem u i ++ attributeOps mem u n (i + 1))

/-- The return value of the next `n` attributes from attribute `i`. -/
def attributeReturn (u : Universe) : ℕ → ℕ → ℕ
  | 0, _ => 0
  | n + 1, i =>
    if storedType (u.typeName i) = .undefined then 1 else attributeReturn u n (i + 1)

/-- The operations of the key column and the keys. -/
def startOps (mem : Memory) (u : Universe) : List Op :=
  .createAttribute u.keyName .string dbMaxStringLength :: keyOps mem u

/-- The operations of a load into a database with room for the given numbers of sets and
attributes, the key column among them. -/
def loadOps (mem : Memory) (u : Universe) (sets attributes : ℕ) : List Op :=
  if u.sets.length > sets then startOps mem u
  else if u.attributeDataNames.length > attributes - 1 then startOps mem u ++ u.sets.flatMap setOps
  else startOps mem u ++ u.sets.flatMap setOps ++
    attributeOps mem u u.attributeDataNames.length 0

/-- The return value of a load. -/
def loadReturn (u : Universe) (sets attributes : ℕ) : ℕ :=
  if u.sets.length > sets then 1
  else if u.attributeDataNames.length > attributes - 1 then 1
  else attributeReturn u u.attributeDataNames.length 0

/-! ## The parts of a load make their operations -/

/-- The calls of a list, in order. -/
def Load.exec (s : Load) (ops : List Op) : C Load := ops.foldlM Load.call s

section Exec

variable {mem : Memory} {u : Universe} {s s' : Load} {ops : List Op} {ω : Type} {l : List ω}

theorem bind_congr_ok {α β : Type} {x : C α} {f g : α → C β} (h : ∀ a, x = .ok a → f a = g a) :
    (x >>= f) = (x >>= g) := by
  cases x with
  | error e => rfl
  | ok a => exact h a rfl

theorem exec_cons (op : Op) : s.exec (op :: ops) = (s.call op >>= fun t => t.exec ops) := rfl

theorem exec_singleton (op : Op) : s.exec [op] = s.call op := by
  rw [exec_cons]
  exact bind_ok_self _

theorem exec_append (ops ops' : List Op) :
    s.exec (ops ++ ops') = (s.exec ops >>= fun t => t.exec ops') := List.foldlM_append

/-- The calls made are recorded, and lead to the database. -/
theorem exec_eq_ok (h : s.exec ops = .ok s') :
    run s.db ops = .ok s'.db ∧ s'.calls.map Prod.snd = s.calls.map Prod.snd ++ ops := by
  refine foldlM_simulation (f := Load.call) (R := fun ops t => run s.db ops = .ok t.db ∧
    t.calls.map Prod.snd = s.calls.map Prod.snd ++ ops) ⟨rfl, by simp⟩ ?_ h
  rintro pre op t t' ⟨hrun, hcalls⟩ hstep
  obtain ⟨db, hop, rfl⟩ := Load.call_eq_ok.mp hstep
  exact ⟨foldlM_snoc_eq_ok.mpr ⟨_, hrun, hop⟩, by simp [hcalls]⟩

theorem exists_exec {db : Database} (h : run s.db ops = .ok db) :
    ∃ s', s.exec ops = .ok s' ∧ s'.db = db := by
  induction ops generalizing s with
  | nil => exact ⟨s, rfl, Except.ok.inj h⟩
  | cons op ops ih =>
    obtain ⟨db₁, hop, h⟩ := bind_eq_ok.mp h
    obtain ⟨s', hs', hdb⟩ := ih (s := ⟨db₁, s.calls ++ [(s.db, op)]⟩) h
    refine ⟨s', ?_, hdb⟩
    rw [exec_cons, Load.call_eq_ok.mpr ⟨db₁, hop, rfl⟩]
    exact hs'

/-- A loop whose body makes operations makes the operations of all its rounds. -/
theorem foldlM_exec {I : Load → Prop} {f : Load → ω → C Load} {g : ω → List Op}
    (hI : ∀ s a s', I s → s.exec (g a) = .ok s' → I s')
    (hf : ∀ s, ∀ a ∈ l, I s → f s a = s.exec (g a)) (hs : I s) :
    l.foldlM f s = s.exec (l.flatMap g) := by
  induction l generalizing s with
  | nil => rfl
  | cons a l ih =>
    rw [List.foldlM_cons, List.flatMap_cons, exec_append, hf s a List.mem_cons_self hs]
    refine bind_congr_ok fun t ht => ?_
    exact ih (fun s b hb => hf s b (List.mem_cons_of_mem _ hb)) (hI s a t hs ht)

theorem addKeyRow_eq {k : ℕ} (hu : Shaped u) (hk : k < u.rows)
    (hs : s.db.primaryKeyName = u.keyName) :
    addKeyRow mem u s k = s.exec (keyRowOps mem u k) := by
  rw [addKeyRow, ArrayList.cell_eq (hu.keys k hk), ok_bind, keyRowOps, exec_cons]
  refine bind_congr_ok fun t ht => ?_
  obtain ⟨db, hop, rfl⟩ := Load.call_eq_ok.mp ht
  rw [exec_singleton, (capacities_exec hop).primaryKeyName, hs]
  rfl

theorem addKeys_eq (hu : Shaped u) (hs : s.db.primaryKeyName = u.keyName) :
    (List.range u.keyValues.length).foldlM (addKeyRow mem u) s = s.exec (keyOps mem u) :=
  foldlM_exec (I := fun s => s.db.primaryKeyName = u.keyName)
    (fun _ _ _ hs h => (capacities_run (exec_eq_ok h).1).primaryKeyName.trans hs)
    (fun _ _ hk hs => addKeyRow_eq hu (List.mem_range.mp hk) hs) hs

theorem addSet_eq {set : UniverseSet} (hu : Shaped u) (hset : set ∈ u.sets) :
    addSet s set = s.exec (setOps set) := by
  have hmembers : ∀ t : Load, (List.range set.keyValues.length).foldlM (fun s j => do
      let key ← set.keyValues.cell j 0
      s.call (.addToSet set.name key)) t = t.exec (set.members.map (.addToSet set.name)) := by
    intro t
    rw [foldlM_exec (I := fun _ => True) (g := fun j => [.addToSet set.name
      (set.keyValues.entry j 0)]) (fun _ _ _ _ _ => trivial) (fun s j hj _ => ?_) trivial]
    · rw [UniverseSet.members, List.map_map, ← List.flatMap_pure_eq_map]
      rfl
    · rw [ArrayList.cell_eq (hu.members set hset j (List.mem_range.mp hj)), ok_bind, exec_singleton]
  rw [addSet, setOps, exec_cons]
  exact bind_congr_ok fun t _ => hmembers t

theorem setValues_eq {f : ℕ → Bytes → Payload} {i : ℕ} (hu : Shaped u)
    (hi : i < u.attributeDataNames.length)
    (hf : ∀ k, f k (u.value i k) = payload mem u i k) :
    setValues f u i (u.attrName i) s = s.exec (valueOps mem u i) := by
  rw [setValues, foldlM_exec (I := fun _ => True) (g := fun k => [.setAttribute (u.attrName i)
    (u.key k) (payload mem u i k)]) (fun _ _ _ _ _ => trivial) (fun s k hk _ => ?_) trivial]
  · rw [valueOps, ← List.flatMap_pure_eq_map]
    rfl
  · have hk := List.mem_range.mp hk
    rw [ArrayList.cell_eq (hu.values k hk i hi), ok_bind, ArrayList.cell_eq (hu.keys k hk), ok_bind,
      exec_singleton, ← hf]
    rfl

theorem addAttributesFrom_eq (hu : Shaped u) {n i : ℕ} (hn : i + n = u.attributeDataNames.length) :
    addAttributesFrom mem u n i s =
      (fun t => (t, attributeReturn u n i)) <$> s.exec (attributeOps mem u n i) := by
  induction n generalizing i s with
  | zero => rfl
  | succ n ih =>
    have hi : i < u.attributeDataNames.length := by omega
    have hname : fetch u.attributeDataNames i = .ok (u.attrName i) := by
      simp [fetch, Universe.attrName, hi]
    have htype : fetch u.attributeDataTypeNames i = .ok (u.typeName i) := by
      have hi' : i < u.attributeDataTypeNames.length := hu.types ▸ hi
      simp [fetch, Universe.typeName, hi']
    rw [addAttributesFrom, hname, ok_bind, htype, ok_bind, attributeOps, attributeReturn]
    by_cases hs : u.typeName i = lit "STRING"
    · have hstored : storedType (u.typeName i) = .string := if_pos hs
      rw [if_pos hs, hstored, if_neg (by decide), if_neg (by decide), exec_cons, createOp, hstored,
        if_pos rfl, map_bind]
      refine bind_congr_ok fun t _ => ?_
      have hf : ∀ k, Payload.text (u.value i k) (mem.value k i) = payload mem u i k := fun k => by
        rw [payload, if_pos hstored]
      rw [setValues_eq hu hi hf, exec_append, map_bind]
      exact bind_congr_ok fun t _ => ih (by omega)
    · by_cases hint : u.typeName i = lit "INTEGER"
      · have hstored : storedType (u.typeName i) = .type64 := by rw [storedType, if_neg hs, if_pos hint]
        rw [if_neg hs, if_pos hint, hstored, if_neg (by decide), if_neg (by decide), exec_cons,
          createOp, hstored, if_neg (by decide), map_bind]
        refine bind_congr_ok fun t _ => ?_
        have hf : ∀ k, integerPayload mem i k (u.value i k) = payload mem u i k := fun k => by
          rw [payload, hstored, if_neg (by decide)]
        rw [setValues_eq hu hi hf, exec_append, map_bind]
        exact bind_congr_ok fun t _ => ih (by omega)
      · have hstored : storedType (u.typeName i) = .undefined := by
          rw [storedType, if_neg hs, if_neg hint]
        rw [if_neg hs, if_neg hint, if_pos hstored, if_pos hstored, exec_singleton, createOp, hstored,
          if_neg (by decide)]
        rfl

end Exec

/-! ## A load makes its operations -/

section Load

variable {mem : Memory} {u : Universe} {db₀ : Database} {sets attributes : ℕ} {op : Op}

theorem andThen_map_zero {x : C Load} {rest : Load → C (Load × ℕ)} :
    Load.andThen ((fun s => (s, 0)) <$> x) rest = (x >>= rest) := by
  cases x <;> rfl

theorem mem_keyOps : op ∈ keyOps mem u ↔ ∃ k < u.rows, op = .addKey (u.key k) ∨
    op = .setAttribute u.keyName (u.key k) (.text (u.key k) (mem.key k)) := by
  simp [keyOps, keyRowOps]

theorem mem_setOps {set : UniverseSet} : op ∈ setOps set ↔
    op = .createSet set.name ∨ ∃ k ∈ set.members, op = .addToSet set.name k := by
  simp [setOps, eq_comm]

theorem mem_valueOps {i : ℕ} : op ∈ valueOps mem u i ↔
    ∃ k < u.rows, op = .setAttribute (u.attrName i) (u.key k) (payload mem u i k) := by
  simp [valueOps, eq_comm]

theorem mem_attributeOps {n i : ℕ} (h : op ∈ attributeOps mem u n i) :
    ∃ j, i ≤ j ∧ j < i + n ∧ (op = createOp u j ∨
      storedType (u.typeName j) ≠ .undefined ∧ op ∈ valueOps mem u j) := by
  induction n generalizing i with
  | zero => exact absurd h List.not_mem_nil
  | succ n ih =>
    rw [attributeOps] at h
    split_ifs at h with hstored
    · exact ⟨i, le_rfl, by omega, Or.inl (List.mem_singleton.mp h)⟩
    · rcases List.mem_cons.mp h with rfl | h
      · exact ⟨i, le_rfl, by omega, Or.inl rfl⟩
      · rcases List.mem_append.mp h with h | h
        · exact ⟨i, le_rfl, by omega, Or.inr ⟨hstored, h⟩⟩
        · obtain ⟨j, hle, hlt, hop⟩ := ih h
          exact ⟨j, by omega, by omega, hop⟩

/-- The operations of a load are operations of its parts. -/
theorem mem_loadOps (h : op ∈ loadOps mem u sets attributes) : op ∈ startOps mem u ∨
    (∃ set ∈ u.sets, op ∈ setOps set) ∨
      op ∈ attributeOps mem u u.attributeDataNames.length 0 := by
  rw [loadOps] at h
  split_ifs at h
  · exact Or.inl h
  · rcases List.mem_append.mp h with h | h
    · exact Or.inl h
    · exact Or.inr (Or.inl (List.mem_flatMap.mp h))
  · rcases List.mem_append.mp h with h | h
    · rcases List.mem_append.mp h with h | h
      · exact Or.inl h
      · exact Or.inr (Or.inl (List.mem_flatMap.mp h))
    · exact Or.inr (Or.inr h)

theorem countP_startOps (mem : Memory) (u : Universe) : (startOps mem u).countP Op.addsKey = u.rows ∧
    (startOps mem u).countP Op.createsSet = 0 ∧
    (startOps mem u).countP Op.createsAttribute = 1 := by
  have hkeys : ∀ n, ((List.range n).flatMap (keyRowOps mem u)).countP Op.addsKey = n := by
    intro n
    induction n with
    | zero => rfl
    | succ n ih =>
      rw [List.range_succ, List.flatMap_append, List.countP_append, ih]
      rfl
  refine ⟨?_, List.countP_eq_zero.mpr fun op hop => ?_, ?_⟩
  · rw [startOps, List.countP_cons, keyOps, hkeys]
    rfl
  · rcases List.mem_cons.mp hop with rfl | hop
    · simp [Op.createsSet]
    · obtain ⟨k, -, rfl | rfl⟩ := mem_keyOps.mp hop <;> simp [Op.createsSet]
  · rw [startOps, List.countP_cons, List.countP_eq_zero.mpr fun op hop => ?_]
    · rfl
    · obtain ⟨k, -, rfl | rfl⟩ := mem_keyOps.mp hop <;> simp [Op.createsAttribute]

theorem countP_setsOps (l : List UniverseSet) : (l.flatMap setOps).countP Op.addsKey = 0 ∧
    (l.flatMap setOps).countP Op.createsSet = l.length ∧
    (l.flatMap setOps).countP Op.createsAttribute = 0 := by
  induction l with
  | nil => exact ⟨rfl, rfl, rfl⟩
  | cons set l ih =>
    have hset : (setOps set).countP Op.addsKey = 0 ∧ (setOps set).countP Op.createsSet = 1 ∧
        (setOps set).countP Op.createsAttribute = 0 := by
      have hzero : ∀ p : Op → Bool, (∀ k, p (.addToSet set.name k) = false) →
          (set.members.map (.addToSet set.name)).countP p = 0 := fun p hp =>
        List.countP_eq_zero.mpr fun op hop => by
          obtain ⟨k, -, rfl⟩ := List.mem_map.mp hop
          simp [hp k]
      simp only [setOps, List.countP_cons]
      rw [hzero _ fun _ => rfl, hzero _ fun _ => rfl, hzero _ fun _ => rfl]
      exact ⟨rfl, rfl, rfl⟩
    obtain ⟨h₁, h₂, h₃⟩ := ih
    obtain ⟨h₁', h₂', h₃'⟩ := hset
    simp only [List.flatMap_cons, List.countP_append, List.length_cons]
    omega

theorem countP_attributeOps (mem : Memory) (u : Universe) (n i : ℕ) :
    (attributeOps mem u n i).countP Op.addsKey = 0 ∧
    (attributeOps mem u n i).countP Op.createsSet = 0 ∧
    (attributeOps mem u n i).countP Op.createsAttribute ≤ n := by
  have hzero : ∀ (p : Op → Bool) (i : ℕ), (∀ a k d, p (.setAttribute a k d) = false) →
      (valueOps mem u i).countP p = 0 := fun p i hp =>
    List.countP_eq_zero.mpr fun op hop => by
      obtain ⟨k, -, rfl⟩ := mem_valueOps.mp hop
      simp [hp]
  induction n generalizing i with
  | zero => exact ⟨rfl, rfl, le_rfl⟩
  | succ n ih =>
    rw [attributeOps]
    split_ifs
    · exact ⟨rfl, rfl, Nat.succ_le_succ (Nat.zero_le n)⟩
    · obtain ⟨h₁, h₂, h₃⟩ := ih (i + 1)
      simp only [List.countP_cons, List.countP_append]
      rw [hzero _ _ fun _ _ _ => rfl, hzero _ _ fun _ _ _ => rfl, hzero _ _ fun _ _ _ => rfl, h₁, h₂]
      refine ⟨rfl, rfl, ?_⟩
      simp only [createOp, Op.createsAttribute, if_true]
      omega

/-- The start of a load: a database that is new but for the name of its key column. -/
def loadStart (db₀ : Database) (u : Universe) : Load := ⟨db₀.withKeyColumn u.keyName, []⟩

/-- What the operations of the key column and the keys leave for the sets and the attributes. -/
theorem start_eq_ok {t : Load} (h₀ : createEmptyDB u.rows sets attributes = .ok db₀)
    (hattr : 1 ≤ attributes) (h : (loadStart db₀ u).exec (startOps mem u) = .ok t) :
    t.db.maxSetSize = sets ∧ t.db.setCount = 0 ∧ t.db.maxAttrSize = attributes ∧
      t.db.attrCount = 1 := by
  have hcounts := counts_run (exec_eq_ok h).1
  have hcaps := capacities_run (exec_eq_ok h).1
  rw [startOps, exec_cons] at h
  obtain ⟨t₁, ht₁, h⟩ := bind_eq_ok.mp h
  obtain ⟨db₁, hop, rfl⟩ := Load.call_eq_ok.mp ht₁
  have hge := (counts_run (exec_eq_ok h).1).attrCount_ge
  obtain ⟨hkeys, hsets, hattrs⟩ := countP_startOps mem u
  rw [hkeys, hsets, hattrs] at hcounts
  obtain ⟨_, _, _, -, -, -, rfl⟩ := createEmptyDB_eq_ok h₀
  have hone : db₁.attrCount = 1 := by
    obtain ⟨hbad | hbad | hbad, -⟩ | ⟨-, -, -, table, -, rfl⟩ := dbCreateAttribute_cases hop
    · simp [loadStart, Database.withKeyColumn] at hbad
    · simp [loadStart, Database.withKeyColumn, Database.attrCount] at hbad
      omega
    · exact absurd hbad.2 (by decide)
    · rfl
  refine ⟨hcaps.maxSetSize, ?_, hcaps.maxAttrSize, ?_⟩
  · exact Nat.le_zero.mp hcounts.setCount
  · have hle : t.db.attrCount ≤ 1 := hcounts.attrCount
    simp only at hge
    omega

/-- The key column is opened in a new database. -/
theorem openKeyColumn_first (h₀ : createEmptyDB u.rows sets attributes = .ok db₀)
    (hname : u.keyName.length < dbMaxStringLength) :
    openKeyColumn db₀ u.keyName = (fun s => (s, 0)) <$>
      (loadStart db₀ u).call (.createAttribute u.keyName .string dbMaxStringLength) := by
  obtain ⟨_, _, _, -, -, -, hdb₀⟩ := createEmptyDB_eq_ok h₀
  rw [openKeyColumn, if_pos (by rw [hdb₀]), if_pos hname]
  cases h : Load.call _ _ <;> simp [loadStart, Database.withKeyColumn, h]

/-- Behind the key column there is room for every row, and all rows become keys. -/
theorem dbAddParsedDataKeys_first {t : Load} (hu : Shaped u)
    (h₀ : createEmptyDB u.rows sets attributes = .ok db₀)
    (ht : (loadStart db₀ u).call (.createAttribute u.keyName .string dbMaxStringLength) = .ok t) :
    dbAddParsedDataKeys mem u t = (fun s => (s, 0)) <$> t.exec (keyOps mem u) := by
  obtain ⟨_, _, _, -, -, hm, hdb₀⟩ := createEmptyDB_eq_ok h₀
  have hm := (le_of_tableSize hm).2
  obtain ⟨db, hop, rfl⟩ := Load.call_eq_ok.mp ht
  have hcaps := capacities_exec hop
  have hcount : db.keyCount = 0 := by
    have := (counts_exec hop).keyCount
    rw [hdb₀] at this
    exact Nat.le_zero.mp this
  have hmax : db.maxKeyCount = u.rows := by
    rw [hcaps.maxKeyCount, hdb₀]
    rfl
  rw [dbAddParsedDataKeys, addKeys_eq hu hcaps.primaryKeyName, hcount, hmax,
    uint64Sub_of_le (Nat.zero_le _) (by omega), Nat.sub_zero, Universe.rows, if_neg (lt_irrefl _)]
  rfl

/-- The sets are refused as a whole if they are more than the database holds. -/
theorem dbAddParsedDataSets_first {t : Load} (hu : Shaped u)
    (h₀ : createEmptyDB u.rows sets attributes = .ok db₀) (hattr : 1 ≤ attributes)
    (ht : (loadStart db₀ u).exec (startOps mem u) = .ok t) :
    dbAddParsedDataSets u t = if u.sets.length > sets then .ok (t, 1)
      else (fun s => (s, 0)) <$> t.exec (u.sets.flatMap setOps) := by
  obtain ⟨_, _, _, hs, -, -, -⟩ := createEmptyDB_eq_ok h₀
  have hs := (le_of_tableSize hs).2
  obtain ⟨hmax, hcount, -, -⟩ := start_eq_ok h₀ hattr ht
  rw [dbAddParsedDataSets, hmax, hcount, uint64Sub_of_le (Nat.zero_le _) (by omega), Nat.sub_zero,
    foldlM_exec (I := fun _ => True) (g := setOps) (fun _ _ _ _ _ => trivial)
      (fun s set hset _ => addSet_eq hu hset) trivial]
  rfl

/-- The attributes are refused as a whole if they are more than the database holds beside the key
column. -/
theorem dbAddParsedDataAttributes_first {t t' : Load} (hu : Shaped u)
    (h₀ : createEmptyDB u.rows sets attributes = .ok db₀) (hattr : 1 ≤ attributes)
    (ht : (loadStart db₀ u).exec (startOps mem u) = .ok t)
    (ht' : t.exec (u.sets.flatMap setOps) = .ok t') :
    dbAddParsedDataAttributes mem u t' =
      if u.attributeDataNames.length > attributes - 1 then .ok (t', 1)
      else (fun s => (s, attributeReturn u u.attributeDataNames.length 0)) <$>
        t'.exec (attributeOps mem u u.attributeDataNames.length 0) := by
  obtain ⟨_, _, _, -, ha, -, -⟩ := createEmptyDB_eq_ok h₀
  have ha := (le_of_tableSize ha).2
  obtain ⟨-, -, hmax, hcount⟩ := start_eq_ok h₀ hattr ht
  have hcaps := capacities_run (exec_eq_ok ht').1
  have hcounts := counts_run (exec_eq_ok ht').1
  have hcount' : t'.db.attrCount = 1 := by
    have h₁ := hcounts.attrCount
    have h₂ := hcounts.attrCount_ge
    rw [(countP_setsOps _).2.2] at h₁
    omega
  rw [dbAddParsedDataAttributes, hcaps.maxAttrSize, hmax, hcount',
    uint64Sub_of_le hattr (by omega), addAttributesFrom_eq hu (by omega)]

/-- **A load makes its operations**, in order. -/
theorem dbAddParsedData_eq (hu : Shaped u) (h₀ : createEmptyDB u.rows sets attributes = .ok db₀)
    (hattr : 1 ≤ attributes) (hname : u.keyName.length < dbMaxStringLength) :
    dbAddParsedData mem db₀ u = (fun s => (s, loadReturn u sets attributes)) <$>
      (loadStart db₀ u).exec (loadOps mem u sets attributes) := by
  have hfetch : fetch u.keyDataNames 0 = .ok u.keyName := by
    obtain ⟨name, names, hnames⟩ := List.exists_cons_of_ne_nil hu.keyName
    simp [fetch, Universe.keyName, hnames]
  have hstart : dbAddParsedData mem db₀ u = ((loadStart db₀ u).exec (startOps mem u) >>= fun t =>
      Load.andThen (dbAddParsedDataSets u t) fun s => dbAddParsedDataAttributes mem u s) := by
    rw [dbAddParsedData, hfetch, ok_bind, openKeyColumn_first h₀ hname, andThen_map_zero, startOps,
      exec_cons, bind_assoc]
    refine bind_congr_ok fun t ht => ?_
    rw [dbAddParsedDataKeys_first hu h₀ ht, andThen_map_zero]
  rw [hstart, loadOps, loadReturn]
  split_ifs with hfull hmany
  · cases h : (loadStart db₀ u).exec (startOps mem u) with
    | error e => rfl
    | ok t =>
      rw [ok_bind, dbAddParsedDataSets_first hu h₀ hattr h, if_pos hfull]
      rfl
  · rw [exec_append, map_bind]
    refine bind_congr_ok fun t ht => ?_
    rw [dbAddParsedDataSets_first hu h₀ hattr ht, if_neg hfull, andThen_map_zero]
    cases h : t.exec (u.sets.flatMap setOps) with
    | error e => rfl
    | ok t' =>
      rw [ok_bind, dbAddParsedDataAttributes_first hu h₀ hattr ht h, if_pos hmany]
      rfl
  · rw [exec_append, exec_append, map_bind, bind_assoc]
    refine bind_congr_ok fun t ht => ?_
    rw [dbAddParsedDataSets_first hu h₀ hattr ht, if_neg hfull, andThen_map_zero]
    refine bind_congr_ok fun t' ht' => ?_
    rw [dbAddParsedDataAttributes_first hu h₀ hattr ht ht', if_neg hmany]

end Load

end SetQL
