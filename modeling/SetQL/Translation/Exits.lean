import SetQL.DataStructures.Frame
import SetQL.Translation.Faithful

/-!
# Loads that fail

`db_addParsedData` checks each of its stages before it and undoes nothing, so a load that returns 1
has done the operations of the stages before its exit, and no others. What they store and what they
leave alone is decided by the exit.

## Main definitions

* `Exit`, `Exit.Taken`: the five failure returns of a load, and when each is taken
* `Exit.ops`: the operations of the stages before an exit
* `Exit.Stores`, `Exit.Keeps`: what they have stored, and what is as before
* `Grown db db'`: nothing that the database had is lost

## Main results

* `exit_of_load`: a load that fails takes an exit, and has done the operations before it
* `exit_dbAddParsedData`: these store what they are for, and keep what the exit keeps
-/

namespace SetQL

/-! ## Exits -/

/-- The failure returns of `db_addParsedData`: a key column of another name, too many keys, sets or
attributes, and an attribute whose type is not stored. -/
inductive Exit
  | keyColumn
  | keys
  | sets
  | attributes
  | type (i : ℕ)
  deriving DecidableEq

/-- The database has a key column of another name. -/
def RefusesColumn (db : Database) (u : Universe) : Prop :=
  db.primaryKeyName ≠ [] ∧ db.primaryKeyName ≠ u.keyName

/-- There are more keys than room. -/
def ManyKeys (db : Database) (u : Universe) : Prop :=
  uint64Sub db.maxKeyCount db.keyCount < u.rows

/-- There are more sets than room. -/
def ManySets (db : Database) (u : Universe) : Prop :=
  uint64Sub db.maxSetSize db.setCount < u.sets.length

/-- The load creates the table of the key column. -/
def OpensColumn (db : Database) (u : Universe) : Prop :=
  db.primaryKeyName = [] ∧ stSearch db.attrNamesTable u.keyName = none ∧
    db.attrCount ≠ db.maxAttrSize

instance (db : Database) (u : Universe) : Decidable (OpensColumn db u) :=
  inferInstanceAs (Decidable (_ ∧ _))

/-- There are more attributes than room, the key column counted. -/
def ManyAttributes (db : Database) (u : Universe) : Prop :=
  uint64Sub db.maxAttrSize (db.attrCount + if OpensColumn db u then 1 else 0) <
    u.attributeDataNames.length

/-- The load fails at the exit. -/
def Exit.Taken (db : Database) (u : Universe) : Exit → Prop
  | keyColumn => RefusesColumn db u
  | keys => ¬ RefusesColumn db u ∧ ManyKeys db u
  | sets => ¬ RefusesColumn db u ∧ ¬ ManyKeys db u ∧ ManySets db u
  | attributes =>
    ¬ RefusesColumn db u ∧ ¬ ManyKeys db u ∧ ¬ ManySets db u ∧ ManyAttributes db u
  | type i =>
    ¬ RefusesColumn db u ∧ ¬ ManyKeys db u ∧ ¬ ManySets db u ∧ ¬ ManyAttributes db u ∧
      i < u.attributeDataNames.length ∧ storedType (u.typeName i) = .undefined ∧
      ∀ j < i, storedType (u.typeName j) ≠ .undefined

/-- The operation that opens the key column of a database without one. -/
def openOps (db : Database) (u : Universe) : List Op :=
  if db.primaryKeyName = [] then [.createAttribute u.keyName .string dbMaxStringLength] else []

/-- The operations of the stages before an exit. -/
def Exit.ops (mem : Memory) (db : Database) (u : Universe) : Exit → List Op
  | keyColumn => []
  | keys => openOps db u
  | sets => openOps db u ++ keyOps mem u
  | attributes => openOps db u ++ keyOps mem u ++ u.sets.flatMap setOps
  | type i => openOps db u ++ keyOps mem u ++ u.sets.flatMap setOps ++
    ((List.range i).flatMap (attributeBlock mem u) ++ [createOp u i])

/-- The database that the operations are done on: the key column has its name, unless it was
refused. -/
def Exit.start (db : Database) (u : Universe) : Exit → Database
  | keyColumn => db
  | keys | sets | attributes | type _ => db.withKeyColumn u.keyName

/-- The number of stages that are done at an exit: the key column, the keys and the sets. -/
def Exit.stages : Exit → ℕ
  | keyColumn => 0
  | keys => 1
  | sets => 2
  | attributes | type _ => 3

/-- What the stages before an exit have stored: the keys of the rows, the sets with the listed keys
that the database knows, and the attributes up to the one whose type is not stored. -/
structure Exit.Stores (exit : Exit) (u : Universe) (db' : Database) : Prop where
  keys : 2 ≤ exit.stages → ∀ r < u.rows, u.key r ≠ [] → (stSearch db'.keyTable (u.key r)).isSome
  sets : 3 ≤ exit.stages → ∀ set ∈ u.sets, set.name ≠ [] →
    (stSearch db'.setNamesTable set.name).isSome
  members : 3 ≤ exit.stages → ∀ set ∈ u.sets, set.name ≠ [] → ∀ k ∈ set.members, ∀ d,
    stSearch db'.keyTable k = some d → db'.inSet set.name d.index = true
  attributes : ∀ i, exit = .type i → ∀ j ≤ i, (stSearch db'.attrNamesTable (u.attrName j)).isSome

/-- The columns that a load may have written when it fails at the exit. -/
def Exit.columns (u : Universe) : Exit → List Bytes
  | keyColumn => []
  | keys | sets | attributes => [u.keyName]
  | type i => u.keyName :: (List.range (i + 1)).map u.attrName

/-- What is as before when a load fails at the exit. -/
structure Exit.Keeps (exit : Exit) (u : Universe) (db db' : Database) : Prop where
  whole : exit = .keyColumn ∨ exit = .keys ∧ db.primaryKeyName ≠ [] → db' = db
  name : db.primaryKeyName ≠ [] → db'.primaryKeyName = db.primaryKeyName
  keys : exit = .keyColumn ∨ exit = .keys →
    db'.keyTable = db.keyTable ∧ db'.keyCount = db.keyCount
  sets : exit = .keyColumn ∨ exit = .keys ∨ exit = .sets →
    db'.setNamesTable = db.setNamesTable ∧ db'.sets = db.sets
  tables : ∀ name ∉ exit.columns u, db'.table name = db.table name

/-- Nothing that the database had is lost: keys, sets and attributes keep their indices, sets keep
their members, and tables their shape. -/
structure Grown (db db' : Database) : Prop where
  key : ∀ name d, stSearch db.keyTable name = some d → stSearch db'.keyTable name = some d
  set : ∀ name d, stSearch db.setNamesTable name = some d → stSearch db'.setNamesTable name = some d
  attr : ∀ name d, stSearch db.attrNamesTable name = some d →
    stSearch db'.attrNamesTable name = some d
  member : ∀ set i, db.inSet set i = true → db'.inSet set i = true
  shape : ∀ name attr, db.table name = some attr →
    ∃ attr', db'.table name = some attr' ∧ attr'.shape = attr.shape

/-! ## What operations leave alone -/

/-- The operations that take something away. -/
def Op.removes : Op → Bool
  | removeFromSet .. => true
  | _ => false

section Frame

variable {db db' : Database} {op : Op} {ops : List Op} {name : Bytes}

theorem Grown.refl (db : Database) : Grown db db :=
  ⟨fun _ _ => id, fun _ _ => id, fun _ _ => id, fun _ _ => id, fun _ attr h => ⟨attr, h, rfl⟩⟩

theorem Grown.trans {db₁ db₂ : Database} (h₁ : Grown db db₁) (h₂ : Grown db₁ db₂) :
    Grown db db₂ where
  key := fun name d hd => h₂.key name d (h₁.key name d hd)
  set := fun name d hd => h₂.set name d (h₁.set name d hd)
  attr := fun name d hd => h₂.attr name d (h₁.attr name d hd)
  member := fun set i hi => h₂.member set i (h₁.member set i hi)
  shape := by
    intro name attr hattr
    obtain ⟨attr₁, hattr₁, hshape₁⟩ := h₁.shape name attr hattr
    obtain ⟨attr₂, hattr₂, hshape₂⟩ := h₂.shape name attr₁ hattr₁
    exact ⟨attr₂, hattr₂, hshape₂.trans hshape₁⟩

/-- A member stays a member of a set. -/
theorem member_exec (hinv : Inv db) (hop : op.removes = false) (h : op.exec db = .ok db')
    {set : Bytes} {i : ℕ} (hi : db.inSet set i = true) : db'.inSet set i = true := by
  by_cases hsets : op.updatesSets = true
  · cases op with
    | createSet new =>
      obtain ⟨-, rfl⟩ | ⟨hnew, -, -, table, b, hins, -, rfl⟩ := dbCreateSet_cases h
      · exact hi
      · unfold Database.inSet at hi ⊢
        cases hd : stSearch db.setNamesTable set with
        | none =>
          rw [hd] at hi
          cases hi
        | some d =>
          have hne : set ≠ new := by
            rintro rfl
            rw [hnew] at hd
            cases hd
          rw [hd] at hi
          have hlt := hinv.setNames.index_lt_count hd
          simp only [stSearch_stInsert_of_ne hins hne, hd]
          rw [List.getD_eq_getElem?_getD, List.getElem?_append_left hlt,
            ← List.getD_eq_getElem?_getD]
          exact hi
    | addToSet other key =>
      obtain ⟨-, rfl⟩ | ⟨edata, sdata, b, b', -, hs, hb, hb', rfl⟩ := dbUpdateSet_cases h
      · exact hi
      · obtain ⟨-, -, hbit⟩ := bit_of_bitsetSetBit hb'
        unfold Database.inSet at hi ⊢
        cases hd : stSearch db.setNamesTable set with
        | none =>
          rw [hd] at hi
          cases hi
        | some d =>
          simp only [hd] at hi ⊢
          by_cases heq : sdata.index = d.index
          · rw [← heq, List.getD_eq_getElem?_getD, hb, Option.getD_some] at hi
            have hlt := (List.getElem?_eq_some_iff.mp hb).1
            rw [← heq, List.getD_eq_getElem?_getD, List.getElem?_set_self hlt, Option.getD_some,
              hbit, hi, Bool.or_true]
          · rw [List.getD_eq_getElem?_getD, List.getElem?_set_ne heq, ← List.getD_eq_getElem?_getD]
            exact hi
    | removeFromSet _ _ => cases hop
    | addKey _ | createAttribute _ _ _ | setAttribute _ _ _ => cases hsets
  · rw [Bool.not_eq_true] at hsets
    obtain ⟨hnames, hbits⟩ := sets_exec hsets h
    unfold Database.inSet at hi ⊢
    rw [hnames, hbits]
    exact hi

theorem grown_exec (hinv : Inv db) (hop : op.removes = false) (h : op.exec db = .ok db') :
    Grown db db' := by
  obtain ⟨hkey, hset, hattr⟩ := search_exec h
  exact ⟨hkey, hset, hattr, fun _ _ => member_exec hinv hop h, fun _ _ => shape_exec hinv h⟩

/-- **Over a run without removals nothing is lost.** -/
theorem grown_run (hinv : Inv db) (hops : ∀ op ∈ ops, op.removes = false)
    (h : run db ops = .ok db') : Grown db db' := by
  have hboth := foldlM_invariant (I := fun t => Inv t ∧ Grown db t)
    (fun t op t' hop ht hstep => ⟨inv_exec ht.1 hstep,
      ht.2.trans (grown_exec ht.1 (hops op hop) hstep)⟩) ⟨hinv, Grown.refl db⟩ h
  exact hboth.2

end Frame

/-! ## What operations store -/

section Stored

variable {db db' : Database} {op : Op} {ops : List Op} {name : Bytes}

theorem keyCount_run (h : run db ops = .ok db') : db.keyCount ≤ db'.keyCount :=
  foldlM_invariant (I := fun t => db.keyCount ≤ t.keyCount)
    (fun _ _ _ _ ht hstep => ht.trans (keyCount_exec hstep).1) le_rfl h

/-- An operation of a run that finds its name or adds it makes the name found ever after. -/
theorem found_of_mem (table : Database → SymbolTable) (hinv : Inv db)
    (hcap : db'.keyCount ≤ db'.maxKeyCount)
    (htable : ∀ {t t' ops}, run t ops = .ok t' → ∀ name d, stSearch (table t) name = some d →
      stSearch (table t') name = some d)
    (hadd : ∀ pre post t t', ops = pre ++ op :: post → run db pre = .ok t → op.exec t = .ok t' →
      stSearch (table t) name = none → ∃ index, Adds t op table name index)
    (h : run db ops = .ok db') (hmem : op ∈ ops) : (stSearch (table db') name).isSome := by
  obtain ⟨pre, post, hops⟩ := List.append_of_mem hmem
  rw [hops] at h
  obtain ⟨t, hpre, hrest⟩ := foldlM_append_eq_ok.mp h
  obtain ⟨t', hop, hpost⟩ := bind_eq_ok.mp hrest
  cases hd : stSearch (table t) name with
  | some d => exact Option.isSome_iff_exists.mpr ⟨d, htable hrest name d hd⟩
  | none =>
    obtain ⟨index, hindex⟩ := hadd pre post t t' hops hpre hop hd
    have hcap' : t'.keyCount ≤ t'.maxKeyCount := by
      have hle := keyCount_run hpost
      have hmax := (capacities_run hpost).maxKeyCount
      omega
    have hfound := hindex.found (inv_run hinv hpre) hcap' hop
    exact Option.isSome_iff_exists.mpr ⟨_, htable hpost name _ hfound⟩

/-- A key that is added is found. -/
theorem found_addKey (hinv : Inv db) (hcap : db'.keyCount ≤ db'.maxKeyCount)
    (h : run db ops = .ok db') (hmem : .addKey name ∈ ops) (hne : name ≠ []) :
    (stSearch db'.keyTable name).isSome :=
  found_of_mem Database.keyTable hinv hcap (fun hrun => (search_run hrun).1)
    (fun _ _ _ _ _ _ _ hnew => ⟨_, .key hne hnew⟩) h hmem

/-- A set that is created is found. -/
theorem found_createSet (hinv : Inv db) (hcap : db'.keyCount ≤ db'.maxKeyCount)
    (h : run db ops = .ok db') (hmem : .createSet name ∈ ops) (hne : name ≠ []) :
    (stSearch db'.setNamesTable name).isSome := by
  refine found_of_mem Database.setNamesTable hinv hcap (fun hrun => (search_run hrun).2.1)
    (fun pre post t t' _ _ hop hnew => ?_) h hmem
  obtain ⟨hbad, -⟩ | ⟨-, -, hroom, -⟩ := dbCreateSet_cases hop
  · simp [hne, hnew] at hbad
  · exact ⟨_, .set hne hnew hroom⟩

/-- An attribute that is created is found, when there is room for all that are created. -/
theorem found_createAttribute {type : AttrType} {size : ℤ} (hinv : Inv db)
    (hcap : db'.keyCount ≤ db'.maxKeyCount) (h : run db ops = .ok db')
    (hroom : db.attrCount + ops.countP Op.createsAttribute ≤ db.maxAttrSize)
    (hsize : ¬ (type = .string ∧ size < 1)) (hmem : .createAttribute name type size ∈ ops) :
    (stSearch db'.attrNamesTable name).isSome := by
  refine found_of_mem Database.attrNamesTable hinv hcap
    (fun hrun => (search_run hrun).2.2) (fun pre post t t' hops hpre _ hnew => ?_) h hmem
  have hcount := (counts_run hpre).attrCount
  have hmax := (capacities_run hpre).maxAttrSize
  have hlt : pre.countP Op.createsAttribute < ops.countP Op.createsAttribute := by
    rw [hops, List.countP_append, List.countP_cons_of_pos rfl]
    omega
  exact ⟨_, .attr hnew (by omega) hsize⟩

/-- The keys that a set lists and the database knows become its members. -/
theorem member_setOps {set : UniverseSet} {k : Bytes} {d : TableData} (hinv : Inv db)
    (hcap : db'.keyCount ≤ db'.maxKeyCount) (h : run db (setOps set) = .ok db')
    (hne : set.name ≠ []) (hk : k ∈ set.members) (hd : stSearch db.keyTable k = some d) :
    db'.inSet set.name d.index = true := by
  obtain ⟨m₁, m₂, hm⟩ := List.append_of_mem hk
  have hops : setOps set = (.createSet set.name :: m₁.map (.addToSet set.name)) ++
      .addToSet set.name k :: m₂.map (.addToSet set.name) := by
    rw [setOps, hm]
    simp
  rw [hops] at h
  obtain ⟨t, hpre, hrest⟩ := foldlM_append_eq_ok.mp h
  obtain ⟨t', hop, hpost⟩ := bind_eq_ok.mp hrest
  have hinv' := inv_exec (inv_run hinv hpre) hop
  have hgrown := grown_run hinv' (fun op hmem => by
    obtain ⟨_, -, rfl⟩ := List.mem_map.mp hmem
    rfl) hpost
  refine hgrown.member _ _ ?_
  have hkey : stSearch t.keyTable k = some d := (search_run hpre).1 k d hd
  have hcap' : t.keyCount ≤ t.maxKeyCount := by
    have hle := keyCount_run hrest
    have hmax := (capacities_run hrest).maxKeyCount
    omega
  have hset := found_createSet hinv hcap' hpre List.mem_cons_self hne
  obtain ⟨hbad, -⟩ | ⟨edata, sdata, b, b', hkey', hset', hb, hb', rfl⟩ := dbUpdateSet_cases hop
  · rw [hkey] at hbad
    obtain hbad | hbad := hbad
    · cases hbad
    · rw [hbad] at hset
      cases hset
  · obtain rfl : d = edata := Option.some.inj (hkey.symm.trans hkey')
    obtain ⟨-, -, hbit⟩ := bit_of_bitsetSetBit hb'
    have hlt := (List.getElem?_eq_some_iff.mp hb).1
    unfold Database.inSet
    simp only [hset']
    rw [List.getD_eq_getElem?_getD, List.getElem?_set_self hlt, Option.getD_some, hbit]
    simp

end Stored

/-! ## The stages make their operations -/

section Stages

variable {mem : Memory} {u : Universe} {db : Database} {s s' : Load} {ret : ℕ}

theorem ArrayList.entry_of_cell {values : ArrayList} {i j : ℕ} {b : Bytes}
    (h : values.cell i j = .ok b) : values.entry i j = b := by
  rw [entry, h]

/-- A loop whose body has made operations has made those of all its rounds. -/
theorem exec_of_foldlM {I : Load → Prop} {ω : Type} {l : List ω} {f : Load → ω → C Load}
    {g : ω → List Op} (hI : ∀ t a t', I t → t.exec (g a) = .ok t' → I t')
    (hf : ∀ t a t', I t → f t a = .ok t' → t.exec (g a) = .ok t') (hs : I s)
    (h : l.foldlM f s = .ok s') : s.exec (l.flatMap g) = .ok s' := by
  induction l generalizing s with
  | nil => exact h
  | cons a l ih =>
    obtain ⟨t, ht, h⟩ := bind_eq_ok.mp h
    have hexec := hf s a t hs ht
    rw [List.flatMap_cons, exec_append, hexec]
    exact ih (hI s a t hs hexec) h

theorem exec_of_addKeys (hs : s.db.primaryKeyName = u.keyName)
    (h : (List.range u.rows).foldlM (addKeyRow mem u) s = .ok s') :
    s.exec (keyOps mem u) = .ok s' := by
  refine exec_of_foldlM (I := fun t => t.db.primaryKeyName = u.keyName)
    (fun t k t' ht hexec => ?_) (fun t k t' ht hstep => ?_) hs h
  · exact (capacities_run (exec_eq_ok hexec).1).primaryKeyName.trans ht
  · obtain ⟨key, hkey, hstep⟩ := bind_eq_ok.mp hstep
    obtain ⟨t₁, hadd, hset⟩ := bind_eq_ok.mp hstep
    obtain rfl : u.key k = key := ArrayList.entry_of_cell hkey
    obtain ⟨db₁, hop, rfl⟩ := Load.call_eq_ok.mp hadd
    rw [(capacities_exec hop).primaryKeyName, ht] at hset
    rw [keyRowOps, exec_cons, hadd, ok_bind, exec_singleton]
    exact hset

theorem exec_of_addSet {set : UniverseSet} (h : addSet s set = .ok s') :
    s.exec (setOps set) = .ok s' := by
  obtain ⟨t, hcreate, h⟩ := bind_eq_ok.mp h
  rw [setOps, exec_cons, hcreate, ok_bind, UniverseSet.members, List.map_map,
    ← List.flatMap_pure_eq_map]
  refine exec_of_foldlM (I := fun _ => True) (fun _ _ _ _ _ => trivial)
    (fun t j t' _ hstep => ?_) trivial h
  obtain ⟨key, hkey, hstep⟩ := bind_eq_ok.mp hstep
  obtain rfl := ArrayList.entry_of_cell hkey
  exact (exec_singleton _).trans hstep

theorem exec_of_setValues {f : ℕ → Bytes → Payload} {i : ℕ}
    (hf : ∀ k, f k (u.value i k) = payload mem u i k)
    (h : setValues f u i (u.attrName i) s = .ok s') : s.exec (valueOps mem u i) = .ok s' := by
  rw [valueOps, ← List.flatMap_pure_eq_map]
  refine exec_of_foldlM (I := fun _ => True) (fun _ _ _ _ _ => trivial)
    (fun t k t' _ hstep => ?_) trivial h
  obtain ⟨value, hvalue, hstep⟩ := bind_eq_ok.mp hstep
  obtain ⟨key, hkey, hstep⟩ := bind_eq_ok.mp hstep
  obtain rfl : u.value i k = value := ArrayList.entry_of_cell hvalue
  obtain rfl : u.key k = key := ArrayList.entry_of_cell hkey
  rw [hf] at hstep
  exact (exec_singleton _).trans hstep

theorem attrName_of_fetch {i : ℕ} {uname : Bytes} (h : fetch u.attributeDataNames i = .ok uname) :
    u.attrName i = uname := by
  rw [Universe.attrName, List.getD_eq_getElem?_getD, fetch_eq_ok.mp h, Option.getD_some]

theorem typeName_of_fetch {i : ℕ} {utype : Bytes}
    (h : fetch u.attributeDataTypeNames i = .ok utype) : u.typeName i = utype := by
  rw [Universe.typeName, List.getD_eq_getElem?_getD, fetch_eq_ok.mp h, Option.getD_some]

theorem exec_of_addAttributesFrom {n i : ℕ} (h : addAttributesFrom mem u n i s = .ok (s', ret)) :
    s.exec (attributeOps mem u n i) = .ok s' ∧ ret = attributeReturn u n i := by
  induction n generalizing i s with
  | zero =>
    obtain ⟨rfl, rfl⟩ := Prod.mk.inj (Except.ok.inj h)
    exact ⟨rfl, rfl⟩
  | succ n ih =>
    obtain ⟨uname, hname, h⟩ := bind_eq_ok.mp h
    obtain ⟨utype, htype, h⟩ := bind_eq_ok.mp h
    obtain rfl := attrName_of_fetch hname
    obtain rfl := typeName_of_fetch htype
    rw [attributeOps, attributeReturn]
    split_ifs at h with hstring hinteger
    · have hstored : storedType (u.typeName i) = .string := if_pos hstring
      obtain ⟨t₁, hcreate, h⟩ := bind_eq_ok.mp h
      obtain ⟨t₂, hset, h⟩ := bind_eq_ok.mp h
      obtain ⟨hrest, hret⟩ := ih h
      have hvalues : t₁.exec (valueOps mem u i) = .ok t₂ :=
        exec_of_setValues (fun k => by rw [payload, if_pos hstored]) hset
      rw [hstored, if_neg (by decide), if_neg (by decide), exec_cons, createOp, hstored, if_pos rfl,
        hcreate, ok_bind, exec_append, hvalues]
      exact ⟨hrest, hret⟩
    · have hstored : storedType (u.typeName i) = .type64 := by
        rw [storedType, if_neg hstring, if_pos hinteger]
      obtain ⟨t₁, hcreate, h⟩ := bind_eq_ok.mp h
      obtain ⟨t₂, hset, h⟩ := bind_eq_ok.mp h
      obtain ⟨hrest, hret⟩ := ih h
      have hvalues : t₁.exec (valueOps mem u i) = .ok t₂ :=
        exec_of_setValues (fun k => by rw [payload, hstored, if_neg (by decide)]) hset
      rw [hstored, if_neg (by decide), if_neg (by decide), exec_cons, createOp, hstored,
        if_neg (by decide), hcreate, ok_bind, exec_append, hvalues]
      exact ⟨hrest, hret⟩
    · have hstored : storedType (u.typeName i) = .undefined := by
        rw [storedType, if_neg hstring, if_neg hinteger]
      obtain ⟨t₁, hcreate, h⟩ := bind_eq_ok.mp h
      obtain ⟨rfl, rfl⟩ := Prod.mk.inj (Except.ok.inj h)
      rw [if_pos hstored, if_pos hstored, exec_singleton, createOp, hstored, if_neg (by decide)]
      exact ⟨hcreate, rfl⟩

/-- The key column is refused as it is, or opened. -/
theorem openKeyColumn_cases (h : openKeyColumn db u.keyName = .ok (s, ret)) :
    (ret = 1 ∧ RefusesColumn db u ∧ s.db = db) ∨
      (ret = 0 ∧ ¬ RefusesColumn db u ∧ (loadStart db u).exec (openOps db u) = .ok s) := by
  rw [openKeyColumn] at h
  split_ifs at h with hnew hlen hother
  · obtain ⟨t, hcreate, h⟩ := bind_eq_ok.mp h
    obtain ⟨rfl, rfl⟩ := Prod.mk.inj (Except.ok.inj h)
    refine Or.inr ⟨rfl, fun hrefuse => hrefuse.1 hnew, ?_⟩
    rw [openOps, if_pos hnew, exec_singleton]
    exact hcreate
  · obtain ⟨rfl, rfl⟩ := Prod.mk.inj (Except.ok.inj h)
    exact Or.inl ⟨rfl, ⟨hnew, hother⟩, rfl⟩
  · obtain ⟨rfl, rfl⟩ := Prod.mk.inj (Except.ok.inj h)
    have hsame : db.primaryKeyName = u.keyName := not_not.mp hother
    refine Or.inr ⟨rfl, fun hrefuse => hrefuse.2 hsame, ?_⟩
    rw [openOps, if_neg hnew, loadStart, Database.withKeyColumn, ← hsame]
    rfl

/-- The keys are refused as a whole, or all added. -/
theorem dbAddParsedDataKeys_cases (hs : s.db.primaryKeyName = u.keyName)
    (h : dbAddParsedDataKeys mem u s = .ok (s', ret)) :
    (ret = 1 ∧ ManyKeys s.db u ∧ s' = s) ∨
      (ret = 0 ∧ ¬ ManyKeys s.db u ∧ s.exec (keyOps mem u) = .ok s') := by
  rw [dbAddParsedDataKeys] at h
  split_ifs at h with hmany
  · obtain ⟨rfl, rfl⟩ := Prod.mk.inj (Except.ok.inj h)
    exact Or.inl ⟨rfl, hmany, rfl⟩
  · obtain ⟨t, hloop, h⟩ := bind_eq_ok.mp h
    obtain ⟨rfl, rfl⟩ := Prod.mk.inj (Except.ok.inj h)
    exact Or.inr ⟨rfl, hmany, exec_of_addKeys hs hloop⟩

/-- The sets are refused as a whole, or all added. -/
theorem dbAddParsedDataSets_cases (h : dbAddParsedDataSets u s = .ok (s', ret)) :
    (ret = 1 ∧ ManySets s.db u ∧ s' = s) ∨
      (ret = 0 ∧ ¬ ManySets s.db u ∧ s.exec (u.sets.flatMap setOps) = .ok s') := by
  rw [dbAddParsedDataSets] at h
  split_ifs at h with hmany
  · obtain ⟨rfl, rfl⟩ := Prod.mk.inj (Except.ok.inj h)
    exact Or.inl ⟨rfl, hmany, rfl⟩
  · obtain ⟨t, hloop, h⟩ := bind_eq_ok.mp h
    obtain ⟨rfl, rfl⟩ := Prod.mk.inj (Except.ok.inj h)
    have hexec := exec_of_foldlM (I := fun _ => True) (fun _ _ _ _ _ => trivial)
      (fun t set t' _ hstep => exec_of_addSet hstep) trivial hloop
    exact Or.inr ⟨rfl, hmany, hexec⟩

/-- Attributes that fail are refused as a whole, or added up to the first one whose type is not
stored. -/
theorem dbAddParsedDataAttributes_cases (h : dbAddParsedDataAttributes mem u s = .ok (s', 1)) :
    (uint64Sub s.db.maxAttrSize s.db.attrCount < u.attributeDataNames.length ∧ s' = s) ∨
      ¬ uint64Sub s.db.maxAttrSize s.db.attrCount < u.attributeDataNames.length ∧
        ∃ i < u.attributeDataNames.length, storedType (u.typeName i) = .undefined ∧
          (∀ j < i, storedType (u.typeName j) ≠ .undefined) ∧
          s.exec ((List.range i).flatMap (attributeBlock mem u) ++ [createOp u i]) = .ok s' := by
  rw [dbAddParsedDataAttributes] at h
  split_ifs at h with hmany
  · obtain ⟨rfl, -⟩ := Prod.mk.inj (Except.ok.inj h)
    exact Or.inl ⟨hmany, rfl⟩
  · obtain ⟨hexec, hret⟩ := exec_of_addAttributesFrom h
    obtain ⟨i, hi, hbefore, hundef, hops⟩ :=
      exists_attributeOps_eq mem u u.attributeDataNames.length 0
    simp only [Nat.zero_add] at hbefore hundef hops
    have hlt : i < u.attributeDataNames.length := by
      refine Nat.lt_of_le_of_ne hi fun heq => ?_
      rw [attributeReturn_eq_zero fun j _ hj => hbefore j (by omega)] at hret
      exact absurd hret (by decide)
    rw [hops, if_pos hlt] at hexec
    exact Or.inr ⟨hmany, i, hlt, hundef hlt, hbefore, hexec⟩

theorem attrCount_run {t t' : Database} {ops : List Op}
    (hops : ∀ op ∈ ops, op.createsAttribute = false) (h : run t ops = .ok t') :
    t'.attrCount = t.attrCount := by
  have hcounts := counts_run h
  have hzero : ops.countP Op.createsAttribute = 0 :=
    List.countP_eq_zero.mpr fun op hop => by simp [hops op hop]
  rw [hzero] at hcounts
  exact Nat.le_antisymm hcounts.attrCount hcounts.attrCount_ge

/-- The number of attributes once the key column is open. -/
theorem attrCount_openOps {t : Database}
    (h : run (db.withKeyColumn u.keyName) (openOps db u) = .ok t) :
    t.attrCount = db.attrCount + if OpensColumn db u then 1 else 0 := by
  rw [openOps] at h
  split_ifs at h with hnew
  · obtain ⟨t', hop, h⟩ := bind_eq_ok.mp h
    obtain rfl := Except.ok.inj h
    obtain ⟨hkept, rfl⟩ | ⟨hfresh, hroom, -, _, -, rfl⟩ := dbCreateAttribute_cases hop
    · have hno : ¬ OpensColumn db u := by
        rintro ⟨-, hfresh, hroom⟩
        rcases hkept with hkept | hkept | hkept
        · rw [show stSearch (db.withKeyColumn u.keyName).attrNamesTable u.keyName = none from
            hfresh] at hkept
          cases hkept
        · exact hroom hkept
        · exact absurd hkept.2 (by decide)
      rw [if_neg hno]
      rfl
    · rw [if_pos ⟨hnew, hfresh, hroom⟩]
      simp [Database.attrCount, Database.withKeyColumn]
  · obtain rfl := Except.ok.inj h
    rw [if_neg fun hopens : OpensColumn db u => hnew hopens.1]
    rfl

/-- The number of attributes when the sets are done. -/
theorem attrCount_setsOps {t : Database} (h : run (db.withKeyColumn u.keyName)
    (openOps db u ++ keyOps mem u ++ u.sets.flatMap setOps) = .ok t) :
    t.attrCount = db.attrCount + if OpensColumn db u then 1 else 0 := by
  obtain ⟨t₂, h₂, h₃⟩ := foldlM_append_eq_ok.mp h
  obtain ⟨t₁, h₁, h₂⟩ := foldlM_append_eq_ok.mp h₂
  have hkeys := attrCount_run (fun op hop => by
    obtain ⟨k, -, rfl | rfl⟩ := mem_keyOps.mp hop <;> rfl) h₂
  have hsets := attrCount_run (fun op hop => by
    obtain ⟨set, -, hop⟩ := List.mem_flatMap.mp hop
    obtain rfl | ⟨k, -, rfl⟩ := mem_setOps.mp hop <;> rfl) h₃
  rw [hsets, hkeys, attrCount_openOps h₁]

end Stages

/-! ## Failed loads -/

/-- The operations that leave alone what an exit keeps. -/
structure Exit.Allows (exit : Exit) (u : Universe) (op : Op) : Prop where
  removes : op.removes = false
  keys : exit = .keys → op.addsKey = false
  sets : exit = .keys ∨ exit = .sets → op.updatesSets = false
  column : ∀ name, op.column = some name → name ∈ exit.columns u

section Failed

variable {mem : Memory} {u : Universe} {db db' : Database} {s : Load} {exit : Exit}

theorem Exit.keyName_mem_columns (hexit : 1 ≤ exit.stages) : u.keyName ∈ exit.columns u := by
  cases exit with
  | keyColumn => exact absurd hexit (by decide)
  | keys | sets | attributes | type i => exact List.mem_cons_self

theorem allows_openOps (hexit : 1 ≤ exit.stages) {op : Op} (hop : op ∈ openOps db u) :
    exit.Allows u op := by
  have hcolumn := Exit.keyName_mem_columns (u := u) hexit
  rw [openOps] at hop
  split_ifs at hop
  · obtain rfl := List.mem_singleton.mp hop
    exact ⟨rfl, fun _ => rfl, fun _ => rfl, fun name hname => Option.some.inj hname ▸ hcolumn⟩
  · cases hop

theorem allows_keyOps (hexit : 2 ≤ exit.stages) {op : Op} (hop : op ∈ keyOps mem u) :
    exit.Allows u op := by
  have hcolumn : u.keyName ∈ exit.columns u := Exit.keyName_mem_columns (by omega)
  have hkeys : exit ≠ .keys := by
    rintro rfl
    exact absurd hexit (by decide)
  obtain ⟨k, -, rfl | rfl⟩ := mem_keyOps.mp hop
  · exact ⟨rfl, fun h => absurd h hkeys, fun _ => rfl, fun name hname => by cases hname⟩
  · exact ⟨rfl, fun _ => rfl, fun _ => rfl, fun name hname => Option.some.inj hname ▸ hcolumn⟩

theorem allows_setOps (hexit : 3 ≤ exit.stages) {set : UniverseSet} {op : Op}
    (hop : op ∈ setOps set) : exit.Allows u op := by
  have hsets : ¬ (exit = .keys ∨ exit = .sets) := by
    rintro (rfl | rfl) <;> exact absurd hexit (by decide)
  obtain rfl | ⟨k, -, rfl⟩ := mem_setOps.mp hop <;>
    exact ⟨rfl, fun _ => rfl, fun h => absurd h hsets, fun name hname => by cases hname⟩

theorem allows_attributeBlock {i j : ℕ} (hj : j ≤ i) {op : Op}
    (hop : op ∈ attributeBlock mem u j) : (Exit.type i).Allows u op := by
  have hcolumn : u.attrName j ∈ (Exit.type i).columns u :=
    List.mem_cons_of_mem _ (List.mem_map_of_mem (List.mem_range.mpr (Nat.lt_succ_of_le hj)))
  rcases mem_attributeBlock.mp hop with rfl | hop
  · exact ⟨rfl, fun _ => rfl, fun _ => rfl, fun name hname => Option.some.inj hname ▸ hcolumn⟩
  · obtain ⟨k, -, rfl⟩ := mem_valueOps.mp hop
    exact ⟨rfl, fun _ => rfl, fun _ => rfl, fun name hname => Option.some.inj hname ▸ hcolumn⟩

/-- The operations before an exit leave alone what it keeps. -/
theorem Exit.allows_ops {op : Op} (hop : op ∈ exit.ops mem db u) : exit.Allows u op := by
  have hsets : ∀ {exit : Exit} {op : Op}, 3 ≤ exit.stages →
      op ∈ openOps db u ++ keyOps mem u ++ u.sets.flatMap setOps → exit.Allows u op := by
    intro exit op hexit hop
    rcases List.mem_append.mp hop with hop | hop
    · rcases List.mem_append.mp hop with hop | hop
      · exact allows_openOps (by omega) hop
      · exact allows_keyOps (by omega) hop
    · obtain ⟨set, -, hop⟩ := List.mem_flatMap.mp hop
      exact allows_setOps hexit hop
  cases exit with
  | keyColumn => cases hop
  | keys => exact allows_openOps (by decide) hop
  | sets =>
    rcases List.mem_append.mp hop with hop | hop
    · exact allows_openOps (by decide) hop
    · exact allows_keyOps le_rfl hop
  | attributes => exact hsets le_rfl hop
  | type i =>
    rcases List.mem_append.mp hop with hop | hop
    · exact hsets le_rfl hop
    · rcases List.mem_append.mp hop with hop | hop
      · obtain ⟨j, hj, hop⟩ := List.mem_flatMap.mp hop
        exact allows_attributeBlock (List.mem_range.mp hj).le hop
      · have hblock : op ∈ attributeBlock mem u i :=
          mem_attributeBlock.mpr (Or.inl (List.mem_singleton.mp hop))
        exact allows_attributeBlock le_rfl hblock

/-- Opening the key column leaves the room for keys. -/
theorem manyKeys_openOps {t : Database}
    (h : run (db.withKeyColumn u.keyName) (openOps db u) = .ok t) :
    ManyKeys t u ↔ ManyKeys db u := by
  have hallows : ∀ op ∈ openOps db u, Exit.keys.Allows u op := fun op =>
    allows_openOps (by decide)
  have hkeys := keys_run (fun op hop => (hallows op hop).keys rfl) h
  rw [ManyKeys, (capacities_run h).maxKeyCount, hkeys.2]
  rfl

/-- The stages before the sets leave the room for sets. -/
theorem manySets_keyOps {t : Database}
    (h : run (db.withKeyColumn u.keyName) (openOps db u ++ keyOps mem u) = .ok t) :
    ManySets t u ↔ ManySets db u := by
  have hallows : ∀ op ∈ Exit.sets.ops mem db u, Exit.sets.Allows u op := fun op => Exit.allows_ops
  have hsets := sets_run (fun op hop => (hallows op hop).sets (Or.inr rfl)) h
  rw [ManySets, Database.setCount, (capacities_run h).maxSetSize, hsets.2]
  rfl

/-- The stages before the attributes take the room of the key column only. -/
theorem manyAttributes_setOps {t : Database} (h : run (db.withKeyColumn u.keyName)
    (openOps db u ++ keyOps mem u ++ u.sets.flatMap setOps) = .ok t) :
    uint64Sub t.maxAttrSize t.attrCount < u.attributeDataNames.length ↔ ManyAttributes db u := by
  rw [(capacities_run h).maxAttrSize, attrCount_setsOps h]
  rfl

theorem inv_start (hinv : Inv db) : Inv (exit.start db u) := by
  cases exit with
  | keyColumn => exact hinv
  | keys | sets | attributes | type i => exact inv_withKeyColumn hinv _

/-- A database that has its key column starts as it is. -/
theorem start_eq (h : exit.Taken db u) (hname : db.primaryKeyName ≠ []) :
    exit.start db u = db := by
  cases exit with
  | keyColumn => rfl
  | keys | sets | attributes | type i =>
    have hsame : db.primaryKeyName = u.keyName := not_not.mp fun hother => h.1 ⟨hname, hother⟩
    rw [Exit.start, Database.withKeyColumn, ← hsame]

/-- Nothing is lost at an exit. -/
theorem grown_of_run (hinv : Inv db) (h : run (exit.start db u) (exit.ops mem db u) = .ok db') :
    Grown db db' := by
  have hgrown := grown_run (inv_start hinv) (fun op hop => (Exit.allows_ops hop).removes) h
  cases exit with
  | keyColumn => exact hgrown
  | keys | sets | attributes | type i =>
    exact ⟨hgrown.key, hgrown.set, hgrown.attr, hgrown.member, hgrown.shape⟩

/-- What an exit keeps is as before. -/
theorem keeps_of_run (hinv : Inv db) (htaken : exit.Taken db u)
    (h : run (exit.start db u) (exit.ops mem db u) = .ok db') : exit.Keeps u db db' := by
  refine ⟨?_, fun hname => ?_, ?_, ?_, fun name hname => ?_⟩
  · rintro (rfl | ⟨rfl, hname⟩)
    · exact (Except.ok.inj h).symm
    · rw [start_eq htaken hname, Exit.ops, openOps, if_neg hname] at h
      exact (Except.ok.inj h).symm
  · rw [(capacities_run h).primaryKeyName, start_eq htaken hname]
  · rintro (rfl | rfl)
    · obtain rfl := Except.ok.inj h
      exact ⟨rfl, rfl⟩
    · have hkeys := keys_run (fun op hop => (Exit.allows_ops hop).keys rfl) h
      exact hkeys
  · rintro (rfl | rfl | rfl)
    · obtain rfl := Except.ok.inj h
      exact ⟨rfl, rfl⟩
    · have hsets := sets_run (fun op hop => (Exit.allows_ops hop).sets (Or.inl rfl)) h
      exact hsets
    · have hsets := sets_run (fun op hop => (Exit.allows_ops hop).sets (Or.inr rfl)) h
      exact hsets
  · have htable := table_run (inv_start hinv)
      (fun op hop heq => hname ((Exit.allows_ops hop).column name heq)) h
    cases exit <;> exact htable

/-- **A load that fails takes one of the five exits, and has done the operations before it.** -/
theorem exit_of_load (h : dbAddParsedData mem db u = .ok (s, 1)) : ∃ exit : Exit,
    exit.Taken db u ∧ run (exit.start db u) (exit.ops mem db u) = .ok s.db := by
  obtain ⟨uname, hname, h⟩ := bind_eq_ok.mp h
  obtain rfl : u.keyName = uname := by
    rw [Universe.keyName, List.headD_eq_head?_getD, List.head?_eq_getElem?, fetch_eq_ok.mp hname,
      Option.getD_some]
  -- the key column
  obtain ⟨s₁, ret₁, hopen, h₁⟩ := Load.andThen_eq_ok.mp h
  obtain ⟨rfl, hrefuse, hdb⟩ | ⟨rfl, hrefuse, hexec₁⟩ := openKeyColumn_cases hopen
  · obtain ⟨-, hend⟩ | ⟨hret, -⟩ := h₁
    · obtain ⟨rfl, -⟩ := Prod.mk.inj hend
      exact ⟨.keyColumn, hrefuse, congrArg Except.ok hdb.symm⟩
    · cases hret
  obtain ⟨hret, -⟩ | ⟨-, h₁⟩ := h₁
  · exact absurd rfl hret
  have hrun₁ := (exec_eq_ok hexec₁).1
  have hmanyKeys := manyKeys_openOps hrun₁
  -- the keys
  obtain ⟨s₂, ret₂, hkeys, h₂⟩ := Load.andThen_eq_ok.mp h₁
  obtain ⟨rfl, hmany, rfl⟩ | ⟨rfl, hmany, hexec₂⟩ :=
    dbAddParsedDataKeys_cases (capacities_run hrun₁).primaryKeyName hkeys
  · obtain ⟨-, hend⟩ | ⟨hret, -⟩ := h₂
    · obtain ⟨rfl, -⟩ := Prod.mk.inj hend
      exact ⟨.keys, ⟨hrefuse, hmanyKeys.mp hmany⟩, hrun₁⟩
    · cases hret
  obtain ⟨hret, -⟩ | ⟨-, h₂⟩ := h₂
  · exact absurd rfl hret
  have hfit := fun hm => hmany (hmanyKeys.mpr hm)
  have hboth := foldlM_append_eq_ok.mpr ⟨_, hrun₁, (exec_eq_ok hexec₂).1⟩
  have hmanySets := manySets_keyOps hboth
  -- the sets
  obtain ⟨s₃, ret₃, hsets, h₃⟩ := Load.andThen_eq_ok.mp h₂
  obtain ⟨rfl, hmany', rfl⟩ | ⟨rfl, hmany', hexec₃⟩ := dbAddParsedDataSets_cases hsets
  · obtain ⟨-, hend⟩ | ⟨hret, -⟩ := h₃
    · obtain ⟨rfl, -⟩ := Prod.mk.inj hend
      exact ⟨.sets, ⟨hrefuse, hfit, hmanySets.mp hmany'⟩, hboth⟩
    · cases hret
  obtain ⟨hret, -⟩ | ⟨-, h₃⟩ := h₃
  · exact absurd rfl hret
  have hfit' := fun hm => hmany' (hmanySets.mpr hm)
  have hall := foldlM_append_eq_ok.mpr ⟨_, hboth, (exec_eq_ok hexec₃).1⟩
  have hmanyAttrs := manyAttributes_setOps hall
  -- the attributes
  obtain ⟨hmany'', rfl⟩ | ⟨hmany'', i, hi, hundef, hbefore, hexec₄⟩ :=
    dbAddParsedDataAttributes_cases h₃
  · exact ⟨.attributes, ⟨hrefuse, hfit, hfit', hmanyAttrs.mp hmany''⟩, hall⟩
  · have hfit'' := fun hm => hmany'' (hmanyAttrs.mpr hm)
    exact ⟨.type i, ⟨hrefuse, hfit, hfit', hfit'', hi, hundef, hbefore⟩,
      foldlM_append_eq_ok.mpr ⟨_, hall, (exec_eq_ok hexec₄).1⟩⟩

/-- Where the sets are done, what follows them adds no key. -/
theorem Exit.exists_ops_eq (mem : Memory) (db : Database) (u : Universe)
    (hexit : 3 ≤ exit.stages) : ∃ rest, exit.ops mem db u =
      openOps db u ++ keyOps mem u ++ u.sets.flatMap setOps ++ rest ∧
        ∀ op ∈ rest, op.addsKey = false := by
  cases exit with
  | keyColumn | keys | sets => exact absurd hexit (by decide)
  | attributes => exact ⟨[], (List.append_nil _).symm, fun op hop => by cases hop⟩
  | type i =>
    refine ⟨_, rfl, fun op hop => ?_⟩
    rcases List.mem_append.mp hop with hop | hop
    · obtain ⟨j, -, hop⟩ := List.mem_flatMap.mp hop
      rcases mem_attributeBlock.mp hop with rfl | hop
      · rfl
      · obtain ⟨k, -, rfl⟩ := mem_valueOps.mp hop
        rfl
    · obtain rfl := List.mem_singleton.mp hop
      rfl

theorem Exit.mem_ops_of_mem_keyOps (hexit : 2 ≤ exit.stages) {op : Op} (hop : op ∈ keyOps mem u) :
    op ∈ exit.ops mem db u := by
  cases exit with
  | keyColumn | keys => exact absurd hexit (by decide)
  | sets => exact List.mem_append_right _ hop
  | attributes => exact List.mem_append_left _ (List.mem_append_right _ hop)
  | type i =>
    exact List.mem_append_left _ (List.mem_append_left _ (List.mem_append_right _ hop))

theorem members_of_run (hinv : Inv db) (hcap : db'.keyCount ≤ db'.maxKeyCount)
    (hexit : 3 ≤ exit.stages) (h : run (exit.start db u) (exit.ops mem db u) = .ok db')
    {set : UniverseSet} (hset : set ∈ u.sets) (hne : set.name ≠ []) {k : Bytes}
    (hk : k ∈ set.members) {d : TableData} (hd : stSearch db'.keyTable k = some d) :
    db'.inSet set.name d.index = true := by
  obtain ⟨rest, hops, hrest⟩ := Exit.exists_ops_eq mem db u hexit
  obtain ⟨l₁, l₂, hl⟩ := List.append_of_mem hset
  have hsplit : exit.ops mem db u = (openOps db u ++ keyOps mem u ++ l₁.flatMap setOps) ++
      (setOps set ++ (l₂.flatMap setOps ++ rest)) := by
    rw [hops, hl]
    simp
  have hremoves : ∀ op ∈ l₂.flatMap setOps ++ rest, op.removes = false := by
    intro op hop
    have hmem : op ∈ exit.ops mem db u :=
      hsplit ▸ List.mem_append_right _ (List.mem_append_right _ hop)
    exact (Exit.allows_ops hmem).removes
  have hsets : ∀ l : List UniverseSet, ∀ op ∈ l.flatMap setOps, op.addsKey = false := by
    intro l op hop
    obtain ⟨set', -, hop⟩ := List.mem_flatMap.mp hop
    obtain rfl | ⟨k', -, rfl⟩ := mem_setOps.mp hop <;> rfl
  rw [hsplit] at h
  obtain ⟨t₁, h₁, hafter⟩ := foldlM_append_eq_ok.mp h
  obtain ⟨t₂, h₂, h₃⟩ := foldlM_append_eq_ok.mp hafter
  -- the keys are all there before the sets
  have hkeys₂ := keys_run (fun op hop => by
    simpa using hsets [set] op (by simpa using hop)) h₂
  have hkeys₃ := keys_run (fun op hop => (List.mem_append.mp hop).elim (hsets l₂ op) (hrest op)) h₃
  have hinv₁ := inv_run (inv_start hinv) h₁
  have hinv₂ := inv_run hinv₁ h₂
  refine (grown_run hinv₂ hremoves h₃).member _ _ (member_setOps hinv₁ ?_ h₂ hne hk ?_)
  · have hmax := (capacities_run h₃).maxKeyCount
    omega
  · rw [← hkeys₂.1, ← hkeys₃.1]
    exact hd

theorem countP_attributeBlocks (mem : Memory) (u : Universe) (n : ℕ) :
    ((List.range n).flatMap (attributeBlock mem u)).countP Op.createsAttribute = n := by
  induction n with
  | zero => rfl
  | succ n ih =>
    have hvalues : (valueOps mem u n).countP Op.createsAttribute = 0 :=
      List.countP_eq_zero.mpr fun op hop => by
        obtain ⟨k, -, rfl⟩ := mem_valueOps.mp hop
        simp [Op.createsAttribute]
    rw [List.range_succ, List.flatMap_append, List.countP_append, ih, List.flatMap_singleton,
      attributeBlock, createOp, List.countP_cons_of_pos rfl, hvalues]

theorem uint64Sub_le {a b : ℕ} (h : b ≤ a) : uint64Sub a b ≤ a - b := by
  have hmod := Nat.mod_le (a - b) (2 ^ 64)
  rw [uint64Sub, Nat.add_sub_assoc h, Nat.add_mod_left]
  exact hmod

theorem attributes_of_run {i j : ℕ} (hinv : Inv db) (hcap : db'.keyCount ≤ db'.maxKeyCount)
    (htaken : (Exit.type i).Taken db u) (hj : j ≤ i)
    (h : run (db.withKeyColumn u.keyName) ((Exit.type i).ops mem db u) = .ok db') :
    (stSearch db'.attrNamesTable (u.attrName j)).isSome := by
  obtain ⟨-, -, -, hmany, hi, -, -⟩ := htaken
  obtain ⟨t, ht, h⟩ := foldlM_append_eq_ok.mp h
  have hinv' := inv_run (inv_withKeyColumn hinv u.keyName) ht
  have hroom : t.attrCount + u.attributeDataNames.length ≤ t.maxAttrSize := by
    have hle := hinv'.attrCount_le
    have hsub := uint64Sub_le hle
    rw [ManyAttributes, ← attrCount_setsOps ht, Nat.not_lt] at hmany
    rw [show db.maxAttrSize = t.maxAttrSize from (capacities_run ht).maxAttrSize.symm] at hmany
    omega
  have hsize : ¬ (storedType (u.typeName j) = .string ∧
      (if storedType (u.typeName j) = .string then dbMaxStringLength else 0 : ℤ) < 1) := by
    rintro ⟨hstring, hlt⟩
    rw [if_pos hstring] at hlt
    exact absurd hlt (by decide)
  refine found_createAttribute hinv' hcap h ?_ hsize (?_ : createOp u j ∈ _)
  · rw [List.countP_append, countP_attributeBlocks]
    simp only [createOp, Op.createsAttribute, List.countP_cons, List.countP_nil, if_true]
    omega
  · rcases Nat.lt_or_eq_of_le hj with hlt | rfl
    · exact List.mem_append_left _ (List.mem_flatMap.mpr
        ⟨j, List.mem_range.mpr hlt, mem_attributeBlock.mpr (Or.inl rfl)⟩)
    · exact List.mem_append_right _ List.mem_cons_self

/-- The stages before an exit have stored what they are for. -/
theorem stores_of_run (hinv : Inv db) (hcap : db'.keyCount ≤ db'.maxKeyCount)
    (htaken : exit.Taken db u) (h : run (exit.start db u) (exit.ops mem db u) = .ok db') :
    exit.Stores u db' := by
  refine ⟨fun hexit r hr hne => ?_, fun hexit set hset hne => ?_,
    fun hexit set hset hne k hk d hd => members_of_run hinv hcap hexit h hset hne hk hd,
    fun i hexit j hj => ?_⟩
  · have hmem : Op.addKey (u.key r) ∈ exit.ops mem db u :=
      Exit.mem_ops_of_mem_keyOps hexit (addKey_mem_keyOps.mpr ⟨r, hr, rfl⟩)
    exact found_addKey (inv_start hinv) hcap h hmem hne
  · obtain ⟨rest, hops, -⟩ := Exit.exists_ops_eq mem db u hexit
    refine found_createSet (inv_start hinv) hcap h ?_ hne
    rw [hops]
    exact List.mem_append_left _ (List.mem_append_right _ (List.mem_flatMap.mpr
      ⟨set, hset, mem_setOps.mpr (Or.inl rfl)⟩))
  · subst hexit
    exact attributes_of_run hinv hcap htaken hj h

/-- **A load that fails has done the operations of the stages before its exit, and no others**:
nothing is lost; the keys, sets and attributes before the exit are stored; at a key column of another
name, and at too many keys for a database that has its key column, the database is as before; at too
many keys or sets the sets are as before; and the tables that the stages before the exit do not name
are as before. -/
theorem exit_dbAddParsedData (hinv : Inv db) (h : dbAddParsedData mem db u = .ok (s, 1)) :
    ∃ exit : Exit, exit.Taken db u ∧ run (exit.start db u) (exit.ops mem db u) = .ok s.db ∧
      (db.keyCount ≤ db.maxKeyCount → exit.Stores u s.db) ∧ exit.Keeps u db s.db ∧
        Grown db s.db := by
  obtain ⟨exit, htaken, hrun⟩ := exit_of_load h
  refine ⟨exit, htaken, hrun, fun hcap => ?_, keeps_of_run hinv htaken hrun,
    grown_of_run hinv hrun⟩
  have hmax : db.maxKeyCount < 2 ^ 64 := by
    have hsize := hinv.size_le
    omega
  exact stores_of_run hinv (keyCount_dbAddParsedData hmax hcap h).1 htaken hrun

/-- A universe of one row, with an attribute of a type that the parser knows and the loader does
not. -/
def floatUniverse : Universe where
  name := lit "U"
  keyDataTypeNames := [lit "STRING"]
  keyDataNames := [lit "id"]
  attributeDataTypeNames := [lit "FLOAT"]
  attributeDataNames := [lit "x"]
  keyValues := [some [lit "k"]]
  attributeValues := [some [lit "1"]]
  sets := []

theorem createEmptyDB_two : createEmptyDB 1 1 2 =
    .ok ⟨[], [], createTable 1, createTable 2, createTable 1, 1, 0, 1, 2, []⟩ :=
  createEmptyDB_of_tableSize (by decide) (by decide) (by decide)

/-- The load fails at its attribute, when its key is already there. -/
theorem exists_load_floatUniverse : ∃ db₀ s, createEmptyDB 1 1 2 = .ok db₀ ∧
    dbAddParsedData ⟨fun _ _ => 0, fun _ _ _ => 0, fun _ _ _ => 0⟩ db₀ floatUniverse = .ok (s, 1) ∧
    s.db.keyCount = 1 ∧ db₀.keyCount = 0 := by
  have hload : (fun r : Load × ℕ => (r.1.db.keyCount, r.2)) <$>
      dbAddParsedData ⟨fun _ _ => 0, fun _ _ _ => 0, fun _ _ _ => 0⟩
        ⟨[], [], createTable 1, createTable 2, createTable 1, 1, 0, 1, 2, []⟩ floatUniverse =
      .ok (1, 1) := by
    decide +kernel
  obtain ⟨⟨s, ret⟩, hs, heq⟩ := map_eq_ok.mp hload
  obtain ⟨hcount, rfl⟩ := Prod.mk.inj heq
  exact ⟨_, s, createEmptyDB_two, hs, hcount, rfl⟩

theorem exit_dbAddParsedData_single : ∃ db₀ s, createEmptyDB 1 1 2 = .ok db₀ ∧
    dbAddParsedData ⟨fun _ _ => 0, fun _ _ _ => 0, fun _ _ _ => 0⟩ db₀ floatUniverse = .ok (s, 1) ∧
    ∃ exit : Exit, exit.Taken db₀ floatUniverse ∧
      run (exit.start db₀ floatUniverse) (exit.ops ⟨fun _ _ => 0, fun _ _ _ => 0, fun _ _ _ => 0⟩ db₀
        floatUniverse) = .ok s.db ∧
      (db₀.keyCount ≤ db₀.maxKeyCount → exit.Stores floatUniverse s.db) ∧
      exit.Keeps floatUniverse db₀ s.db ∧ Grown db₀ s.db := by
  obtain ⟨db₀, s, h₀, hload, -⟩ := exists_load_floatUniverse
  exact ⟨db₀, s, h₀, hload, exit_dbAddParsedData (inv_createEmptyDB h₀) hload⟩

/-- A load that meets a type that is not stored leaves the keys behind. -/
theorem not_atomic_float : ∃ db₀ s, createEmptyDB 1 1 2 = .ok db₀ ∧
    dbAddParsedData ⟨fun _ _ => 0, fun _ _ _ => 0, fun _ _ _ => 0⟩ db₀ floatUniverse = .ok (s, 1) ∧
    s.db ≠ db₀ := by
  obtain ⟨db₀, s, h₀, hload, hcount, hzero⟩ := exists_load_floatUniverse
  refine ⟨db₀, s, h₀, hload, fun h => ?_⟩
  rw [h, hzero] at hcount
  cases hcount

end Failed

end SetQL
