import SetQL.Translation.Faithful

/-!
# Loads without their values

A load into a database whose tables have no contents. What lies in memory behind the strings of a
universe has no part in it, so two loads of one universe differ in the contents of the attribute
tables only, and of these in what lies behind the values.

## Main definitions

* `Database.erase`, `Payload.erase`, `Op.erase`: no contents of tables, nothing behind a value
* `Memory.zeros`: nothing behind any value
* `Universe.store u`: the keys and sets of a universe
* `Universe.knownCalls u`: the columns and writes of a load, each value by its own bytes
* `MayFit t bs`: a value with these bytes may fit

## Main results

* `run_erase`: a run without the contents of tables
* `erase_loadOps`: two loads differ in the contents of the tables only
* `map_known_cellCalls`: two loads write the same values
-/

namespace SetQL

/-- The table without its contents. -/
def Attributes.erase (attr : Attributes) : Attributes :=
  { attr with data := Block.zeroed attr.data.size }

/-- The database without the contents of its tables. -/
def Database.erase (db : Database) : Database :=
  { db with attributes := db.attributes.map Attributes.erase }

/-- The value with nothing behind it. -/
def Payload.erase : Payload → Payload
  | text s _ => text s fun _ => 0
  | int64 v _ => int64 v fun _ => 0

/-- The operation with nothing behind its value. -/
def Op.erase : Op → Op
  | setAttribute attrName keyName data => setAttribute attrName keyName data.erase
  | op => op

/-- The operation sets a value. -/
def Op.setsValue : Op → Bool
  | setAttribute .. => true
  | _ => false

/-- Nothing behind any value. -/
def Memory.zeros : Memory := ⟨fun _ _ => 0, fun _ _ _ => 0, fun _ _ _ => 0⟩

/-! ## Runs without contents -/

section Erase

variable {db db' : Database} {op : Op} {ops : List Op} {attr : Attributes} {p : Payload}

@[simp] theorem Payload.known_erase (p : Payload) : p.erase.known = p.known := by
  cases p <;> rfl

theorem Attributes.erase_of_shape {attr' : Attributes} (hshape : attr'.shape = attr.shape)
    (hsize : attr'.data.size = attr.data.size) : attr'.erase = attr.erase := by
  obtain ⟨htype, hlen⟩ := Shape.mk.inj hshape
  rw [erase, erase, htype, hlen, hsize]

theorem set_of_getElem? {α : Type} {l : List α} {i : ℕ} {a : α} (h : l[i]? = some a) :
    l.set i a = l := by
  obtain ⟨hlt, rfl⟩ := List.getElem?_eq_some_iff.mp h
  exact List.set_getElem_self hlt

/-- Setting a value changes the contents of a table only. -/
theorem erase_dbSetAttribute {name key : Bytes} (h : dbSetAttribute db name key p = .ok db') :
    db'.erase = db.erase := by
  obtain ⟨-, rfl⟩ | ⟨d, _, attr, -, -, hattr, ⟨-, -, rfl⟩ | ⟨-, block, hblock, rfl⟩⟩ :=
    dbSetAttribute_cases h
  · rfl
  · rfl
  · have hsame : ({ attr with data := block } : Attributes).erase = attr.erase :=
      Attributes.erase_of_shape rfl (Attributes.size_of_assign hblock)
    have hentry : (db.attributes.map Attributes.erase)[d.index]? = some attr.erase := by
      rw [List.getElem?_map, hattr]
      rfl
    rw [Database.erase, Database.erase, List.map_set, hsame, set_of_getElem? hentry]

/-! No check of an operation reads a value, so each branch is taken again without the contents. -/

theorem dbCreateSet_erase {name : Bytes} (h : dbCreateSet db name = .ok db') :
    dbCreateSet db.erase name = .ok db'.erase := by
  obtain ⟨hold, rfl⟩ | ⟨hnew, hne, hroom, table, b, htable, hb, rfl⟩ := dbCreateSet_cases h
  · rcases hold with hold | rfl
    · exact if_pos hold
    · simp only [dbCreateSet]
      split <;> rfl
  · have hlen : ¬ name.length < 1 := by
      have := List.length_pos_iff.mpr hne
      omega
    have hroom' : ¬ db.erase.setCount ≥ db.erase.maxSetSize := Nat.not_le.mpr hroom
    have hnew' : ¬ (stSearch db.erase.setNamesTable name).isSome := by
      rw [Database.erase, hnew]
      decide
    rw [dbCreateSet, if_neg hnew', if_neg hlen, if_neg hroom']
    show (stInsert db.setNamesTable name db.setCount >>= _) = _
    rw [htable, ok_bind]
    show (bitsetInitialize (toInt db.maxKeyCount) 0 >>= _) = _
    rw [hb]
    rfl

theorem dbAddKey_erase {name : Bytes} (h : dbAddKey db name = .ok db') :
    dbAddKey db.erase name = .ok db'.erase := by
  obtain ⟨rfl | hold, rfl⟩ | ⟨hne, hnew, table, htable, rfl⟩ := dbAddKey_cases h
  · rfl
  · rw [dbAddKey]
    split
    · rfl
    · exact if_pos hold
  · have hlen : ¬ name.length < 1 := by
      have := List.length_pos_iff.mpr hne
      omega
    have hnew' : ¬ (stSearch db.erase.keyTable name).isSome := by
      rw [Database.erase, hnew]
      decide
    rw [dbAddKey, if_neg hlen, if_neg hnew']
    show (stInsert db.keyTable name db.keyCount >>= _) = _
    rw [htable]
    rfl

theorem dbUpdateSet_erase {change : Bitset → ℕ → C Bitset} {set key : Bytes}
    (h : dbUpdateSet change db set key = .ok db') :
    dbUpdateSet change db.erase set key = .ok db'.erase := by
  obtain ⟨hunknown, rfl⟩ | ⟨d, s, b, b', hk, hs, hb, hb', rfl⟩ := dbUpdateSet_cases h
  · simp only [dbUpdateSet, Database.erase]
    rcases hunknown with hk | hs
    · rw [hk]
    · rw [hs]
      split <;> rfl
  · have hlt := (List.getElem?_eq_some_iff.mp hb).1
    simp only [dbUpdateSet, Database.erase, hk, hs, fetch_eq_ok.mpr hb, ok_bind, hb',
      store_of_lt hlt, pure_eq_ok]

theorem dbCreateAttribute_erase {name : Bytes} {type : AttrType} {stringSize : ℤ}
    (h : dbCreateAttribute db name type stringSize = .ok db') :
    dbCreateAttribute db.erase name type stringSize = .ok db'.erase := by
  have hcount (db : Database) : db.erase.attrCount = db.attrCount := by
    simp [Database.attrCount, Database.erase]
  obtain ⟨hkeep, rfl⟩ | ⟨hnew, hroom, hsize, table, htable, rfl⟩ := dbCreateAttribute_cases h
  · rw [dbCreateAttribute, hcount]
    split_ifs with h₁ h₂ h₃
    · rfl
    · rfl
    · rfl
    · exact absurd hkeep (not_or.mpr ⟨h₁, not_or.mpr ⟨h₂, h₃⟩⟩)
  · have hnew' : ¬ (stSearch db.erase.attrNamesTable name).isSome := by
      rw [Database.erase, hnew]
      decide
    have hroom' : ¬ db.attrCount = db.erase.maxAttrSize := hroom
    rw [dbCreateAttribute, if_neg hnew', hcount, if_neg hroom', if_neg hsize]
    show (stInsert db.attrNamesTable name db.attrCount >>= _) = _
    rw [htable, ok_bind, Database.erase, Database.erase, List.map_append, pure_eq_ok]
    rfl

/-- Operations that set no value do the same without the contents of the tables. -/
theorem exec_erase (hop : op.setsValue = false) (h : op.exec db = .ok db') :
    op.exec db.erase = .ok db'.erase := by
  cases op with
  | createSet name => exact dbCreateSet_erase h
  | addKey name => exact dbAddKey_erase h
  | addToSet set key | removeFromSet set key => exact dbUpdateSet_erase h
  | createAttribute name type stringSize => exact dbCreateAttribute_erase h
  | setAttribute a k p => cases hop

/-- **A run without the contents of tables.** -/
theorem run_erase (h : run db ops = .ok db') :
    run db.erase (ops.filter fun op => !op.setsValue) = .ok db'.erase := by
  refine foldlM_simulation (R := fun ops t =>
    run db.erase (ops.filter fun op => !op.setsValue) = .ok t.erase) rfl ?_ h
  intro pre op t t' hpre hstep
  rw [List.filter_append]
  cases hop : op.setsValue with
  | true =>
    cases op <;> cases hop
    rw [erase_dbSetAttribute hstep]
    simpa [Op.setsValue] using hpre
  | false =>
    rw [List.filter_cons_of_pos (by simp [hop]), List.filter_nil]
    exact foldlM_snoc_eq_ok.mpr ⟨_, hpre, exec_erase hop hstep⟩

end Erase

/-! ## The operations of a load -/

section Load

variable {mem : Memory} {u : Universe} {sets attributes : ℕ} {db₀ : Database} {ops : List Op}

/-- Nothing behind a value has a part in the calls of the store. -/
theorem calls_map_erase (ops : List Op) : calls (ops.map Op.erase) = calls ops := by
  rw [calls, calls, List.filterMap_map]
  congr 1
  funext op
  cases op <;> rfl

theorem filter_map_erase (ops : List Op) :
    (ops.map Op.erase).filter (fun op => !op.setsValue) = ops.filter fun op => !op.setsValue := by
  induction ops with
  | nil => rfl
  | cons op ops ih =>
    rw [List.map_cons, List.filter_cons, List.filter_cons, ih]
    cases op <;> rfl

theorem map_known_cellCalls_erase (ops : List Op) :
    (cellCalls (ops.map Op.erase)).map (CellCall.map Payload.known) =
      (cellCalls ops).map (CellCall.map Payload.known) := by
  rw [cellCalls, cellCalls, List.filterMap_map, List.map_filterMap, List.map_filterMap]
  congr 1
  funext op
  cases op with
  | setAttribute a k p => simp [Op.erase, Op.cellCall, CellCall.map]
  | _ => rfl

theorem erase_payload (mem : Memory) (u : Universe) (i r : ℕ) :
    (payload mem u i r).erase = payload Memory.zeros u i r := by
  unfold payload integerPayload
  split <;> rfl

theorem map_erase_attributeOps (mem : Memory) (u : Universe) (n i : ℕ) :
    (attributeOps mem u n i).map Op.erase = attributeOps Memory.zeros u n i := by
  induction n generalizing i with
  | zero => rfl
  | succ n ih =>
    rw [attributeOps, attributeOps]
    split
    · rfl
    · rw [List.map_cons, List.map_append, ih, valueOps, valueOps, List.map_map]
      simp only [Function.comp_def, Op.erase, erase_payload]
      rfl

/-- **Two loads make the same operations**, but for what lies behind their values. -/
theorem map_erase_loadOps (mem : Memory) (u : Universe) (sets attributes : ℕ) :
    (loadOps mem u sets attributes).map Op.erase = loadOps Memory.zeros u sets attributes := by
  have hstart : (startOps mem u).map Op.erase = startOps Memory.zeros u := by
    rw [startOps, startOps, List.map_cons, keyOps, keyOps, List.map_flatMap]
    rfl
  have hsets : (u.sets.flatMap setOps).map Op.erase = u.sets.flatMap setOps := by
    rw [List.map_flatMap]
    refine List.flatMap_congr fun set _ => ?_
    rw [setOps, List.map_cons, List.map_map]
    rfl
  rw [loadOps, loadOps]
  split_ifs
  · exact hstart
  · rw [List.map_append, hstart, hsets]
  · rw [List.map_append, List.map_append, hstart, hsets, map_erase_attributeOps]

/-- The keys and the sets of a universe, as they are loaded. -/
noncomputable def Universe.store (u : Universe) : Store Bytes Bytes :=
  Store.run (calls (loadOps Memory.zeros u 1000 100))

/-- The columns and the writes of a load, each value by its own bytes. -/
def Universe.knownCalls (u : Universe) : List (CellCall Bytes Bytes Shape Bytes) :=
  (cellCalls (loadOps Memory.zeros u 1000 100)).map (CellCall.map Payload.known)

theorem store_eq (mem : Memory) (u : Universe) :
    Store.run (calls (loadOps mem u 1000 100)) = u.store := by
  rw [Universe.store, ← map_erase_loadOps mem, calls_map_erase]

/-- Two loads write the same values. -/
theorem map_known_cellCalls (mem : Memory) (u : Universe) :
    (cellCalls (loadOps mem u 1000 100)).map (CellCall.map Payload.known) = u.knownCalls := by
  rw [Universe.knownCalls, ← map_erase_loadOps mem, map_known_cellCalls_erase]

/-- **Two loads differ in the contents of the tables only.** -/
theorem erase_loadOps {mem' : Memory} {db db' : Database}
    (h : run db₀ (loadOps mem u sets attributes) = .ok db)
    (h' : run db₀ (loadOps mem' u sets attributes) = .ok db') : db.erase = db'.erase := by
  have hrun := run_erase h
  have hrun' := run_erase h'
  rw [← filter_map_erase, map_erase_loadOps] at hrun hrun'
  exact Except.ok.inj (hrun.symm.trans hrun')

end Load

end SetQL
