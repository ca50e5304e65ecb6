import SetQL.DataStructures.Database

/-!
# The representation invariant

Over any run of the public operations, each symbol table holds its names with the indices
`0, 1, ...`, all sets have the same number of words and no bit without a key, and every attribute
table keeps the size it was allocated with.

## Main definitions

* `Names table n capacity`: the table holds the first `n` names inserted
* `Inv db`: the invariant
* `Attributes.width`: the number of bytes of one slot
* `Counts`, `Capacities`: what an operation may add, and what it leaves

## Main results

* `inv_createEmptyDB`, `inv_exec`, `inv_run`: the invariant holds over every run
* `Attributes.assign_eq_write`: whatever its type, a value is written at its key's slot
* `counts_run`, `capacities_run`: a run adds at most what its operations are for
-/

namespace SetQL

/-- The table holds the first `n` names inserted, as far as they fit, with the indices
`0, 1, ...`. -/
structure Names (table : SymbolTable) (n capacity : ℕ) : Prop where
  wf : table.WF
  dense : table.Dense
  length : table.entries.length = min n table.size
  capacity_le : capacity ≤ table.size

/-- The representation invariant of the database. -/
structure Inv (db : Database) : Prop where
  keys : Names db.keyTable db.keyCount db.maxKeyCount
  setNames : Names db.setNamesTable db.setCount db.maxSetSize
  attrNames : Names db.attrNamesTable db.attrCount db.maxAttrSize
  setCount_le : db.setCount ≤ db.maxSetSize
  attrCount_le : db.attrCount ≤ db.maxAttrSize
  size_le : db.maxKeyCount ≤ 2 ^ 31 - 2 ^ 20
  words : ∀ b ∈ db.sets, b.integerCount = ceilDivSingle db.maxKeyCount 64
  members : ∀ b ∈ db.sets, ∀ i, b.bit i = true → i < db.keyTable.entries.length
  tables : ∀ attr ∈ db.attributes,
    attr.data.size = 8 * numberOfElements db.maxKeyCount attr.type attr.stringLength

/-! ## Names -/

section Names

variable {table table' : SymbolTable} {n capacity : ℕ} {name : Bytes}

theorem names_createTable (n : ℕ) : Names (createTable n) 0 capacity ↔ capacity ≤ n := by
  constructor
  · intro h
    simpa using h.capacity_le
  · intro h
    exact ⟨wf_createTable n, dense_createTable n, by simp, by simpa using h⟩

/-- A new name is stored under the next index, unless the table is full. -/
theorem Names.stInsert (h : Names table n capacity) (hname : stSearch table name = none)
    (hi : stInsert table name n = .ok table') :
    Names table' (n + 1) capacity ∧
      ((n < table.size ∧ table' = table.push ⟨n, name⟩) ∨ (table.size ≤ n ∧ table' = table)) := by
  have hnew := stSearch_eq_none.mp hname
  have hlen := h.length
  have hcount := h.wf.count_eq
  rcases Nat.lt_or_ge n table.size with hlt | hle
  · have hroom : table.count < table.size := by omega
    rw [stInsert_fresh h.wf hnew hroom] at hi
    obtain rfl := Except.ok.inj hi
    have hsize := SymbolTable.size_push (d := ⟨n, name⟩) h.wf hroom
    refine ⟨⟨h.wf.push hnew hroom, h.dense.push ?_, ?_, hsize ▸ h.capacity_le⟩, Or.inl ⟨hlt, rfl⟩⟩
    · show n = table.entries.length
      omega
    · rw [SymbolTable.entries_push, List.length_append, List.length_singleton, hsize]
      omega
  · rw [stInsert_full h.wf hnew (by omega)] at hi
    obtain rfl := Except.ok.inj hi
    exact ⟨⟨h.wf, h.dense, by omega, h.capacity_le⟩, Or.inr ⟨hle, rfl⟩⟩

/-- The insertion of a new name returns. -/
theorem Names.exists_stInsert (h : Names table n capacity) (hname : stSearch table name = none)
    (index : ℕ) : ∃ table', SetQL.stInsert table name index = .ok table' := by
  have hnew := stSearch_eq_none.mp hname
  rcases Nat.lt_or_ge table.count table.size with hlt | hle
  · exact ⟨_, stInsert_fresh h.wf hnew hlt index⟩
  · exact ⟨_, stInsert_full h.wf hnew hle index⟩

theorem Names.index_lt (h : Names table n capacity) {d : TableData}
    (hd : stSearch table name = some d) : d.index < table.entries.length :=
  h.dense.index_lt ((stSearch_eq_some h.wf).mp hd).1

/-- The index found is below the number of names inserted. -/
theorem Names.index_lt_count (h : Names table n capacity) {d : TableData}
    (hd : stSearch table name = some d) : d.index < n :=
  (h.index_lt hd).trans_le (h.length ▸ Nat.min_le_left _ _)

/-- Names within the capacity are all stored. -/
theorem Names.length_eq (h : Names table n capacity) (hn : n ≤ capacity) :
    table.entries.length = n := by
  have := h.length
  have := h.capacity_le
  omega

/-- Two names with one index are one name. -/
theorem Names.name_eq (h : Names table n capacity) {d e : TableData} {name' : Bytes}
    (hd : stSearch table name = some d) (he : stSearch table name' = some e)
    (heq : d.index = e.index) : name = name' := by
  obtain ⟨hd', rfl⟩ := (stSearch_eq_some h.wf).mp hd
  obtain ⟨he', rfl⟩ := (stSearch_eq_some h.wf).mp he
  rw [h.dense.eq_of_index hd' he' heq]

/-- Every index below the number of entries is the index of a name. -/
theorem Names.exists_name (h : Names table n capacity) {i : ℕ} (hi : i < table.entries.length) :
    ∃ name, stSearch table name = some ⟨i, name⟩ := by
  obtain ⟨⟨j, name⟩, hget⟩ : ∃ d, table.entries[i]? = some d := ⟨_, List.getElem?_eq_getElem hi⟩
  obtain rfl : j = i := h.dense i _ hget
  exact ⟨name, (stSearch_eq_some h.wf).mpr ⟨List.mem_of_getElem? hget, rfl⟩⟩

end Names

/-! ## Attribute slots -/

namespace Attributes

variable {attr : Attributes} {k : ℕ} {data : Payload}

/-- The number of bytes of one slot. -/
def width (attr : Attributes) : ℕ :=
  match attr.type with
  | .type8 => 1
  | .string => attr.stringLength
  | .type16 => 2
  | .type32 => 4
  | .type64 => 8
  | .undefined => 0

/-- **Whatever its type, a value is written at its key's slot.** -/
theorem assign_eq_write :
    attr.assign k data = attr.data.write (k * attr.width) (data.bytes attr.width) := by
  obtain ⟨type, strl, block⟩ := attr
  cases type with
  | type8 => simp only [assign, width, charU, show 8 * (k / 8) + k % 8 = k * 1 by omega]
  | string =>
    have haddr : ∀ i, charU ((k * strl + i) / 8) ((k * strl + i) % 8) = k * strl + i := fun i => by
      rw [charU]
      omega
    simp only [assign, width, haddr]
    exact Block.foldlM_writeByte _ _ _ _
  | type16 => simp only [assign, width, int16U, show 8 * (k / 4) + 2 * (k % 4) = k * 2 by omega]
  | type32 => simp only [assign, width, int32U, show 8 * (k / 2) + 4 * (k % 2) = k * 4 by omega]
  | type64 => simp only [assign, width, int64U, Nat.mul_comm]
  | undefined => rfl

theorem size_of_assign {block : Block} (h : attr.assign k data = .ok block) :
    block.size = attr.data.size := by
  rw [assign_eq_write] at h
  obtain ⟨-, rfl⟩ := Block.write_eq_ok.mp h
  rfl

end Attributes

@[simp] theorem Payload.length_bytes (p : Payload) (n : ℕ) : (p.bytes n).length = n := by
  simp [Payload.bytes]

theorem newAttributes_size (maxKeyCount : ℕ) (type : AttrType) (stringSize : ℤ) :
    (newAttributes maxKeyCount type stringSize).data.size = 8 * numberOfElements maxKeyCount
      (newAttributes maxKeyCount type stringSize).type
      (newAttributes maxKeyCount type stringSize).stringLength := by
  cases type <;> rfl

/-! ## The invariant over a run -/

theorem le_of_tableSize {n m : ℕ} (h : tableSize n = .ok m) : n ≤ m ∧ n ≤ 2 ^ 31 - 2 ^ 20 := by
  unfold tableSize at h
  split_ifs at h with hlt
  obtain rfl := Except.ok.inj h
  have h₁ := lt_mulTrunc (c := 10905190) (e := 23) (p := 1) (q := 1) (by decide) (by decide) n
  have h₂ := lt_mulTrunc (c := 10905190) (e := 23) (p := 5) (q := 4) (by decide) (by decide) n
  constructor <;> omega

/-- A table for at most `2 ^ 24` names has a size. -/
theorem exists_tableSize {n : ℕ} (h : n ≤ 2 ^ 24) : ∃ m, tableSize n = .ok m := by
  have hround := roundSingle_le_two_mul (n * 10905190)
  have hlt : mulTrunc 10905190 23 n < 2 ^ 31 := by
    rw [mulTrunc, roundSingle_of_le h]
    omega
  exact ⟨_, if_pos hlt⟩

/-- A new database is empty. -/
theorem createEmptyDB_eq_ok {m s a : ℕ} {db : Database} (h : createEmptyDB m s a = .ok db) :
    ∃ setSlots attrSlots keySlots, tableSize s = .ok setSlots ∧ tableSize a = .ok attrSlots ∧
      tableSize m = .ok keySlots ∧
      db = ⟨[], [], createTable setSlots, createTable attrSlots, createTable keySlots, m, 0, s, a,
        []⟩ := by
  unfold createEmptyDB at h
  simp only [bind_eq_ok, pure_eq_ok] at h
  obtain ⟨setSlots, hs, attrSlots, ha, keySlots, hk, h⟩ := h
  exact ⟨setSlots, attrSlots, keySlots, hs, ha, hk, (Except.ok.inj h).symm⟩

theorem createEmptyDB_of_tableSize {m s a setSlots attrSlots keySlots : ℕ}
    (hs : tableSize s = .ok setSlots) (ha : tableSize a = .ok attrSlots)
    (hm : tableSize m = .ok keySlots) :
    createEmptyDB m s a = .ok ⟨[], [], createTable setSlots, createTable attrSlots,
      createTable keySlots, m, 0, s, a, []⟩ := by
  simp [createEmptyDB, hs, ha, hm]

theorem createEmptyDB_one : createEmptyDB 1 1 1 =
    .ok ⟨[], [], createTable 1, createTable 1, createTable 1, 1, 0, 1, 1, []⟩ :=
  createEmptyDB_of_tableSize (by decide) (by decide) (by decide)

theorem inv_createEmptyDB {m s a : ℕ} {db : Database} (h : createEmptyDB m s a = .ok db) :
    Inv db := by
  obtain ⟨setSlots, attrSlots, keySlots, hs, ha, hk, rfl⟩ := createEmptyDB_eq_ok h
  exact {
    keys := (names_createTable _).mpr (le_of_tableSize hk).1
    setNames := (names_createTable _).mpr (le_of_tableSize hs).1
    attrNames := (names_createTable _).mpr (le_of_tableSize ha).1
    setCount_le := Nat.zero_le _
    attrCount_le := Nat.zero_le _
    size_le := (le_of_tableSize hk).2
    words := by simp
    members := by simp
    tables := by simp }

section Step

variable {db db' : Database} {name key set : Bytes}

/-- The words of a new set are zero. -/
theorem bitsetInitialize_eq_ok (hinv : Inv db) {b : Bitset}
    (h : bitsetInitialize (toInt db.maxKeyCount) 0 = .ok b) :
    b = ⟨List.replicate (ceilDivSingle db.maxKeyCount 64) 0⟩ := by
  have hsize := hinv.size_le
  have hlt : db.maxKeyCount < 2 ^ 31 := by omega
  rw [bitsetInitialize, Bitset.toInt_of_lt hlt, allocWords, if_pos (Int.natCast_nonneg _), ok_bind,
    Int.toNat_natCast] at h
  exact (Except.ok.inj h).symm

theorem exists_bitsetInitialize (hinv : Inv db) :
    ∃ b, bitsetInitialize (toInt db.maxKeyCount) 0 = .ok b := by
  have hsize := hinv.size_le
  have hlt : db.maxKeyCount < 2 ^ 31 := by omega
  rw [bitsetInitialize, Bitset.toInt_of_lt hlt, allocWords, if_pos (Int.natCast_nonneg _), ok_bind]
  exact ⟨_, rfl⟩

theorem bit_replicate_zero (n i : ℕ) : (⟨List.replicate n 0⟩ : Bitset).bit i = false := by
  rw [Bitset.bit_eq, List.getElem?_replicate]
  split <;> simp

theorem inv_dbCreateSet (hinv : Inv db) (h : dbCreateSet db name = .ok db') : Inv db' := by
  obtain ⟨-, rfl⟩ | ⟨hnew, -, hlt, table, b, htable, hb, rfl⟩ := dbCreateSet_cases h
  · exact hinv
  · obtain rfl := bitsetInitialize_eq_ok hinv hb
    have hcount : (db.sets ++ [(⟨List.replicate (ceilDivSingle db.maxKeyCount 64) 0⟩ : Bitset)]).length =
        db.setCount + 1 := by simp [Database.setCount]
    exact { hinv with
      setNames := by
        rw [Database.setCount, hcount]
        exact (hinv.setNames.stInsert hnew htable).1
      setCount_le := by
        rw [Database.setCount, hcount]
        exact hlt
      words := by
        intro c hc
        rcases List.mem_append.mp hc with hc | hc
        · exact hinv.words c hc
        · obtain rfl := List.mem_singleton.mp hc
          simp [Bitset.integerCount]
      members := by
        intro c hc i hi
        rcases List.mem_append.mp hc with hc | hc
        · exact hinv.members c hc i hi
        · obtain rfl := List.mem_singleton.mp hc
          rw [bit_replicate_zero] at hi
          exact absurd hi (by decide) }

/-- A set with one bit changed keeps its words, and the bits of keys stay bits of keys. -/
theorem inv_dbUpdateSet {change : Bitset → ℕ → C Bitset}
    (hchange : ∀ b k b', change b k = .ok b' → b'.integerCount = b.integerCount ∧
      ∀ i, b'.bit i = true → i = k ∨ b.bit i = true)
    (hinv : Inv db) (h : dbUpdateSet change db set key = .ok db') : Inv db' := by
  obtain ⟨-, rfl⟩ | ⟨edata, sdata, b, b', hk, hs, hb, hb', rfl⟩ := dbUpdateSet_cases h
  · exact hinv
  · have hmem : b ∈ db.sets := List.mem_of_getElem? hb
    obtain ⟨hlen, hbits⟩ := hchange _ _ _ hb'
    have hsub : ∀ c ∈ db.sets.set sdata.index b', c ∈ db.sets ∨ c = b' := fun c hc =>
      (List.mem_or_eq_of_mem_set hc)
    exact { hinv with
      setNames := by
        rw [Database.setCount, List.length_set]
        exact hinv.setNames
      setCount_le := by
        rw [Database.setCount, List.length_set]
        exact hinv.setCount_le
      words := by
        intro c hc
        rcases hsub c hc with hc | rfl
        · exact hinv.words c hc
        · rw [hlen]
          exact hinv.words b hmem
      members := by
        intro c hc i hi
        rcases hsub c hc with hc | rfl
        · exact hinv.members c hc i hi
        · rcases hbits i hi with rfl | hi
          · exact hinv.keys.index_lt hk
          · exact hinv.members b hmem i hi }

theorem inv_dbAddKey (hinv : Inv db) (h : dbAddKey db name = .ok db') : Inv db' := by
  obtain ⟨-, rfl⟩ | ⟨-, hnew, table, htable, rfl⟩ := dbAddKey_cases h
  · exact hinv
  · obtain ⟨hnames, htable⟩ := hinv.keys.stInsert hnew htable
    have hle : db.keyTable.entries.length ≤ table.entries.length := by
      rcases htable with ⟨-, rfl⟩ | ⟨-, rfl⟩
      · simp
      · rfl
    exact { hinv with
      keys := hnames
      members := fun b hb i hi => (hinv.members b hb i hi).trans_le hle }

theorem inv_dbCreateAttribute {type : AttrType} {stringSize : ℤ} (hinv : Inv db)
    (h : dbCreateAttribute db name type stringSize = .ok db') : Inv db' := by
  obtain ⟨-, rfl⟩ | ⟨hnew, hne, -, table, htable, rfl⟩ := dbCreateAttribute_cases h
  · exact hinv
  · have hcount : (db.attributes ++ [newAttributes db.maxKeyCount type stringSize]).length =
        db.attrCount + 1 := by simp [Database.attrCount]
    exact { hinv with
      attrNames := by
        rw [Database.attrCount, hcount]
        exact (hinv.attrNames.stInsert hnew htable).1
      attrCount_le := by
        rw [Database.attrCount, hcount]
        exact Nat.lt_of_le_of_ne hinv.attrCount_le hne
      tables := by
        intro attr hattr
        rcases List.mem_append.mp hattr with hattr | hattr
        · exact hinv.tables attr hattr
        · obtain rfl := List.mem_singleton.mp hattr
          exact newAttributes_size _ _ _ }

theorem inv_dbSetAttribute {data : Payload} (hinv : Inv db)
    (h : dbSetAttribute db name key data = .ok db') : Inv db' := by
  obtain ⟨-, rfl⟩ | ⟨attrData, keyData, attr, -, -, hattr, ⟨-, -, rfl⟩ | ⟨-, block, hblock, rfl⟩⟩ :=
    dbSetAttribute_cases h
  · exact hinv
  · exact hinv
  · exact { hinv with
      attrNames := by
        rw [Database.attrCount, List.length_set]
        exact hinv.attrNames
      attrCount_le := by
        rw [Database.attrCount, List.length_set]
        exact hinv.attrCount_le
      tables := by
        intro attr' hattr'
        rcases List.mem_or_eq_of_mem_set hattr' with hattr' | rfl
        · exact hinv.tables attr' hattr'
        · exact (Attributes.size_of_assign hblock).trans
            (hinv.tables attr (List.mem_of_getElem? hattr)) }

theorem bit_of_bitsetSetBit {b b' : Bitset} {k : ℕ} (h : bitsetSetBit b k = .ok b') :
    k < 64 * b.integerCount ∧ b'.integerCount = b.integerCount ∧
      ∀ i, b'.bit i = (decide (i = k) || b.bit i) := by
  by_cases hk : k < 64 * b.integerCount
  · obtain ⟨c, hc, hlen, hbit⟩ := Bitset.bitsetSetBit_eq_ok hk
    obtain rfl := Except.ok.inj (hc.symm.trans h)
    exact ⟨hk, hlen, hbit⟩
  · have hle : b.bits.length ≤ k / 64 := by
      rw [Bitset.integerCount] at hk
      omega
    rw [bitsetSetBit, bitsetUpdateBit, integerBitSize, fetch_of_le hle] at h
    cases h

theorem bit_of_bitsetClearBit {b b' : Bitset} {k : ℕ} (h : bitsetClearBit b k = .ok b') :
    k < 64 * b.integerCount ∧ b'.integerCount = b.integerCount ∧
      ∀ i, b'.bit i = (!decide (i = k) && b.bit i) := by
  by_cases hk : k < 64 * b.integerCount
  · obtain ⟨c, hc, hlen, hbit⟩ := Bitset.bitsetClearBit_eq_ok hk
    obtain rfl := Except.ok.inj (hc.symm.trans h)
    exact ⟨hk, hlen, hbit⟩
  · have hle : b.bits.length ≤ k / 64 := by
      rw [Bitset.integerCount] at hk
      omega
    rw [bitsetClearBit, bitsetUpdateBit, integerBitSize, fetch_of_le hle] at h
    cases h

/-- The invariant is kept by every operation. -/
theorem inv_exec {op : Op} (hinv : Inv db) (h : op.exec db = .ok db') : Inv db' := by
  cases op with
  | createSet name => exact inv_dbCreateSet hinv h
  | removeFromSet set key =>
    refine inv_dbUpdateSet (fun b k b' hb => ?_) hinv h
    obtain ⟨-, hlen, hbit⟩ := bit_of_bitsetClearBit hb
    exact ⟨hlen, fun i hi => by simp only [hbit, Bool.and_eq_true] at hi; exact Or.inr hi.2⟩
  | addToSet set key =>
    refine inv_dbUpdateSet (fun b k b' hb => ?_) hinv h
    obtain ⟨-, hlen, hbit⟩ := bit_of_bitsetSetBit hb
    exact ⟨hlen, fun i hi => by simpa [hbit] using hi⟩
  | addKey name => exact inv_dbAddKey hinv h
  | createAttribute name type stringSize => exact inv_dbCreateAttribute hinv h
  | setAttribute attrName keyName data => exact inv_dbSetAttribute hinv h

/-- **The invariant holds over every run.** -/
theorem inv_run {ops : List Op} (hinv : Inv db) (h : run db ops = .ok db') : Inv db' :=
  foldlM_invariant (I := Inv) (fun _ _ _ _ hi hs => inv_exec hi hs) hinv h

/-- No operation removes keys or changes the capacity. -/
theorem keyCount_exec {op : Op} (h : op.exec db = .ok db') :
    db.keyCount ≤ db'.keyCount ∧ db'.maxKeyCount = db.maxKeyCount := by
  cases op with
  | createSet name =>
    obtain ⟨-, rfl⟩ | ⟨-, -, -, _, _, -, -, rfl⟩ := dbCreateSet_cases h <;> exact ⟨le_rfl, rfl⟩
  | addKey name =>
    obtain ⟨-, rfl⟩ | ⟨-, -, _, -, rfl⟩ := dbAddKey_cases h
    · exact ⟨le_rfl, rfl⟩
    · exact ⟨Nat.le_succ _, rfl⟩
  | addToSet set key | removeFromSet set key =>
    obtain ⟨-, rfl⟩ | ⟨_, _, _, _, -, -, -, -, rfl⟩ := dbUpdateSet_cases h <;> exact ⟨le_rfl, rfl⟩
  | createAttribute name type stringSize =>
    obtain ⟨-, rfl⟩ | ⟨-, -, -, _, -, rfl⟩ := dbCreateAttribute_cases h <;> exact ⟨le_rfl, rfl⟩
  | setAttribute attrName keyName data =>
    obtain ⟨-, rfl⟩ | ⟨_, _, _, -, -, -, ⟨-, -, rfl⟩ | ⟨-, _, -, rfl⟩⟩ := dbSetAttribute_cases h <;>
      exact ⟨le_rfl, rfl⟩

/-- The operations that may add a key. -/
def Op.addsKey : Op → Bool
  | addKey .. => true
  | _ => false

/-- The operations that may create a set. -/
def Op.createsSet : Op → Bool
  | createSet .. => true
  | _ => false

/-- The operations that may create an attribute. -/
def Op.createsAttribute : Op → Bool
  | createAttribute .. => true
  | _ => false

/-- The keys, sets and attributes of a database grow by at most the given numbers, and the attributes
do not become fewer. -/
structure Counts (db db' : Database) (keys sets attributes : ℕ) : Prop where
  keyCount : db'.keyCount ≤ db.keyCount + keys
  setCount : db'.setCount ≤ db.setCount + sets
  attrCount : db'.attrCount ≤ db.attrCount + attributes
  attrCount_ge : db.attrCount ≤ db'.attrCount

/-- The capacities of a database and the name of its key column stay the same. -/
structure Capacities (db db' : Database) : Prop where
  maxKeyCount : db'.maxKeyCount = db.maxKeyCount
  maxSetSize : db'.maxSetSize = db.maxSetSize
  maxAttrSize : db'.maxAttrSize = db.maxAttrSize
  primaryKeyName : db'.primaryKeyName = db.primaryKeyName

/-- An operation adds at most what it is for. -/
theorem counts_exec {op : Op} (h : op.exec db = .ok db') :
    Counts db db' op.addsKey.toNat op.createsSet.toNat op.createsAttribute.toNat := by
  cases op with
  | createSet name =>
    obtain ⟨-, rfl⟩ | ⟨-, -, -, _, _, -, -, rfl⟩ := dbCreateSet_cases h
    · exact ⟨le_rfl, Nat.le_add_right _ _, le_rfl, le_rfl⟩
    · exact ⟨le_rfl, by simp [Database.setCount, Op.createsSet], le_rfl, le_rfl⟩
  | addKey name =>
    obtain ⟨-, rfl⟩ | ⟨-, -, _, -, rfl⟩ := dbAddKey_cases h
    · exact ⟨Nat.le_add_right _ _, le_rfl, le_rfl, le_rfl⟩
    · exact ⟨le_rfl, le_rfl, le_rfl, le_rfl⟩
  | addToSet set key | removeFromSet set key =>
    obtain ⟨-, rfl⟩ | ⟨_, _, _, _, -, -, -, -, rfl⟩ := dbUpdateSet_cases h
    · exact ⟨le_rfl, le_rfl, le_rfl, le_rfl⟩
    · exact ⟨le_rfl, by simp [Database.setCount], le_rfl, le_rfl⟩
  | createAttribute name type stringSize =>
    obtain ⟨-, rfl⟩ | ⟨-, -, -, _, -, rfl⟩ := dbCreateAttribute_cases h
    · exact ⟨le_rfl, le_rfl, Nat.le_add_right _ _, le_rfl⟩
    · exact ⟨le_rfl, le_rfl, by simp [Database.attrCount, Op.createsAttribute],
        by simp [Database.attrCount]⟩
  | setAttribute attrName keyName data =>
    obtain ⟨-, rfl⟩ | ⟨_, _, _, -, -, -, ⟨-, -, rfl⟩ | ⟨-, _, -, rfl⟩⟩ := dbSetAttribute_cases h
    · exact ⟨le_rfl, le_rfl, le_rfl, le_rfl⟩
    · exact ⟨le_rfl, le_rfl, le_rfl, le_rfl⟩
    · exact ⟨le_rfl, le_rfl, by simp [Database.attrCount], by simp [Database.attrCount]⟩

theorem capacities_exec {op : Op} (h : op.exec db = .ok db') : Capacities db db' := by
  cases op with
  | createSet name =>
    obtain ⟨-, rfl⟩ | ⟨-, -, -, _, _, -, -, rfl⟩ := dbCreateSet_cases h <;> exact ⟨rfl, rfl, rfl, rfl⟩
  | addKey name =>
    obtain ⟨-, rfl⟩ | ⟨-, -, _, -, rfl⟩ := dbAddKey_cases h <;> exact ⟨rfl, rfl, rfl, rfl⟩
  | addToSet set key | removeFromSet set key =>
    obtain ⟨-, rfl⟩ | ⟨_, _, _, _, -, -, -, -, rfl⟩ := dbUpdateSet_cases h <;>
      exact ⟨rfl, rfl, rfl, rfl⟩
  | createAttribute name type stringSize =>
    obtain ⟨-, rfl⟩ | ⟨-, -, -, _, -, rfl⟩ := dbCreateAttribute_cases h <;> exact ⟨rfl, rfl, rfl, rfl⟩
  | setAttribute attrName keyName data =>
    obtain ⟨-, rfl⟩ | ⟨_, _, _, -, -, -, ⟨-, -, rfl⟩ | ⟨-, _, -, rfl⟩⟩ := dbSetAttribute_cases h <;>
      exact ⟨rfl, rfl, rfl, rfl⟩

theorem countP_snoc (p : Op → Bool) (ops : List Op) (op : Op) :
    (ops ++ [op]).countP p = ops.countP p + (p op).toNat := by
  rw [List.countP_append, List.countP_singleton]
  cases p op <;> rfl

/-- A run adds at most what its operations are for. -/
theorem counts_run {ops : List Op} (h : run db ops = .ok db') :
    Counts db db' (ops.countP Op.addsKey) (ops.countP Op.createsSet)
      (ops.countP Op.createsAttribute) := by
  refine foldlM_simulation (R := fun ops db' => Counts db db' (ops.countP Op.addsKey)
    (ops.countP Op.createsSet) (ops.countP Op.createsAttribute)) ⟨le_rfl, le_rfl, le_rfl, le_rfl⟩
    ?_ h
  intro pre op t t' hpre hstep
  obtain ⟨hk, hs, ha, hge⟩ := hpre
  obtain ⟨hk', hs', ha', hge'⟩ := counts_exec hstep
  constructor <;> (try rw [countP_snoc]) <;> omega

theorem capacities_run {ops : List Op} (h : run db ops = .ok db') : Capacities db db' := by
  refine foldlM_invariant (I := fun t => Capacities db t) (fun t op t' _ ht hstep => ?_)
    ⟨rfl, rfl, rfl, rfl⟩ h
  obtain ⟨h₁, h₂, h₃, h₄⟩ := capacities_exec hstep
  exact ⟨h₁.trans ht.1, h₂.trans ht.2, h₃.trans ht.3, h₄.trans ht.4⟩

end Step

end SetQL
