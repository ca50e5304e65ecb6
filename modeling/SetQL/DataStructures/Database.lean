import SetQL.DataStructures.SymbolTable
import SetQL.DataStructures.Bitset

/-!
# The database

`database.c`: keys, sets and attributes are named through three symbol tables. A set is a bitset
over key indices; an attribute is an array of 8-byte unions that packs one value per key.

## Main definitions

* `Attributes`, `Database`: the attribute tables and the database
* `Payload`: what the `data` pointer of `db_setAttribute` points to
* `createEmptyDB`, `dbCreateSet`, `dbRemoveFromSet`, `dbAddToSet`, `dbAddKey`,
  `dbCreateAttribute`, `dbSetAttribute`: the public operations
* `Op`, `Op.exec`, `run`: a public operation as a value, and a sequence of them

## Main results

* `dbCreateSet_cases`, ..., `dbSetAttribute_cases`: what each operation can do
-/

namespace SetQL

/-- The types of attribute tables. -/
inductive AttrType
  | undefined
  | type8
  | type16
  | type32
  | type64
  | string
  deriving DecidableEq, Repr

/-- `DB_MAX_STRING_LENGTH`. -/
def dbMaxStringLength : ℕ := 256

/-- An attribute table: its unions of 8 bytes, end to end. `stringLength` is used by tables of
type `string` only. -/
structure Attributes where
  type : AttrType
  stringLength : ℕ
  data : Block

/-- The database. `sets` and `attributes` hold the initialized entries of their arrays. -/
structure Database where
  sets : List Bitset
  attributes : List Attributes
  setNamesTable : SymbolTable
  attrNamesTable : SymbolTable
  keyTable : SymbolTable
  maxKeyCount : ℕ
  keyCount : ℕ
  maxSetSize : ℕ
  maxAttrSize : ℕ
  primaryKeyName : Bytes

namespace Database

/-- The number of sets. -/
def setCount (db : Database) : ℕ := db.sets.length

/-- The number of attribute tables. -/
def attrCount (db : Database) : ℕ := db.attributes.length

end Database

/-- `n*1.3f` passed as an `int`; the constant is `10905190 / 2 ^ 23`. -/
def tableSize (n : ℕ) : C ℕ :=
  if mulTrunc 10905190 23 n < 2 ^ 31 then .ok (mulTrunc 10905190 23 n) else .error .undefined

/-- An empty database with the given capacities. -/
def createEmptyDB (maxUniverseSize maxSetSize maxAttrSize : ℕ) : C Database := do
  let setSlots ← tableSize maxSetSize
  let attrSlots ← tableSize maxAttrSize
  let keySlots ← tableSize maxUniverseSize
  return {
    sets := []
    attributes := []
    setNamesTable := createTable setSlots
    attrNamesTable := createTable attrSlots
    keyTable := createTable keySlots
    maxKeyCount := maxUniverseSize
    keyCount := 0
    maxSetSize := maxSetSize
    maxAttrSize := maxAttrSize
    primaryKeyName := [] }

/-! ## Sets and keys -/

/-- Adds an empty set, unless its name is taken or empty. -/
def dbCreateSet (db : Database) (name : Bytes) : C Database :=
  if (stSearch db.setNamesTable name).isSome then .ok db
  else if name.length < 1 then .ok db
  else if db.setCount ≥ db.maxSetSize then .error .exit
  else do
    let setNamesTable ← stInsert db.setNamesTable name db.setCount
    let b ← bitsetInitialize (toInt db.maxKeyCount) 0
    return { db with setNamesTable, sets := db.sets ++ [b] }

/-- The body shared by `db_addToSet` and `db_removeFromSet`: the bit of a known key is changed in
a known set. -/
def dbUpdateSet (change : Bitset → ℕ → C Bitset) (db : Database) (setKey key : Bytes) :
    C Database :=
  match stSearch db.keyTable key with
  | none => .ok db
  | some edata =>
    match stSearch db.setNamesTable setKey with
    | none => .ok db
    | some sdata => do
      let b ← fetch db.sets sdata.index
      let b ← change b edata.index
      let sets ← store db.sets sdata.index b
      return { db with sets }

/-- Removes a key from a set. -/
def dbRemoveFromSet : Database → Bytes → Bytes → C Database := dbUpdateSet bitsetClearBit

/-- Adds a key to a set. -/
def dbAddToSet : Database → Bytes → Bytes → C Database := dbUpdateSet bitsetSetBit

/-- Adds a key, unless its name is empty or taken. The capacity is not checked. -/
def dbAddKey (db : Database) (name : Bytes) : C Database :=
  if name.length < 1 then .ok db
  else if (stSearch db.keyTable name).isSome then .ok db
  else do
    let keyTable ← stInsert db.keyTable name db.keyCount
    return { db with keyTable, keyCount := db.keyCount + 1 }

/-! ## Attributes -/

/-- The number of 8-byte unions allocated for a type; string sizes are multiplied as 64-bit
unsigned numbers. -/
def numberOfElements (maxKeyCount : ℕ) (type : AttrType) (stringSize : ℕ) : ℕ :=
  match type with
  | .type8 => maxKeyCount / 8
  | .string => maxKeyCount * stringSize % 2 ^ 64 / 8
  | .type16 => maxKeyCount / 4
  | .type32 => maxKeyCount / 2
  | .type64 => maxKeyCount
  | .undefined => 0

/-- A table of zeros. -/
def newAttributes (maxKeyCount : ℕ) (type : AttrType) (stringSize : ℤ) : Attributes where
  type := type
  stringLength := if type = .string then stringSize.toNat else 0
  data := Block.zeroed (8 * numberOfElements maxKeyCount type stringSize.toNat)

/-- Adds an attribute table of zeros, unless its name is taken, there is no room, or its string
size is below 1. -/
def dbCreateAttribute (db : Database) (name : Bytes) (type : AttrType) (stringSize : ℤ) :
    C Database :=
  if (stSearch db.attrNamesTable name).isSome then .ok db
  else if db.attrCount = db.maxAttrSize then .ok db
  else if type = .string ∧ stringSize < 1 then .ok db
  else do
    let attr := newAttributes db.maxKeyCount type stringSize
    let attrNamesTable ← stInsert db.attrNamesTable name db.attrCount
    return { db with attrNamesTable, attributes := db.attributes ++ [attr] }

/-- What a `data` pointer points to: a C string or a 64-bit integer, and the memory behind it. -/
inductive Payload
  | text (s : Bytes) (behind : ℕ → UInt8)
  | int64 (v : BitVec 64) (behind : ℕ → UInt8)

namespace Payload

/-- The bytes of the value itself: the string with its terminator, or the 8 bytes of the
integer. -/
def known : Payload → Bytes
  | text s _ => s ++ [0]
  | int64 v _ => leBytes 8 v.toNat

/-- The memory behind the value. -/
def behind : Payload → ℕ → UInt8
  | text _ m => m
  | int64 _ m => m

/-- The byte at an offset from the pointer. -/
def byte (p : Payload) (i : ℕ) : UInt8 :=
  if i < p.known.length then p.known.getD i 0 else p.behind (i - p.known.length)

/-- The first `n` bytes from the pointer. -/
def bytes (p : Payload) (n : ℕ) : Bytes := (List.range n).map p.byte

/-- `strlen(text) > n`: none of the bytes up to `n` is zero. -/
def longerThan (p : Payload) (n : ℕ) : Bool := (List.range (n + 1)).all fun i => p.byte i != 0

end Payload

/-- The address of member `char_u[j]` of union `e`. -/
def charU (e j : ℕ) : ℕ := 8 * e + j

/-- The address of member `int_16_u[j]` of union `e`. -/
def int16U (e j : ℕ) : ℕ := 8 * e + 2 * j

/-- The address of member `int_32_u[j]` of union `e`. -/
def int32U (e j : ℕ) : ℕ := 8 * e + 4 * j

/-- The address of member `int_64_u` of union `e`. -/
def int64U (e : ℕ) : ℕ := 8 * e

/-- The assignment of one value, by the type of the table. An integer is copied byte by byte, and
so is every byte of a string slot. -/
def Attributes.assign (attr : Attributes) (keyIndex : ℕ) (data : Payload) : C Block :=
  match attr.type with
  | .type8 => attr.data.write (charU (keyIndex / 8) (keyIndex % 8)) (data.bytes 1)
  | .string =>
    let strl := attr.stringLength
    (List.range strl).foldlM (fun b i =>
      b.writeByte (charU ((keyIndex * strl + i) / 8) ((keyIndex * strl + i) % 8)) (data.byte i))
      attr.data
  | .type16 => attr.data.write (int16U (keyIndex / 4) (keyIndex % 4)) (data.bytes 2)
  | .type32 => attr.data.write (int32U (keyIndex / 2) (keyIndex % 2)) (data.bytes 4)
  | .type64 => attr.data.write (int64U keyIndex) (data.bytes 8)
  | .undefined => .ok attr.data

/-- Sets the value of a known key in a known attribute table, unless it is a string longer than
the slots of the table. -/
def dbSetAttribute (db : Database) (attrName keyName : Bytes) (data : Payload) : C Database :=
  match stSearch db.attrNamesTable attrName with
  | none => .ok db
  | some attrData =>
    match stSearch db.keyTable keyName with
    | none => .ok db
    | some keyData => do
      let attr ← fetch db.attributes attrData.index
      if attr.type = .string ∧ data.longerThan attr.stringLength then return db
      else
        let block ← attr.assign keyData.index data
        let attributes ← store db.attributes attrData.index { attr with data := block }
        return { db with attributes }

/-! ## Sequences of operations -/

/-- A call of a public operation. -/
inductive Op
  | createSet (name : Bytes)
  | removeFromSet (setKey key : Bytes)
  | addToSet (setKey key : Bytes)
  | addKey (name : Bytes)
  | createAttribute (name : Bytes) (type : AttrType) (stringSize : ℤ)
  | setAttribute (attrName keyName : Bytes) (data : Payload)

/-- The effect of a call. -/
def Op.exec (db : Database) : Op → C Database
  | createSet name => dbCreateSet db name
  | removeFromSet setKey key => dbRemoveFromSet db setKey key
  | addToSet setKey key => dbAddToSet db setKey key
  | addKey name => dbAddKey db name
  | createAttribute name type stringSize => dbCreateAttribute db name type stringSize
  | setAttribute attrName keyName data => dbSetAttribute db attrName keyName data

/-- The calls of a list, in order. -/
def run (db : Database) (ops : List Op) : C Database := ops.foldlM Op.exec db

/-! ## What each operation can do -/

variable {db db' : Database} {name key set : Bytes}

theorem dbCreateSet_cases (h : dbCreateSet db name = .ok db') :
    (((stSearch db.setNamesTable name).isSome ∨ name = []) ∧ db' = db) ∨
      (stSearch db.setNamesTable name = none ∧ name ≠ [] ∧ db.setCount < db.maxSetSize ∧
        ∃ table b, stInsert db.setNamesTable name db.setCount = .ok table ∧
          bitsetInitialize (toInt db.maxKeyCount) 0 = .ok b ∧
          db' = { db with setNamesTable := table, sets := db.sets ++ [b] }) := by
  unfold dbCreateSet at h
  split_ifs at h with h₁ h₂ h₃
  · exact Or.inl ⟨Or.inl h₁, (Except.ok.inj h).symm⟩
  · exact Or.inl ⟨Or.inr (List.length_eq_zero_iff.mp (by omega)), (Except.ok.inj h).symm⟩
  · obtain ⟨table, htable, h⟩ := bind_eq_ok.mp h
    obtain ⟨b, hb, h⟩ := bind_eq_ok.mp h
    refine Or.inr ⟨by simpa using h₁, ?_, by omega, table, b, htable, hb, (Except.ok.inj h).symm⟩
    rintro rfl
    exact h₂ (by decide)

/-- A new set is created while there is room. -/
theorem dbCreateSet_new (hnew : stSearch db.setNamesTable name = none) (hne : name ≠ [])
    (hroom : db.setCount < db.maxSetSize) {table : SymbolTable} {b : Bitset}
    (htable : stInsert db.setNamesTable name db.setCount = .ok table)
    (hb : bitsetInitialize (toInt db.maxKeyCount) 0 = .ok b) :
    dbCreateSet db name = .ok { db with setNamesTable := table, sets := db.sets ++ [b] } := by
  have hlen : ¬ name.length < 1 := by
    rw [Nat.lt_one_iff, List.length_eq_zero_iff]
    exact hne
  simp [dbCreateSet, hnew, hlen, Nat.not_le.mpr hroom, htable, hb]

theorem dbUpdateSet_cases {change : Bitset → ℕ → C Bitset}
    (h : dbUpdateSet change db set key = .ok db') :
    ((stSearch db.keyTable key = none ∨ stSearch db.setNamesTable set = none) ∧ db' = db) ∨
      ∃ edata sdata b b', stSearch db.keyTable key = some edata ∧
        stSearch db.setNamesTable set = some sdata ∧ db.sets[sdata.index]? = some b ∧
        change b edata.index = .ok b' ∧ db' = { db with sets := db.sets.set sdata.index b' } := by
  unfold dbUpdateSet at h
  cases hk : stSearch db.keyTable key with
  | none =>
    rw [hk] at h
    exact Or.inl ⟨Or.inl rfl, (Except.ok.inj h).symm⟩
  | some edata =>
    cases hs : stSearch db.setNamesTable set with
    | none =>
      simp only [hk, hs] at h
      exact Or.inl ⟨Or.inr rfl, (Except.ok.inj h).symm⟩
    | some sdata =>
      simp only [hk, hs, bind_eq_ok, fetch_eq_ok, store_eq_ok, pure_eq_ok] at h
      obtain ⟨b, hb, b', hb', sets, ⟨-, rfl⟩, h⟩ := h
      exact Or.inr ⟨edata, sdata, b, b', rfl, rfl, hb, hb', (Except.ok.inj h).symm⟩

/-- A known key is changed in a known set. -/
theorem dbUpdateSet_known {change : Bitset → ℕ → C Bitset} {edata sdata : TableData}
    {b b' : Bitset} (hk : stSearch db.keyTable key = some edata)
    (hs : stSearch db.setNamesTable set = some sdata) (hb : db.sets[sdata.index]? = some b)
    (hb' : change b edata.index = .ok b') :
    dbUpdateSet change db set key = .ok { db with sets := db.sets.set sdata.index b' } := by
  have hlt := (List.getElem?_eq_some_iff.mp hb).1
  simp [dbUpdateSet, hk, hs, fetch_eq_ok.mpr hb, hb', store_of_lt hlt]

/-- A new key is added. -/
theorem dbAddKey_new (hne : name ≠ []) (hnew : stSearch db.keyTable name = none)
    {table : SymbolTable} (htable : stInsert db.keyTable name db.keyCount = .ok table) :
    dbAddKey db name = .ok { db with keyTable := table, keyCount := db.keyCount + 1 } := by
  have hlen : ¬ name.length < 1 := by
    rw [Nat.lt_one_iff, List.length_eq_zero_iff]
    exact hne
  simp [dbAddKey, hnew, hlen, htable]

theorem dbAddKey_cases (h : dbAddKey db name = .ok db') :
    ((name = [] ∨ (stSearch db.keyTable name).isSome) ∧ db' = db) ∨
      (name ≠ [] ∧ stSearch db.keyTable name = none ∧
        ∃ table, stInsert db.keyTable name db.keyCount = .ok table ∧
          db' = { db with keyTable := table, keyCount := db.keyCount + 1 }) := by
  unfold dbAddKey at h
  split_ifs at h with h₁ h₂
  · exact Or.inl ⟨Or.inl (List.length_eq_zero_iff.mp (by omega)), (Except.ok.inj h).symm⟩
  · exact Or.inl ⟨Or.inr h₂, (Except.ok.inj h).symm⟩
  · obtain ⟨table, htable, h⟩ := bind_eq_ok.mp h
    refine Or.inr ⟨?_, by simpa using h₂, table, htable, (Except.ok.inj h).symm⟩
    rintro rfl
    exact h₁ (by decide)

theorem dbCreateAttribute_cases {type : AttrType} {stringSize : ℤ}
    (h : dbCreateAttribute db name type stringSize = .ok db') :
    (((stSearch db.attrNamesTable name).isSome ∨ db.attrCount = db.maxAttrSize ∨
        type = .string ∧ stringSize < 1) ∧ db' = db) ∨
      (stSearch db.attrNamesTable name = none ∧ db.attrCount ≠ db.maxAttrSize ∧
        ¬ (type = .string ∧ stringSize < 1) ∧
        ∃ table, stInsert db.attrNamesTable name db.attrCount = .ok table ∧
          db' = { db with
            attrNamesTable := table
            attributes := db.attributes ++ [newAttributes db.maxKeyCount type stringSize] }) := by
  unfold dbCreateAttribute at h
  split_ifs at h with h₁ h₂ h₃
  · exact Or.inl ⟨Or.inl h₁, (Except.ok.inj h).symm⟩
  · exact Or.inl ⟨Or.inr (Or.inl h₂), (Except.ok.inj h).symm⟩
  · exact Or.inl ⟨Or.inr (Or.inr h₃), (Except.ok.inj h).symm⟩
  · obtain ⟨table, htable, h⟩ := bind_eq_ok.mp h
    exact Or.inr ⟨by simpa using h₁, h₂, h₃, table, htable, (Except.ok.inj h).symm⟩

/-- A new attribute is created while there is room. -/
theorem dbCreateAttribute_new {type : AttrType} {stringSize : ℤ}
    (hnew : stSearch db.attrNamesTable name = none) (hroom : db.attrCount ≠ db.maxAttrSize)
    (hsize : ¬ (type = .string ∧ stringSize < 1)) {table : SymbolTable}
    (htable : stInsert db.attrNamesTable name db.attrCount = .ok table) :
    dbCreateAttribute db name type stringSize = .ok { db with
      attrNamesTable := table
      attributes := db.attributes ++ [newAttributes db.maxKeyCount type stringSize] } := by
  rw [dbCreateAttribute, hnew, if_neg (by decide), if_neg hroom, if_neg hsize]
  simp [htable]

/-- A value that is not refused is assigned. -/
theorem dbSetAttribute_known {data : Payload} {attrData keyData : TableData} {attr : Attributes}
    {block : Block} (ha : stSearch db.attrNamesTable name = some attrData)
    (hk : stSearch db.keyTable key = some keyData) (hattr : db.attributes[attrData.index]? = some attr)
    (hfits : ¬ (attr.type = .string ∧ data.longerThan attr.stringLength))
    (hblock : attr.assign keyData.index data = .ok block) :
    dbSetAttribute db name key data = .ok { db with
      attributes := db.attributes.set attrData.index { attr with data := block } } := by
  have hlt := (List.getElem?_eq_some_iff.mp hattr).1
  simp only [dbSetAttribute, ha, hk, fetch_eq_ok.mpr hattr, ok_bind, if_neg hfits, hblock,
    store_of_lt hlt, pure_eq_ok]

theorem dbSetAttribute_cases {data : Payload} (h : dbSetAttribute db name key data = .ok db') :
    ((stSearch db.attrNamesTable name = none ∨ stSearch db.keyTable key = none) ∧ db' = db) ∨
      ∃ attrData keyData attr, stSearch db.attrNamesTable name = some attrData ∧
        stSearch db.keyTable key = some keyData ∧ db.attributes[attrData.index]? = some attr ∧
        ((attr.type = .string ∧ data.longerThan attr.stringLength ∧ db' = db) ∨
          (¬ (attr.type = .string ∧ data.longerThan attr.stringLength) ∧
            ∃ block, attr.assign keyData.index data = .ok block ∧
              db' = { db with
                attributes := db.attributes.set attrData.index { attr with data := block } })) := by
  unfold dbSetAttribute at h
  cases ha : stSearch db.attrNamesTable name with
  | none =>
    rw [ha] at h
    exact Or.inl ⟨Or.inl rfl, (Except.ok.inj h).symm⟩
  | some attrData =>
    cases hk : stSearch db.keyTable key with
    | none =>
      simp only [ha, hk] at h
      exact Or.inl ⟨Or.inr rfl, (Except.ok.inj h).symm⟩
    | some keyData =>
      simp only [ha, hk, bind_eq_ok, fetch_eq_ok] at h
      obtain ⟨attr, hattr, h⟩ := h
      refine Or.inr ⟨attrData, keyData, attr, rfl, rfl, hattr, ?_⟩
      split_ifs at h with hlong
      · exact Or.inl ⟨hlong.1, hlong.2, (Except.ok.inj h).symm⟩
      · simp only [bind_eq_ok, store_eq_ok, pure_eq_ok] at h
        obtain ⟨block, hblock, attributes, ⟨-, rfl⟩, h⟩ := h
        exact Or.inr ⟨hlong, block, hblock, (Except.ok.inj h).symm⟩

end SetQL
