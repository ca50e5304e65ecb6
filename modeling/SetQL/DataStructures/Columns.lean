import SetQL.DataStructures.Invariant
import SetQL.Spec.Cells

/-!
# The attribute tables refine a table of columns

Over a run of the public operations with room for all its attributes and keys, every attribute table
has the shape that it was created with, and the slot of a key holds the bytes of the last value
written to it, or zeros.

## Main definitions

* `Attributes.slot`, `Database.table`, `Database.stored`: the stored value of a key
* `Shape`, `Shape.Fits`: what a table was created with, and the values that it takes
* `Op.cellCall`, `cellCalls`: the call of the table of columns that an operation makes
* `Represents db st`: the attribute tables represent the table of columns
* `readInt64`: the integer that the bytes of a slot stand for

## Main results

* `cstr_bytes_text`, `bytes_int64`: what is read back from the bytes of a value
* `represents_run`: the attribute tables refine the table of columns over every run
-/

namespace SetQL

/-! ## Stored values -/

/-- The value of a key in a table. -/
def Attributes.slot (attr : Attributes) (keyIndex : ℕ) : Bytes :=
  attr.data.slice (keyIndex * attr.width) attr.width

namespace Database

/-- The table of an attribute. -/
def table (db : Database) (attrName : Bytes) : Option Attributes :=
  (stSearch db.attrNamesTable attrName).bind fun d => db.attributes[d.index]?

/-- The stored value of a key under an attribute. -/
def stored (db : Database) (attrName keyName : Bytes) : Option Bytes :=
  (db.table attrName).bind fun attr =>
    (stSearch db.keyTable keyName).map fun d => attr.slot d.index

end Database

/-- What a table was created with. -/
structure Shape where
  type : AttrType
  stringLength : ℕ
  deriving DecidableEq, Repr

/-- The shape of a table. -/
def Attributes.shape (attr : Attributes) : Shape := ⟨attr.type, attr.stringLength⟩

/-- The number of bytes of a slot. -/
def Shape.width (t : Shape) : ℕ := (⟨t.type, t.stringLength, Block.zeroed 0⟩ : Attributes).width

theorem Attributes.width_shape (attr : Attributes) : attr.shape.width = attr.width := by
  cases attr
  rfl

theorem Attributes.width_of_shape {attr attr' : Attributes} (hshape : attr'.shape = attr.shape) :
    attr'.width = attr.width := by
  rw [← width_shape, hshape, width_shape]

/-- A value is refused only by a table of strings, when it is longer than a slot. -/
def Shape.Fits (t : Shape) (p : Payload) : Prop :=
  ¬ (t.type = .string ∧ p.longerThan t.stringLength = true)

instance (t : Shape) (p : Payload) : Decidable (t.Fits p) :=
  inferInstanceAs (Decidable (¬ (t.type = .string ∧ p.longerThan t.stringLength = true)))

/-- The shape of a new table. -/
def newShape (type : AttrType) (stringSize : ℤ) : Shape :=
  ⟨type, if type = .string then stringSize.toNat else 0⟩

/-- The call of the table of columns that an operation makes. -/
def Op.cellCall : Op → Option (CellCall Bytes Bytes Shape Payload)
  | createAttribute name type stringSize =>
    if type = .string ∧ stringSize < 1 then none
    else some (.createColumn name (newShape type stringSize))
  | addKey name => if name = [] then none else some (.addKey name)
  | setAttribute attrName keyName data => some (.write attrName keyName data)
  | createSet _ | removeFromSet _ _ | addToSet _ _ => none

/-- The calls that a list of operations makes. -/
def cellCalls (ops : List Op) : List (CellCall Bytes Bytes Shape Payload) :=
  ops.filterMap Op.cellCall

/-- What a slot of `width` bytes holds. -/
def slotContents (width : ℕ) (value : Option Payload) : Bytes :=
  value.elim (List.replicate width 0) fun p => p.bytes width

/-- The attribute tables represent the table of columns. -/
structure Represents (db : Database) (st : Cells Bytes Bytes Shape Payload) : Prop where
  columns : ∀ a, (db.table a).map Attributes.shape = st.columns a
  keys : ∀ k, (stSearch db.keyTable k).isSome ↔ k ∈ st.keys
  value : ∀ a k attr d, db.table a = some attr → stSearch db.keyTable k = some d →
    attr.slot d.index = slotContents attr.width (st.value a k)
  fresh : ∀ a attr i, db.table a = some attr → db.keyTable.entries.length ≤ i →
    attr.slot i = List.replicate attr.width 0
  known : ∀ a k v, st.value a k = some v → (st.columns a).isSome ∧ k ∈ st.keys

/-! ## The bytes of a value -/

section Payload

variable {s : Bytes} {m : ℕ → UInt8} {n : ℕ} {v : BitVec 64}

theorem byte_text_of_lt {i : ℕ} (h : i < s.length) : (Payload.text s m).byte i = s.getD i 0 := by
  have hlt : i < (s ++ [0]).length := by
    rw [List.length_append]
    omega
  rw [Payload.byte, Payload.known, if_pos hlt, List.getD_eq_getElem?_getD,
    List.getElem?_append_left h, List.getD_eq_getElem?_getD]

theorem byte_text_length : (Payload.text s m).byte s.length = 0 := by
  simp [Payload.byte, Payload.known]

/-- A string is longer than `n` when its length is. -/
theorem longerThan_text_iff (h : NulFree s) :
    (Payload.text s m).longerThan n = true ↔ n < s.length := by
  rw [Payload.longerThan, List.all_eq_true]
  constructor
  · intro hall
    by_contra hle
    have := hall s.length (List.mem_range.mpr (by omega))
    simp [byte_text_length] at this
  · intro hlt i hi
    have hi' : i < s.length := by
      have := List.mem_range.mp hi
      omega
    rw [byte_text_of_lt hi', bne_iff_ne]
    simp only [List.getD_eq_getElem?_getD, List.getElem?_eq_getElem hi', Option.getD_some]
    exact ne_of_mem_of_not_mem (List.getElem_mem hi') h

/-- The bytes of a string that fits are the string, and what lies behind it. -/
theorem cstr_bytes_text (h : NulFree s) (hlen : s.length ≤ n) :
    cstr ((Payload.text s m).bytes n) = s := by
  have hsplit : (Payload.text s m).bytes n =
      s ++ (List.range' s.length (n - s.length)).map (Payload.text s m).byte := by
    have hs : (List.range s.length).map (Payload.text s m).byte = s := by
      refine List.ext_getElem (by simp) fun i hi hi' => ?_
      rw [List.getElem_map, List.getElem_range, byte_text_of_lt hi']
      simp [hi']
    have hrange : List.range n = List.range s.length ++ List.range' s.length (n - s.length) := by
      have happ := List.range'_append_1 (s := 0) (m := s.length) (n := n - s.length)
      rw [Nat.zero_add, Nat.add_sub_cancel' hlen] at happ
      rw [List.range_eq_range', List.range_eq_range', happ]
    rw [Payload.bytes, hrange, List.map_append, hs]
  rw [hsplit]
  rcases Nat.lt_or_ge s.length n with hlt | hge
  · obtain ⟨k, hk⟩ := Nat.exists_eq_add_of_lt hlt
    rw [show n - s.length = k + 1 by omega, List.range'_succ, List.map_cons, byte_text_length]
    exact cstr_append_nul h _
  · rw [show n - s.length = 0 by omega, List.range'_zero, List.map_nil, List.append_nil]
    exact cstr_of_nulFree h

/-- The bytes of an integer are its little-endian bytes. -/
theorem bytes_int64 : (Payload.int64 v m).bytes 8 = leBytes 8 v.toNat := by
  refine List.ext_getElem (by simp) fun i hi hi' => ?_
  have hlt : i < 8 := by simpa using hi'
  simp only [Payload.bytes, List.getElem_map, List.getElem_range]
  simp [Payload.byte, Payload.known, hlt]

end Payload

/-- The signed 64-bit integer of 8 bytes, lowest first. -/
def readInt64 (bs : Bytes) : ℤ := (BitVec.ofNat 64 (leNat bs)).toInt

/-- An integer in range is read back. -/
theorem readInt64_leBytes {z : ℤ} (hlo : -2 ^ 63 ≤ z) (hhi : z < 2 ^ 63) :
    readInt64 (leBytes 8 (BitVec.ofInt 64 z).toNat) = z := by
  have hlt : (BitVec.ofInt 64 z).toNat < 256 ^ 8 := (BitVec.ofInt 64 z).isLt
  rw [readInt64, leNat_leBytes_of_lt hlt, BitVec.ofNat_toNat, BitVec.setWidth_eq,
    BitVec.toInt_ofInt]
  exact Int.bmod_eq_of_le_mul_two (by omega) (by omega)

section Step

variable {db db' : Database} {st : Cells Bytes Bytes Shape Payload} {name key : Bytes}
  {attr : Attributes} {d : TableData}

theorem table_eq_some {a : Bytes} : db.table a = some attr ↔
    ∃ d, stSearch db.attrNamesTable a = some d ∧ db.attributes[d.index]? = some attr :=
  Option.bind_eq_some_iff

/-- Only the keys and the attributes are represented. -/
theorem Represents.congr (hr : Represents db st) (hk : db'.keyTable = db.keyTable)
    (hn : db'.attrNamesTable = db.attrNamesTable) (ha : db'.attributes = db.attributes) :
    Represents db' st := by
  have htable : ∀ a, db'.table a = db.table a := fun a => by
    rw [Database.table, Database.table, hn, ha]
  exact ⟨by simpa only [htable] using hr.columns, by simpa only [hk] using hr.keys,
    by simpa only [htable, hk] using hr.value, by simpa only [htable, hk] using hr.fresh, hr.known⟩

/-- A known attribute has a table. -/
theorem Inv.exists_table (hinv : Inv db) (hd : stSearch db.attrNamesTable name = some d) :
    ∃ attr, db.attributes[d.index]? = some attr ∧ db.table name = some attr := by
  have hlt : d.index < db.attributes.length := hinv.attrNames.index_lt_count hd
  exact ⟨_, List.getElem?_eq_getElem hlt, table_eq_some.mpr ⟨d, hd, List.getElem?_eq_getElem hlt⟩⟩

/-- A new column comes behind the others, and only its name finds it. -/
theorem table_push (new : Attributes) (hinv : Inv db) (hfresh : name ∉ db.attrNamesTable.names)
    (a : Bytes) :
    ({ db with
        attrNamesTable := db.attrNamesTable.push ⟨db.attrCount, name⟩
        attributes := db.attributes ++ [new] } : Database).table a =
      if name = a then some new else db.table a := by
  simp only [Database.table, stSearch_push (d := ⟨db.attrCount, name⟩) hfresh a]
  split_ifs with hname
  · simp [Database.attrCount]
  · cases hd : stSearch db.attrNamesTable a with
    | none => rfl
    | some d =>
      have hlt : d.index < db.attributes.length := hinv.attrNames.index_lt_count hd
      simp [List.getElem?_append_left hlt]

/-- A column that is written to is the only one that changes. -/
theorem table_set (new : Attributes) (hinv : Inv db)
    (hname : stSearch db.attrNamesTable name = some d) (hlt : d.index < db.attributes.length)
    (a : Bytes) :
    ({ db with attributes := db.attributes.set d.index new } : Database).table a =
      if a = name then some new else db.table a := by
  simp only [Database.table]
  split_ifs with heq
  · subst heq
    simp [hname, hlt]
  · cases hd : stSearch db.attrNamesTable a with
    | none => rfl
    | some e =>
      have hne : d.index ≠ e.index := fun hindex =>
        heq (hinv.attrNames.name_eq hd hname hindex.symm)
      simp [hne]

theorem represents_dbCreateAttribute {type : AttrType} {stringSize : ℤ} (hinv : Inv db)
    (hr : Represents db st) (h : dbCreateAttribute db name type stringSize = .ok db')
    (hsize : ¬ (type = .string ∧ stringSize < 1)) (hroom : db.attrCount ≠ db.maxAttrSize) :
    Represents db' (st.create name (newShape type stringSize)) := by
  obtain ⟨hold | hfull | hbad, rfl⟩ | ⟨hnew, -, -, table, htable, rfl⟩ := dbCreateAttribute_cases h
  · obtain ⟨d, hd⟩ := Option.isSome_iff_exists.mp hold
    obtain ⟨attr, -, hattr⟩ := hinv.exists_table hd
    have hsome : (st.columns name).isSome := by
      rw [← hr.columns, hattr]
      rfl
    rw [Cells.create, if_pos hsome]
    exact hr
  · exact absurd hfull hroom
  · exact absurd hbad hsize
  · have hfresh := stSearch_eq_none.mp hnew
    have hlt : db.attrCount < db.maxAttrSize := Nat.lt_of_le_of_ne hinv.attrCount_le hroom
    obtain ⟨-, ⟨-, rfl⟩ | ⟨hfull, -⟩⟩ := hinv.attrNames.stInsert hnew htable
    · set new := newAttributes db.maxKeyCount type stringSize with hnewdef
      have hnone : st.columns name = none := by
        rw [← hr.columns, Database.table, hnew]
        rfl
      have htab := table_push new hinv hfresh
      have hzero : ∀ i, new.slot i = List.replicate new.width 0 := fun i => Block.slice_zeroed
      refine ⟨fun a => ?_, by simpa using hr.keys, fun a k attr d ha hd => ?_,
        fun a attr i ha hi => ?_, fun a k v hv => ?_⟩
      · rw [htab]
        by_cases hname : name = a
        · subst hname
          rw [if_pos rfl, Cells.columns_create_same, hnone, Option.none_or]
          rfl
        · rw [if_neg hname, Cells.columns_create_of_ne (Ne.symm hname)]
          exact hr.columns a
      · rw [htab] at ha
        rw [Cells.value_create]
        split_ifs at ha with hname
        · obtain rfl := Option.some.inj ha
          subst hname
          cases hv : st.value name k with
          | none => exact hzero _
          | some v =>
            have := (hr.known name k v hv).1
            rw [hnone] at this
            exact absurd this (by decide)
        · exact hr.value a k attr d ha hd
      · rw [htab] at ha
        split_ifs at ha with hname
        · obtain rfl := Option.some.inj ha
          exact hzero i
        · exact hr.fresh a attr i ha hi
      · rw [Cells.value_create] at hv
        obtain ⟨hcol, hk⟩ := hr.known a k v hv
        refine ⟨?_, by simpa using hk⟩
        by_cases hname : a = name
        · rw [hname, Cells.columns_create_same]
          simp
        · rw [Cells.columns_create_of_ne hname]
          exact hcol
    · exact absurd hlt (Nat.not_lt.mpr (hinv.attrNames.capacity_le.trans hfull))

theorem represents_dbAddKey (hinv : Inv db) (hr : Represents db st)
    (h : dbAddKey db name = .ok db') (hname : name ≠ []) (hcap : db'.keyCount ≤ db'.maxKeyCount) :
    Represents db' { st with keys := insert name st.keys } := by
  obtain ⟨hempty | hold, rfl⟩ | ⟨-, hnew, table, htable, rfl⟩ := dbAddKey_cases h
  · exact absurd hempty hname
  · have hmem : name ∈ st.keys := (hr.keys name).mp hold
    exact ⟨hr.columns, fun k => by simp [hr.keys, Set.insert_eq_of_mem hmem], hr.value, hr.fresh,
      fun a k v hv => ⟨(hr.known a k v hv).1, Or.inr (hr.known a k v hv).2⟩⟩
  · have hfresh := stSearch_eq_none.mp hnew
    have hlen : db.keyTable.entries.length = db.keyCount :=
      hinv.keys.length_eq (Nat.le_of_succ_le hcap)
    obtain ⟨-, ⟨-, rfl⟩ | ⟨hfull, -⟩⟩ := hinv.keys.stInsert hnew htable
    · refine ⟨hr.columns, fun k => ?_, fun a k attr d ha hd => ?_, fun a attr i ha hi => ?_,
        fun a k v hv => ⟨(hr.known a k v hv).1, Or.inr (hr.known a k v hv).2⟩⟩
      · rw [stSearch_push hfresh]
        by_cases hk : name = k
        · simp [hk]
        · simp [hk, Ne.symm hk, hr.keys]
      · rw [stSearch_push hfresh] at hd
        split_ifs at hd with hk
        · obtain rfl := Option.some.inj hd
          subst hk
          show attr.slot db.keyCount = slotContents attr.width (st.value a name)
          cases hv : st.value a name with
          | none => exact hr.fresh a attr _ ha hlen.le
          | some v =>
            have := (hr.keys name).mpr (hr.known a name v hv).2
            rw [hnew] at this
            exact absurd this (by decide)
        · exact hr.value a k attr d ha hd
      · rw [SymbolTable.entries_push, List.length_append] at hi
        exact hr.fresh a attr i ha (Nat.le_of_add_right_le hi)
    · have hcap' : db.keyCount + 1 ≤ db.maxKeyCount := hcap
      have := hinv.keys.capacity_le
      omega

/-- Writing a value changes the slot of its key and no other slot. -/
theorem slot_of_assign {data : Payload} {block : Block} {k : ℕ}
    (h : attr.assign k data = .ok block) (i : ℕ) :
    ({ attr with data := block } : Attributes).slot i =
      if i = k then data.bytes attr.width else attr.slot i := by
  rw [Attributes.assign_eq_write] at h
  obtain ⟨-, rfl⟩ := Block.write_eq_ok.mp h
  show (attr.data.put _ _).slice (i * attr.width) attr.width = _
  have hlen : (data.bytes attr.width).length = attr.width := Payload.length_bytes _ _
  split_ifs with hi
  · subst hi
    have hsame : (attr.data.put (i * attr.width) (data.bytes attr.width)).slice _
        (data.bytes attr.width).length = _ := Block.slice_put_same
    rwa [hlen] at hsame
  · apply Block.slice_put_disjoint
    rw [hlen]
    rcases Nat.lt_or_gt_of_ne hi with hlt | hlt
    · have := Nat.mul_le_mul_right attr.width (Nat.succ_le_of_lt hlt)
      rw [Nat.succ_mul] at this
      exact Or.inl this
    · have := Nat.mul_le_mul_right attr.width (Nat.succ_le_of_lt hlt)
      rw [Nat.succ_mul] at this
      exact Or.inr this

theorem represents_dbSetAttribute {data : Payload} (hinv : Inv db) (hr : Represents db st)
    (h : dbSetAttribute db name key data = .ok db') :
    Represents db' (st.write Shape.Fits name key data) := by
  obtain ⟨hunknown, rfl⟩ | ⟨attrData, keyData, attr, ha, hk, hattr,
    ⟨htype, hlong, rfl⟩ | ⟨hfits, block, hblock, rfl⟩⟩ := dbSetAttribute_cases h
  · have hex : ¬ ((∃ t, st.columns name = some t ∧ Shape.Fits t data) ∧ key ∈ st.keys) := by
      rintro ⟨⟨t, ht, -⟩, hmem⟩
      rcases hunknown with hn | hn
      · rw [← hr.columns, Database.table, hn] at ht
        cases ht
      · have := (hr.keys key).mpr hmem
        rw [hn] at this
        exact absurd this (by decide)
    rw [Cells.write_of_not hex]
    exact hr
  · have htable : db'.table name = some attr := table_eq_some.mpr ⟨attrData, ha, hattr⟩
    have hex : ¬ ((∃ t, st.columns name = some t ∧ Shape.Fits t data) ∧ key ∈ st.keys) := by
      rintro ⟨⟨t, ht, hfits⟩, -⟩
      rw [← hr.columns, htable] at ht
      obtain rfl := Option.some.inj ht
      exact hfits ⟨htype, hlong⟩
    rw [Cells.write_of_not hex]
    exact hr
  · have htable : db.table name = some attr := table_eq_some.mpr ⟨attrData, ha, hattr⟩
    have hex : (∃ t, st.columns name = some t ∧ Shape.Fits t data) ∧ key ∈ st.keys :=
      ⟨⟨attr.shape, by rw [← hr.columns, htable]; rfl, hfits⟩, (hr.keys key).mp (by rw [hk]; rfl)⟩
    have hlt := (List.getElem?_eq_some_iff.mp hattr).1
    have htab := table_set { attr with data := block } hinv ha hlt
    refine ⟨fun a => ?_, by simpa using hr.keys, fun a k attr' d ha' hd => ?_,
      fun a attr' i ha' hi => ?_, fun a k v hv => ?_⟩
    · rw [htab, Cells.columns_write]
      split_ifs with hname
      · rw [hname, ← hr.columns, htable]
        rfl
      · exact hr.columns a
    · rw [htab] at ha'
      split_ifs at ha' with hname
      · obtain rfl := Option.some.inj ha'
        subst hname
        rw [slot_of_assign hblock]
        by_cases hkk : k = key
        · subst hkk
          rw [Option.some.inj (hd.symm.trans hk), if_pos rfl, Cells.value_write_same hex]
          rfl
        · have hne : d.index ≠ keyData.index := fun heq => hkk (hinv.keys.name_eq hd hk heq)
          rw [if_neg hne, Cells.value_write_of_ne fun hc => hkk hc.2]
          exact hr.value a k attr d htable hd
      · rw [Cells.value_write_of_ne fun hc => hname hc.1]
        exact hr.value a k attr' d ha' hd
    · rw [htab] at ha'
      split_ifs at ha' with hname
      · obtain rfl := Option.some.inj ha'
        rw [slot_of_assign hblock, if_neg]
        · exact hr.fresh name attr i htable hi
        · have hlt' := hinv.keys.index_lt hk
          show i ≠ keyData.index
          have hi' : db.keyTable.entries.length ≤ i := hi
          omega
      · exact hr.fresh a attr' i ha' hi
    · rw [Cells.columns_write, Cells.keys_write]
      by_cases hcell : a = name ∧ k = key
      · obtain ⟨rfl, rfl⟩ := hcell
        obtain ⟨⟨t, ht, -⟩, hmem⟩ := hex
        exact ⟨by rw [ht]; rfl, hmem⟩
      · rw [Cells.value_write_of_ne hcell] at hv
        exact hr.known a k v hv

/-- Each operation represents its call, as long as the attributes and the keys have room. -/
theorem represents_exec {op : Op} (hinv : Inv db) (hr : Represents db st)
    (h : op.exec db = .ok db') (hroom : op.createsAttribute = true → db.attrCount ≠ db.maxAttrSize)
    (hcap : db'.keyCount ≤ db'.maxKeyCount) :
    Represents db' (op.cellCall.elim st (st.step Shape.Fits)) := by
  cases op with
  | createSet name =>
    obtain ⟨-, rfl⟩ | ⟨-, -, -, _, _, -, -, rfl⟩ := dbCreateSet_cases h
    · exact hr
    · exact hr.congr rfl rfl rfl
  | addToSet set key | removeFromSet set key =>
    obtain ⟨-, rfl⟩ | ⟨_, _, _, _, -, -, -, -, rfl⟩ := dbUpdateSet_cases h
    · exact hr
    · exact hr.congr rfl rfl rfl
  | addKey name =>
    rw [Op.cellCall]
    split_ifs with hname
    · obtain ⟨-, rfl⟩ | ⟨hne, -⟩ := dbAddKey_cases h
      · exact hr
      · exact absurd hname hne
    · exact represents_dbAddKey hinv hr h hname hcap
  | createAttribute name type stringSize =>
    rw [Op.cellCall]
    split_ifs with hsize
    · obtain ⟨-, rfl⟩ | ⟨-, -, hok, -⟩ := dbCreateAttribute_cases h
      · exact hr
      · exact absurd hsize hok
    · exact represents_dbCreateAttribute hinv hr h hsize (hroom rfl)
  | setAttribute attrName keyName data => exact represents_dbSetAttribute hinv hr h

end Step

/-! ## The calls of a list of operations -/

section Calls

variable {ops pre post : List Op} {a k : Bytes}

theorem mem_cellCalls_addKey : .addKey k ∈ cellCalls ops ↔ .addKey k ∈ ops ∧ k ≠ [] := by
  rw [cellCalls, List.mem_filterMap]
  constructor
  · rintro ⟨op, hop, hcall⟩
    cases op <;> simp only [Op.cellCall] at hcall <;> try split at hcall
    all_goals simp_all
  · rintro ⟨hop, hk⟩
    exact ⟨_, hop, if_neg hk⟩

theorem mem_cellCalls_write {p : Payload} :
    .write a k p ∈ cellCalls ops ↔ .setAttribute a k p ∈ ops := by
  rw [cellCalls, List.mem_filterMap]
  constructor
  · rintro ⟨op, hop, hcall⟩
    cases op <;> simp only [Op.cellCall] at hcall <;> try split at hcall
    all_goals simp_all
  · intro hop
    exact ⟨_, hop, rfl⟩

theorem mem_cellCalls_createColumn {t : Shape} : .createColumn a t ∈ cellCalls ops ↔
    ∃ type stringSize, .createAttribute a type stringSize ∈ ops ∧
      ¬ (type = .string ∧ stringSize < 1) ∧ newShape type stringSize = t := by
  rw [cellCalls, List.mem_filterMap]
  constructor
  · rintro ⟨op, hop, hcall⟩
    cases op with
    | createAttribute b type stringSize =>
      rw [Op.cellCall] at hcall
      split_ifs at hcall with hsize
      obtain ⟨rfl, rfl⟩ := CellCall.createColumn.inj (Option.some.inj hcall)
      exact ⟨type, stringSize, hop, hsize, rfl⟩
    | addKey name =>
      rw [Op.cellCall] at hcall
      split_ifs at hcall
      cases Option.some.inj hcall
    | setAttribute b k p => cases Option.some.inj hcall
    | createSet name | addToSet set key | removeFromSet set key => cases hcall
  · rintro ⟨type, stringSize, hop, hsize, rfl⟩
    exact ⟨_, hop, if_neg hsize⟩

/-- The first creation of a column gives it its shape. -/
theorem shapeOf_cellCalls {type : AttrType} {stringSize : ℤ}
    (hsize : ¬ (type = .string ∧ stringSize < 1)) (hpre : ∀ t z, .createAttribute a t z ∉ pre) :
    shapeOf (cellCalls (pre ++ .createAttribute a type stringSize :: post)) a =
      some (newShape type stringSize) := by
  have hnone : shapeOf (cellCalls pre) a = none := by
    rw [shapeOf, List.findSome?_eq_none_iff]
    intro c hc
    obtain ⟨op, hop, hcall⟩ := List.mem_filterMap.mp hc
    cases op with
    | createAttribute b t z =>
      have hne : b ≠ a := fun h => hpre t z (h ▸ hop)
      rw [Op.cellCall] at hcall
      split_ifs at hcall
      obtain rfl := Option.some.inj hcall
      simp [hne]
    | addKey name =>
      rw [Op.cellCall] at hcall
      split_ifs at hcall
      obtain rfl := Option.some.inj hcall
      rfl
    | setAttribute b k p =>
      obtain rfl := Option.some.inj hcall
      rfl
    | createSet name | addToSet set key | removeFromSet set key => cases hcall
  rw [cellCalls, List.filterMap_append, ← cellCalls, shapeOf_append, hnone, Option.none_or,
    List.filterMap_cons, Op.cellCall, if_neg hsize]
  simp [shapeOf]

/-- The last write of a cell, when it fits and its column and its key exist. -/
theorem lastWritten_of_split {p : Payload} {t : Shape} (hshape : shapeOf (cellCalls pre) a = some t)
    (hfits : t.Fits p) (hkey : .addKey k ∈ pre) (hk : k ≠ [])
    (hpost : ∀ q, .setAttribute a k q ∉ post) :
    LastWritten Shape.Fits (cellCalls (pre ++ .setAttribute a k p :: post)) a k p ∧
      shapeOf (cellCalls (pre ++ .setAttribute a k p :: post)) a = some t := by
  have hsplit : cellCalls (pre ++ .setAttribute a k p :: post) =
      cellCalls pre ++ .write a k p :: cellCalls post := by
    rw [cellCalls, List.filterMap_append]
    rfl
  rw [hsplit, shapeOf_append, hshape, Option.some_or]
  exact ⟨⟨_, _, t, rfl, hshape, hfits, mem_cellCalls_addKey.mpr ⟨hkey, hk⟩,
    fun q hq => absurd (mem_cellCalls_write.mp hq) (hpost q)⟩, rfl⟩

end Calls

/-! ## Runs -/

section Run

variable {db₀ db : Database} {ops : List Op}

/-- A database without keys and attributes represents the empty table. -/
theorem represents_empty (hk : db₀.keyTable.entries = []) (ha : db₀.attrNamesTable.entries = []) :
    Represents db₀ Cells.empty := by
  have hkey : ∀ k, stSearch db₀.keyTable k = none := fun k =>
    stSearch_eq_none.mpr (by simp [SymbolTable.names, hk])
  have htable : ∀ a, db₀.table a = none := fun a => by
    rw [Database.table, stSearch_eq_none.mpr (by simp [SymbolTable.names, ha])]
    rfl
  exact ⟨fun a => by rw [htable]; rfl, fun k => by simp [hkey, Cells.empty],
    fun a k attr d h => by simp [htable] at h, fun a attr i h => by simp [htable] at h,
    fun a k v h => by simp [Cells.empty] at h⟩

/-- **The attribute tables refine the table of columns over every run** with room for its attributes
and keys. -/
theorem represents_run (hinv : Inv db₀) (hr : Represents db₀ Cells.empty)
    (h : run db₀ ops = .ok db)
    (hroom : db₀.attrCount + ops.countP Op.createsAttribute ≤ db₀.maxAttrSize)
    (hcap : db.keyCount ≤ db.maxKeyCount) :
    Represents db (Cells.run Shape.Fits (cellCalls ops)) := by
  -- the counts are carried along, so that room at the end means room at each step
  suffices hsim : Inv db ∧ db.attrCount ≤ db₀.attrCount + ops.countP Op.createsAttribute ∧
      db.maxAttrSize = db₀.maxAttrSize ∧
      (db₀.attrCount + ops.countP Op.createsAttribute ≤ db₀.maxAttrSize →
        db.keyCount ≤ db.maxKeyCount → Represents db (Cells.run Shape.Fits (cellCalls ops))) from
    hsim.2.2.2 hroom hcap
  refine foldlM_simulation (R := fun ops db => Inv db ∧
    db.attrCount ≤ db₀.attrCount + ops.countP Op.createsAttribute ∧
      db.maxAttrSize = db₀.maxAttrSize ∧
      (db₀.attrCount + ops.countP Op.createsAttribute ≤ db₀.maxAttrSize →
        db.keyCount ≤ db.maxKeyCount → Represents db (Cells.run Shape.Fits (cellCalls ops))))
    ⟨hinv, by simp, rfl, fun _ _ => hr⟩ ?_ h
  rintro pre op t t' ⟨hinv, hcount, hmax, hrep⟩ hstep
  have hattr := (counts_exec hstep).attrCount
  have hmax' := (capacities_exec hstep).maxAttrSize
  rw [countP_snoc]
  refine ⟨inv_exec hinv hstep, by omega, hmax'.trans hmax, fun hroom hcap => ?_⟩
  obtain ⟨hkeys, hmaxKey⟩ := keyCount_exec hstep
  have hexec := represents_exec hinv (hrep (by omega) (hkeys.trans (hcap.trans hmaxKey.le))) hstep
    (fun hcreates => by
      rw [hcreates, Bool.toNat_true] at hroom
      omega) hcap
  rw [cellCalls, List.filterMap_append, ← cellCalls]
  cases hc : op.cellCall with
  | none =>
    rw [hc] at hexec
    simpa [hc] using hexec
  | some c =>
    rw [hc] at hexec
    simpa [hc, Cells.run_snoc] using hexec

/-- **The last value written to a cell is stored.** -/
theorem stored_of_lastWritten {a k : Bytes} {p : Payload} {t : Shape}
    (hr : Represents db (Cells.run Shape.Fits (cellCalls ops)))
    (hl : LastWritten Shape.Fits (cellCalls ops) a k p) (ht : shapeOf (cellCalls ops) a = some t) :
    ∃ attr, db.table a = some attr ∧ attr.shape = t ∧ db.stored a k = some (p.bytes attr.width) := by
  have hvalue := value_run_iff.mpr hl
  obtain ⟨-, hkey⟩ := hr.known a k p hvalue
  obtain ⟨d, hd⟩ := Option.isSome_iff_exists.mp ((hr.keys k).mpr hkey)
  have hcolumn := hr.columns a
  rw [columns_run, ht] at hcolumn
  obtain ⟨attr, hattr, hshape⟩ := Option.map_eq_some_iff.mp hcolumn
  refine ⟨attr, hattr, hshape, ?_⟩
  have hslot := hr.value a k attr d hattr hd
  rw [hvalue] at hslot
  rw [Database.stored, hattr, hd]
  exact congrArg some hslot

end Run

end SetQL
