import SetQL.DataStructures.Frame
import SetQL.Query.Materialisation

/-!
# The layout of the attributes, written and read

`db_setAttribute` places a value by the width of its table: 1, 2, 4 or 8 bytes, or the string size
that the table was created with. `db_run_query` reads 8 bytes for every number and 256 for every
string. What a query delivers is what was stored exactly where the two agree.

## Main definitions

* `Content`, `Payload.content`, `ColumnData.content`: a value, as it is stored and as it is delivered
* `Delivers`: queries deliver the values last stored in an attribute
* `ShapeDelivers`: they do for every table of a shape, in every run

## Main results

* `shapeDelivers_iff`: the shapes whose tables deliver what was stored
-/

namespace SetQL

/-! ## Contents -/

/-- A value as its user sees it: a string, or an unsigned number. -/
inductive Content
  | text (s : Bytes)
  | number (n : ℕ)
  deriving DecidableEq

/-- The value that is stored in a slot of `width` bytes. -/
def Payload.content (width : ℕ) : Payload → Content
  | text s _ => .text s
  | int64 v _ => .number (v.toNat % 256 ^ width)

/-- The value is of the kind of a table: a C string for strings, a number for the other types. -/
def Payload.Kinded (type : AttrType) : Payload → Prop
  | text s _ => type = .string ∧ NulFree s
  | int64 _ _ => type ≠ .string

/-- The value in a row of a column. -/
def ColumnData.content (column : ColumnData) (row : ℕ) : Content :=
  if column.isString = 1 then
    .text (cstr (column.data.slice (row * dbMaxStringLength) dbMaxStringLength))
  else .number (leNat (column.data.slice (row * 8) 8))

/-- Queries deliver the values that a run last stored in an attribute: a query for keys with values
returns, and in every row of the attribute stands the value of the row's key. -/
structure Delivers (db₀ : Database) (ops : List Op) (db : Database) (a : Bytes) : Prop where
  returns : ∀ u q r, q.columnNames = [a] → dbRunSetOperation db q.op = .ok r →
    (∀ i, r.bs.bit i = true → ∃ key d p, stSearch db.keyTable key = some d ∧ d.index = i ∧
      LastStored db₀ ops a key p) → ∃ qr, dbRunQuery u db q = .ok qr
  value : ∀ u q r qr (c : ℕ) column (row : ℕ) key d p attr, dbRunSetOperation db q.op = .ok r →
    dbRunQuery u db q = .ok qr → q.columnNames[c]? = some a → qr.columns[c]? = some column →
    r.bs.ones[row]? = some d.index → stSearch db.keyTable key = some d →
    LastStored db₀ ops a key p → db.table a = some attr →
    column.content row = p.content attr.width

/-- In every run, queries deliver what was stored in the tables of a shape. -/
def ShapeDelivers (db₀ : Database) (shape : Shape) : Prop :=
  ∀ ops db a attr, run db₀ ops = .ok db → db.table a = some attr → attr.shape = shape →
    (∀ key p, .setAttribute a key p ∈ ops → p.Kinded shape.type) → Delivers db₀ ops db a

/-! ## Tables made for queries -/

section Agree

variable {u : Uninitialized} {db₀ db : Database} {ops : List Op} {a key : Bytes} {d : TableData}
  {p : Payload} {attr : Attributes} {column : ColumnData} {rows : List ℕ} {kc c row : ℕ}

/-- A row that holds the slot of a value delivers the value. -/
theorem content_of_slot (hq : attr.Queryable) (hholds : Holds u kc c attr rows column)
    (hrow : rows[row]? = some d.index) (hslot : attr.slot d.index = p.bytes attr.width)
    (hfits : attr.shape.Fits p) (hkind : p.Kinded attr.type) :
    column.content row = p.content attr.width := by
  have hslice := hholds.row row _ hrow
  rw [hq.entry_eq, hslot] at hslice
  cases p with
  | text s m =>
    obtain ⟨htype, hnul⟩ := hkind
    obtain ⟨-, hlen⟩ | htype' := hq
    · have hwidth : attr.width = dbMaxStringLength := by simp [Attributes.width, htype, hlen]
      have hle : s.length ≤ dbMaxStringLength := by
        by_contra hgt
        refine hfits ⟨htype, ?_⟩
        rw [show attr.shape.stringLength = dbMaxStringLength from hlen]
        exact (longerThan_text_iff hnul).mpr (Nat.not_le.mp hgt)
      rw [elementSize, if_pos htype, hwidth] at hslice
      rw [ColumnData.content, hholds.isString, if_pos (by simp [htype]), hslice,
        cstr_bytes_text hnul hle, Payload.content]
    · rw [htype] at htype'
      cases htype'
  | int64 v m =>
    obtain ⟨htype, -⟩ | htype := hq
    · exact absurd htype hkind
    · have hwidth : attr.width = 8 := by simp [Attributes.width, htype]
      rw [elementSize, if_neg hkind, hwidth, bytes_int64] at hslice
      rw [ColumnData.content, hholds.isString, if_neg (by simp [htype]), hslice, leNat_leBytes,
        Payload.content, hwidth]

/-- A payload that was stored is one of the run. -/
theorem LastStored.mem (h : LastStored db₀ ops a key p) : .setAttribute a key p ∈ ops := by
  obtain ⟨pre, post, -, -, -, rfl, -⟩ := h
  simp

/-- Queries deliver what is in tables made for them, and in tables for no keys. -/
theorem delivers_of_queryable (hinv : Inv db₀) (h : run db₀ ops = .ok db)
    (hattr : db.table a = some attr) (hwidth : attr.width ≠ 0)
    (hq : attr.Queryable ∨ attr.data.size = 0)
    (hkind : ∀ key p, .setAttribute a key p ∈ ops → p.Kinded attr.type) :
    Delivers db₀ ops db a := by
  have hinv' := inv_run hinv h
  have hstored : ∀ {key d p}, stSearch db.keyTable key = some d → LastStored db₀ ops a key p →
      attr.Queryable := by
    intro key d p hkey hlast
    obtain ⟨-, -, hbound⟩ := slot_of_lastStored hinv h hattr hkey hlast
    have hle := hbound hwidth
    exact hq.resolve_right fun hzero => by omega
  obtain ⟨e, he, hget⟩ := table_eq_some.mp hattr
  have hpos : 0 < db.attrCount := Nat.zero_lt_of_lt (hinv'.attrNames.index_lt_count he)
  refine ⟨?_, ?_⟩
  · intro u q r hcolumns hop hbits
    refine exists_dbRunQuery_of_bound hinv' hpos.ne' (by rw [hcolumns]; exact hpos) ?_ hop ?_ ?_ u
    · intro name hname
      rw [hcolumns, List.mem_singleton] at hname
      exact ⟨attr, hname ▸ hattr⟩
    · intro i hi
      obtain ⟨key, d, p, hkey, rfl, -⟩ := hbits i hi
      exact hinv'.keys.index_lt_count hkey
    · intro name hname attr' hattr' i hi
      rw [hcolumns, List.mem_singleton] at hname
      obtain rfl := Option.some.inj (hattr.symm.trans (hname ▸ hattr'))
      obtain ⟨key, d, p, hkey, rfl, hlast⟩ := hbits i hi
      obtain ⟨-, -, hbound⟩ := slot_of_lastStored hinv h hattr hkey hlast
      rw [← (hstored hkey hlast).width_eq]
      exact hbound hwidth
  · intro u q r qr c column row key d p attr' hop hrun hc hcolumn hrow hkey hlast hattr'
    obtain rfl := Option.some.inj (hattr.symm.trans hattr')
    obtain ⟨r', hop', hrows, -⟩ := rows_dbRunQuery hrun
    obtain rfl := Except.ok.inj (hop.symm.trans hop')
    obtain ⟨hslot, hfits, -⟩ := slot_of_lastStored hinv h hattr hkey hlast
    exact content_of_slot (hstored hkey hlast) (hrows.column c a attr column hc hattr hcolumn) hrow
      hslot hfits (hkind _ _ hlast.mem)

end Agree

/-! ## A run that tells the other tables apart -/

/-- The value 1, or the string of this byte. -/
def probe (type : AttrType) : Payload :=
  if type = .string then .text [1] fun _ => 0 else .int64 1 fun _ => 0

/-- The value is stored for the second key of a new database, and the key is put into a set. -/
def probeOps (type : AttrType) (size : ℤ) : List Op :=
  [.createAttribute (lit "a") type size, .addKey (lit "x"), .addKey (lit "y"), .createSet (lit "S"),
    .addToSet (lit "S") (lit "y"), .setAttribute (lit "a") (lit "y") (probe type)]

section Probe

variable {n sets attrs : ℕ} {db₀ : Database} {type : AttrType} {size : ℤ}

theorem kinded_probe (type : AttrType) : (probe type).Kinded type := by
  rw [probe]
  split
  · rename_i htype
    exact ⟨htype, by decide⟩
  · rename_i htype
    exact htype

theorem byte_probe (type : AttrType) (i : ℕ) : (probe type).byte i = if i = 0 then 1 else 0 := by
  have hint : leBytes 8 (1 : BitVec 64).toNat = [1, 0, 0, 0, 0, 0, 0, 0] := by decide
  rw [probe]
  split
  · rcases i with _ | _ | i
    · rfl
    · rfl
    · simp [Payload.byte, Payload.known, Payload.behind]
  · rw [Payload.byte, Payload.known, hint]
    rcases i with _ | _ | _ | _ | _ | _ | _ | _ | i <;> rfl

/-- The width of a new table, and the room for its first two slots. -/
theorem width_newAttributes (hn : 8 ≤ n) (hlt : n < 2 ^ 31) (hdvd : 8 ∣ n)
    (htype : type ≠ .undefined) (hsize : type = .string → 1 ≤ size ∧ size ≤ 256)
    (hbad : ¬ (newAttributes n type size).Queryable) :
    0 < (newAttributes n type size).width ∧
      (newAttributes n type size).width < elementSize type ∧
      (newAttributes n type size).width + (newAttributes n type size).width ≤
        (newAttributes n type size).data.size := by
  rw [newAttributes_size]
  obtain ⟨m, rfl⟩ := hdvd
  cases type with
  | undefined => exact absurd rfl htype
  | type64 => exact absurd (Or.inr rfl) hbad
  | type8 | type16 | type32 =>
    simp only [newAttributes, Attributes.width, elementSize, numberOfElements]
    refine ⟨by decide, by decide, ?_⟩
    omega
  | string =>
    obtain ⟨hlo, hhi⟩ := hsize rfl
    obtain ⟨k, rfl⟩ := Int.eq_ofNat_of_zero_le (by omega : 0 ≤ size)
    have hne : k ≠ dbMaxStringLength := fun h => hbad (Or.inl ⟨rfl, by simp [newAttributes, h]⟩)
    simp only [newAttributes, Attributes.width, elementSize, numberOfElements, if_true,
      Int.toNat_natCast, dbMaxStringLength] at hne ⊢
    refine ⟨by omega, by omega, ?_⟩
    have hmul : 8 * m * k = 8 * (m * k) := Nat.mul_assoc _ _ _
    have hle : m * k ≤ m * 256 := Nat.mul_le_mul_left m (by omega)
    have hge : k ≤ m * k := Nat.le_mul_of_pos_left k (by omega)
    omega

theorem exists_stInsert_first {m : ℕ} (hm : 1 ≤ m) (name : Bytes) :
    ∃ table, stInsert (createTable m) name 0 = .ok table ∧ table = (createTable m).push ⟨0, name⟩ ∧
      stSearch table name = some ⟨0, name⟩ := by
  have hnew := stSearch_eq_none.mp (stSearch_createTable m name)
  refine ⟨_, stInsert_fresh (wf_createTable m) hnew (by simp; omega) 0, rfl, ?_⟩
  rw [stSearch_push hnew, if_pos rfl]

theorem exists_stInsert_second {m : ℕ} (hm : 2 ≤ m) {name name' : Bytes} (hne : name' ≠ name) :
    ∃ table, stSearch ((createTable m).push ⟨0, name⟩) name' = none ∧
      stInsert ((createTable m).push ⟨0, name⟩) name' 1 = .ok table ∧
      stSearch table name' = some ⟨1, name'⟩ := by
  have hroom : (createTable m).count < (createTable m).size := by simp; omega
  have hfirst : name ∉ (createTable m).names := stSearch_eq_none.mp (stSearch_createTable m name)
  have hnew : name' ∉ ((createTable m).push ⟨0, name⟩).names := by
    rw [SymbolTable.names_push]
    simpa [SymbolTable.names] using hne
  have hsize := SymbolTable.size_push (d := ⟨0, name⟩) (wf_createTable m) hroom
  have hins := stInsert_fresh ((wf_createTable m).push hfirst hroom) hnew
    (by rw [hsize, size_createTable]; simp; omega) 1
  refine ⟨_, stSearch_eq_none.mpr hnew, hins, ?_⟩
  rw [stSearch_push hnew, if_pos rfl]

/-- A new set with its second bit set. -/
theorem exists_secondBit (hinv : Inv db₀) (hn : 2 ≤ db₀.maxKeyCount) : ∃ b₀ b,
    bitsetInitialize (toInt db₀.maxKeyCount) 0 = .ok b₀ ∧ bitsetSetBit b₀ 1 = .ok b ∧
      ∀ i, b.bit i = decide (i = 1) := by
  obtain ⟨b₀, hb₀⟩ := exists_bitsetInitialize hinv
  have hzero := bitsetInitialize_eq_ok hinv hb₀
  have hwords : 1 < 64 * b₀.integerCount := by
    have hround := le_roundSingle db₀.maxKeyCount
    rw [hzero, Bitset.integerCount, List.length_replicate, ceilDivSingle]
    show 1 < 64 * ((roundSingle db₀.maxKeyCount + (64 - 1)) / 64)
    omega
  obtain ⟨b, hb, -, hbit⟩ := Bitset.bitsetSetBit_eq_ok hwords
  refine ⟨b₀, b, hb₀, hb, fun i => ?_⟩
  rw [hbit, hzero, bit_replicate_zero, Bool.or_false]

/-- What the creations of the run leave: a table of zeros, and a set with the second key. -/
structure ProbeCreated (n : ℕ) (type : AttrType) (size : ℤ) (db : Database) : Prop where
  attributes : db.attributes = [newAttributes n type size]
  attr : stSearch db.attrNamesTable (lit "a") = some ⟨0, lit "a"⟩
  key : stSearch db.keyTable (lit "y") = some ⟨1, lit "y"⟩
  set : stSearch db.setNamesTable (lit "S") = some ⟨0, lit "S"⟩
  bits : ∃ b, db.sets = [b] ∧ ∀ i, b.bit i = decide (i = 1)

/-- The creations, one after the other. -/
theorem exists_probeCreated (h₀ : createEmptyDB n sets attrs = .ok db₀) (hsets : 1 ≤ sets)
    (hattrs : 1 ≤ attrs) (hn : 2 ≤ n) (hsize : type = .string → 1 ≤ size) :
    ∃ db, run db₀ [.createAttribute (lit "a") type size, .addKey (lit "x"), .addKey (lit "y"),
      .createSet (lit "S"), .addToSet (lit "S") (lit "y")] = .ok db ∧
      ProbeCreated n type size db := by
  have hinv := inv_createEmptyDB h₀
  obtain ⟨setSlots, attrSlots, keySlots, hs, ha, hk, rfl⟩ := createEmptyDB_eq_ok h₀
  have hset := (le_of_tableSize hs).1
  have hattr := (le_of_tableSize ha).1
  have hkey := (le_of_tableSize hk).1
  obtain ⟨ta, hta, -, hfindA⟩ := exists_stInsert_first (hattrs.trans hattr) (lit "a")
  obtain ⟨tx, htx, heq, -⟩ := exists_stInsert_first (by omega : 1 ≤ keySlots) (lit "x")
  obtain ⟨ty, hnewY, hty, hfindY⟩ := exists_stInsert_second (hn.trans hkey)
    (by decide : lit "y" ≠ lit "x")
  rw [← heq] at hnewY hty
  obtain ⟨ts, hts, -, hfindS⟩ := exists_stInsert_first (hsets.trans hset) (lit "S")
  obtain ⟨b₀, b, hb₀, hb, hbit⟩ := exists_secondBit hinv hn
  let d : List Bitset → List Attributes → SymbolTable → SymbolTable → SymbolTable → ℕ → Database :=
    fun bs as setNames attrNames keys keyCount =>
      ⟨bs, as, setNames, attrNames, keys, n, keyCount, sets, attrs, []⟩
  set attr := newAttributes n type size with hattr₀
  have h₁ : Op.exec (d [] [] (createTable setSlots) (createTable attrSlots) (createTable keySlots) 0)
      (.createAttribute (lit "a") type size) =
      .ok (d [] [attr] (createTable setSlots) ta (createTable keySlots) 0) := by
    refine dbCreateAttribute_new (stSearch_createTable _ _) ?_ (fun h => ?_) hta
    · exact (Nat.pos_iff_ne_zero.mp hattrs).symm
    · have := hsize h.1
      omega
  have h₂ : Op.exec (d [] [attr] (createTable setSlots) ta (createTable keySlots) 0)
      (.addKey (lit "x")) = .ok (d [] [attr] (createTable setSlots) ta tx 1) :=
    dbAddKey_new (by decide) (stSearch_createTable _ _) htx
  have h₃ : Op.exec (d [] [attr] (createTable setSlots) ta tx 1) (.addKey (lit "y")) =
      .ok (d [] [attr] (createTable setSlots) ta ty 2) :=
    dbAddKey_new (by decide) hnewY hty
  have h₄ : Op.exec (d [] [attr] (createTable setSlots) ta ty 2) (.createSet (lit "S")) =
      .ok (d [b₀] [attr] ts ta ty 2) := by
    refine dbCreateSet_new (stSearch_createTable _ _) (by decide) ?_ hts hb₀
    exact hsets
  have h₅ : Op.exec (d [b₀] [attr] ts ta ty 2) (.addToSet (lit "S") (lit "y")) =
      .ok (d [b] [attr] ts ta ty 2) := by
    have hupdate := @dbUpdateSet_known (d [b₀] [attr] ts ta ty 2) _ _ bitsetSetBit _ _ _ _ hfindY
      hfindS rfl hb
    exact hupdate
  refine ⟨d [b] [attr] ts ta ty 2, ?_, rfl, hfindA, hfindY, hfindS, b, rfl, hbit⟩
  show run (d [] [] (createTable setSlots) (createTable attrSlots) (createTable keySlots) 0) _ = _
  simp only [run, List.foldlM_cons, List.foldlM_nil, h₁, h₂, h₃, h₄, h₅, ok_bind, pure_eq_ok]

/-- The table holds zeros but for the first byte of its second slot. -/
theorem byte_put_probe {attr : Attributes} (hattr : attr = newAttributes n type size)
    (hpos : 0 < attr.width) (i : ℕ) :
    (attr.data.put attr.width ((probe type).bytes attr.width)).byte i =
      if i = attr.width then 1 else 0 := by
  by_cases hi : attr.width ≤ i ∧ i < attr.width + ((probe type).bytes attr.width).length
  · rw [Block.byte_put_of_mem hi.1 hi.2]
    rw [Payload.length_bytes] at hi
    have hlt : i - attr.width < attr.width := by omega
    rw [List.getD_eq_getElem?_getD, Payload.bytes, List.getElem?_map, List.getElem?_range hlt,
      Option.map_some, Option.getD_some, byte_probe]
    exact if_congr (by omega) rfl rfl
  · rw [Block.byte_put_of_not_mem (by omega)]
    rw [Payload.length_bytes] at hi
    rw [if_neg (by omega), hattr]
    rfl

theorem fits_probe (hsize : type = .string → 1 ≤ size) :
    (newAttributes n type size).shape.Fits (probe type) := by
  rintro ⟨htype, hlong⟩
  have htype : type = .string := htype
  have hpos := hsize htype
  rw [probe, if_pos htype, longerThan_text_iff (by decide)] at hlong
  simp only [newAttributes, Attributes.shape, if_pos htype, List.length_singleton] at hlong
  omega

/-- What the run leaves: one table that holds zeros but for the first byte of its second slot. -/
theorem exists_probe (h₀ : createEmptyDB n sets attrs = .ok db₀) (hsets : 1 ≤ sets)
    (hattrs : 1 ≤ attrs) (hn : 2 ≤ n) (hsize : type = .string → 1 ≤ size)
    (hpos : 0 < (newAttributes n type size).width)
    (hwidth : (newAttributes n type size).width + (newAttributes n type size).width ≤
      (newAttributes n type size).data.size) :
    ∃ db attr b, run db₀ (probeOps type size) = .ok db ∧ db.table (lit "a") = some attr ∧
      attr.shape = newShape type size ∧ attr.width = (newAttributes n type size).width ∧
      (∀ i, attr.data.byte i = if i = attr.width then 1 else 0) ∧
      stSearch db.keyTable (lit "y") = some ⟨1, lit "y"⟩ ∧
      dbRunSetOperation db (createSetOpLeave (lit "S")) = .ok ⟨b, false⟩ ∧
      (∀ i, b.bit i = decide (i = 1)) ∧
      LastStored db₀ (probeOps type size) (lit "a") (lit "y") (probe type) := by
  obtain ⟨db, hpre, hcreated⟩ := exists_probeCreated h₀ hsets hattrs hn hsize
  obtain ⟨b, hb, hbit⟩ := hcreated.bits
  obtain ⟨attr, hattr⟩ : ∃ attr, attr = newAttributes n type size := ⟨_, rfl⟩
  have hget : db.attributes[0]? = some attr := by
    rw [hcreated.attributes, hattr]
    rfl
  have hfits : attr.shape.Fits (probe type) := hattr ▸ fits_probe hsize
  rw [← hattr] at hwidth hpos ⊢
  have hblock : attr.assign 1 (probe type) =
      .ok (attr.data.put attr.width ((probe type).bytes attr.width)) := by
    rw [Attributes.assign_eq_write, Nat.one_mul, Block.write_of_le]
    rw [Payload.length_bytes]
    exact hwidth
  obtain ⟨attr', hattr'⟩ : ∃ attr' : Attributes, attr' =
    { attr with data := attr.data.put attr.width ((probe type).bytes attr.width) } := ⟨_, rfl⟩
  have hassign : Op.exec db (.setAttribute (lit "a") (lit "y") (probe type)) =
      .ok { db with attributes := db.attributes.set 0 attr' } := by
    rw [hattr']
    exact dbSetAttribute_known hcreated.attr hcreated.key hget hfits hblock
  have htable : Database.table { db with attributes := db.attributes.set 0 attr' } (lit "a") =
      some attr' :=
    table_eq_some.mpr ⟨_, hcreated.attr, List.getElem?_set_self (List.getElem?_eq_some_iff.mp hget).1⟩
  have hwidth' : attr'.width = attr.width := by rw [hattr']; rfl
  refine ⟨_, attr', b, foldlM_snoc_eq_ok.mpr ⟨_, hpre, hassign⟩, htable, by rw [hattr', hattr]; rfl,
    hwidth', fun i => ?_, hcreated.key, ?_, hbit, ?_⟩
  · rw [hwidth', hattr']
    exact byte_put_probe hattr hpos i
  · simp only [createSetOpLeave, dbRunSetOperation, hcreated.set, hb]
    rfl
  · exact ⟨_, [], db, attr, ⟨1, lit "y"⟩, rfl, hpre, table_eq_some.mpr ⟨_, hcreated.attr, hget⟩,
      hcreated.key, hfits, by simp⟩

/-- A bitset whose second bit is the only one lists it alone. -/
theorem ones_of_secondBit {b : Bitset} (hbit : ∀ i, b.bit i = decide (i = 1)) :
    b.ones[0]? = some 1 := by
  have hmem : (1 : ℕ) ∈ b.ones := Bitset.mem_ones.mpr (by rw [hbit]; rfl)
  obtain ⟨i, hi, -⟩ := List.getElem_of_mem hmem
  have hzero := Bitset.mem_ones.mp (List.getElem_mem (Nat.zero_lt_of_lt hi) : b.ones[0] ∈ b.ones)
  rw [hbit, decide_eq_true_eq] at hzero
  rw [List.getElem?_eq_getElem (Nat.zero_lt_of_lt hi), hzero]

/-- A row of zeros is read as another value than the one stored. -/
theorem content_ne_probe {column : ColumnData} {w : ℕ} (hw : 0 < w)
    (hstring : column.isString = if type = .string then 1 else 0)
    (hzeros : column.data.slice 0 (elementSize type) = List.replicate (elementSize type) 0) :
    column.content 0 ≠ (probe type).content w := by
  intro hvalue
  rw [ColumnData.content, hstring, probe, Nat.zero_mul] at hvalue
  rw [elementSize] at hzeros
  by_cases htype : type = .string
  · rw [if_pos htype] at hzeros
    rw [if_pos htype, if_pos rfl, if_pos htype, hzeros] at hvalue
    have hempty : cstr (List.replicate dbMaxStringLength 0) = [] := rfl
    rw [hempty] at hvalue
    cases hvalue
  · rw [if_neg htype] at hzeros
    rw [if_neg htype, if_neg (by decide), if_neg htype, Nat.zero_mul, hzeros] at hvalue
    have hzero : leNat (List.replicate 8 0) = 0 := by decide
    rw [hzero, Payload.content, Content.number.injEq] at hvalue
    have hone : (1 : BitVec 64).toNat % 256 ^ w = 1 := by
      have hpow : 1 < 256 ^ w := Nat.one_lt_pow (by omega) (by decide)
      exact Nat.mod_eq_of_lt hpow
    omega

/-- The run stores a value that no query of a table with another layout delivers. -/
theorem not_shapeDelivers (h₀ : createEmptyDB n sets attrs = .ok db₀) (hsets : 1 ≤ sets)
    (hattrs : 1 ≤ attrs) (hn : 8 ∣ n) (hpos : n ≠ 0) (htype : type ≠ .undefined)
    (hsize : type = .string → 1 ≤ size ∧ size ≤ 256)
    (hbad : ¬ (newAttributes n type size).Queryable) :
    ¬ ShapeDelivers db₀ (newShape type size) := by
  intro hdelivers
  have hlt : n < 2 ^ 31 := by
    obtain ⟨_, _, _, -, -, hk, -⟩ := createEmptyDB_eq_ok h₀
    have := (le_of_tableSize hk).2
    omega
  obtain ⟨hw, hes, hroom⟩ :=
    width_newAttributes (Nat.le_of_dvd (Nat.pos_of_ne_zero hpos) hn) hlt hn htype hsize hbad
  obtain ⟨db, attr, b, hrun, hattr, hshape, hwidth, hbyte, hkey, hop, hbit, hlast⟩ :=
    exists_probe h₀ hsets hattrs (by omega) (fun h => (hsize h).1) hw hroom
  obtain ⟨htype', -⟩ := Shape.mk.inj hshape
  have hdel := hdelivers _ db (lit "a") attr hrun hattr hshape (by
    intro key p hp
    have hp : p = probe type := by
      simp only [probeOps, List.mem_cons, reduceCtorEq, List.not_mem_nil, or_false, false_or,
        Op.setAttribute.injEq] at hp
      exact hp.2.2
    rw [hp]
    exact kinded_probe type)
  obtain ⟨q, hcolumns, hq⟩ : ∃ q : Query, q.columnNames = [lit "a"] ∧
      q.op = createSetOpLeave (lit "S") := ⟨⟨_, _⟩, rfl, rfl⟩
  have hname : q.columnNames[0]? = some (lit "a") := by
    rw [hcolumns]
    exact List.getElem?_cons_zero
  rw [← hq] at hop
  obtain ⟨qr, hquery⟩ := hdel.returns ⟨fun _ => 0, fun _ _ => 0⟩ q _ hcolumns hop fun i hi => by
    rw [hbit, decide_eq_true_eq] at hi
    exact ⟨_, _, _, hkey, hi.symm, hlast⟩
  obtain ⟨r, hop', hrows, -⟩ := rows_dbRunQuery hquery
  obtain rfl := Except.ok.inj (hop.symm.trans hop')
  have hones := ones_of_secondBit hbit
  obtain ⟨column, hcolumn⟩ : ∃ column, qr.columns[0]? = some column :=
    ⟨_, List.getElem?_eq_getElem (by rw [hrows.length, hcolumns]; exact Nat.zero_lt_one)⟩
  have hvalue := hdel.value _ q _ qr 0 column 0 _ _ _ attr hop hquery hname hcolumn hones hkey
    hlast hattr
  have hholds := hrows.column 0 _ attr column hname hattr hcolumn
  -- where the reader looks, behind the first byte of the slot, are zeros
  have hentry := hholds.row 0 1 hones
  have htype' : attr.type = type := htype'
  have hzeros : attr.entry 1 = List.replicate (elementSize attr.type) 0 :=
    calc attr.data.slice (1 * elementSize attr.type) (elementSize attr.type)
      _ = (Block.zeroed 0).slice 0 (elementSize attr.type) := by
        refine Block.slice_congr fun i hi => ?_
        rw [hbyte, hwidth, htype', if_neg (by omega)]
        rfl
      _ = List.replicate (elementSize attr.type) 0 := Block.slice_zeroed
  rw [hzeros, Nat.zero_mul, htype'] at hentry
  exact content_ne_probe (by omega) (htype' ▸ hholds.isString) hentry hvalue

/-- **The tables that deliver what was stored**: those of 64-bit integers, and those of strings of
256 bytes, besides the tables of a database for no keys. -/
theorem shapeDelivers_iff (h₀ : createEmptyDB n sets attrs = .ok db₀) (hsets : 1 ≤ sets)
    (hattrs : 1 ≤ attrs) (hn : 8 ∣ n) (htype : type ≠ .undefined)
    (hsize : type = .string → 1 ≤ size ∧ size ≤ 256) :
    ShapeDelivers db₀ (newShape type size) ↔
      n = 0 ∨ type = .type64 ∨ type = .string ∧ size = 256 := by
  constructor
  · intro hdelivers
    by_contra hno
    refine not_shapeDelivers h₀ hsets hattrs hn (fun h => hno (Or.inl h)) htype hsize ?_ hdelivers
    rintro (⟨hstring, hlen⟩ | h64)
    · have hstring : type = .string := hstring
      obtain ⟨hlo, -⟩ := hsize hstring
      simp only [newAttributes, if_pos hstring, dbMaxStringLength] at hlen
      exact hno (Or.inr (Or.inr ⟨hstring, by omega⟩))
    · exact hno (Or.inr (Or.inl h64))
  · intro hagree ops db a attr hrun hattr hshape hkind
    have hinv₀ := inv_createEmptyDB h₀
    obtain ⟨htype', hlen⟩ := Shape.mk.inj hshape
    have htype' : attr.type = type := htype'
    refine delivers_of_queryable hinv₀ hrun hattr ?_ ?_ (by rw [htype']; exact hkind)
    · rw [Attributes.width, htype']
      cases type with
      | undefined => exact absurd rfl htype
      | type8 | type16 | type32 | type64 => exact Nat.succ_ne_zero _
      | string =>
        obtain ⟨hlo, -⟩ := hsize rfl
        simp only [hlen, if_true]
        omega
    · obtain rfl | rfl | ⟨rfl, rfl⟩ := hagree
      · obtain ⟨d, -, hget⟩ := table_eq_some.mp hattr
        have hmax : db.maxKeyCount = 0 := by
          obtain ⟨_, _, _, -, -, -, rfl⟩ := createEmptyDB_eq_ok h₀
          exact (capacities_run hrun).maxKeyCount
        apply Or.inr
        rw [(inv_run hinv₀ hrun).tables attr (List.mem_of_getElem? hget), hmax]
        cases attr.type <;> simp [numberOfElements]
      · exact Or.inl (Or.inr htype')
      · exact Or.inl (Or.inl ⟨htype', hlen⟩)

theorem createEmptyDB_sixteen : createEmptyDB 16 1 1 =
    .ok ⟨[], [], createTable 1, createTable 1, createTable 20, 16, 0, 1, 1, []⟩ :=
  createEmptyDB_of_tableSize (by decide) (by decide) (by decide)

theorem shapeDelivers_iff_sixteen : ∃ db₀, createEmptyDB 16 1 1 = .ok db₀ ∧
    (ShapeDelivers db₀ (newShape .type64 0) ↔
      16 = 0 ∨ AttrType.type64 = .type64 ∨ AttrType.type64 = .string ∧ (0 : ℤ) = 256) :=
  ⟨_, createEmptyDB_sixteen, shapeDelivers_iff createEmptyDB_sixteen (by decide) (by decide)
    (by decide) (by decide) (fun h => by cases h)⟩

/-- The byte stored for the second key of a database for 16 keys is not what queries deliver. -/
theorem not_shapeDelivers_type8 : ∃ db₀, createEmptyDB 16 1 1 = .ok db₀ ∧
    ¬ ShapeDelivers db₀ (newShape .type8 0) :=
  ⟨_, createEmptyDB_sixteen, not_shapeDelivers createEmptyDB_sixteen (by decide) (by decide)
    (by decide) (by decide) (by decide) (fun h => by cases h)
    (fun h => h.elim (fun h => by cases h.1) (fun h => by cases h))⟩

end Probe

end SetQL
