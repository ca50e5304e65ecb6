import SetQL.DataStructures.Columns
import SetQL.Query.RunQuery

/-!
# The rows of a result

A query that returns has copied, for each 1 bit of its set operation and in the order of the bits,
the value at the place of that bit into one row of every column. All columns share the order of the
rows. A query over existing columns returns when every bit is the bit of a key.

## Main definitions

* `Attributes.Queryable`: a string table of the length that queries copy, or a table of integers
* `Opened`: the columns of a result have their tables and their buffers
* `Holds`, `Rows`: the rows of one column, and of all columns, that have been written

## Main results

* `opened_openColumns`, `exists_openColumns`: the columns are opened, in the requested order
* `rows_copyRow`, `exists_copyRow`: one row is written to every column
* `rows_dbRunQuery`: the rows of a result
* `exists_dbRunQuery`: a query over existing columns and keys returns
-/

namespace SetQL

/-! ## Tables that queries copy -/

/-- A string table of the length that queries copy, or a table of 64-bit integers. -/
def Attributes.Queryable (attr : Attributes) : Prop :=
  (attr.type = .string ∧ attr.stringLength = dbMaxStringLength) ∨ attr.type = .type64

section Tables

variable {db : Database} {attr : Attributes} {k : ℕ}

theorem Attributes.Queryable.width_eq (h : attr.Queryable) : attr.width = elementSize attr.type := by
  rcases h with ⟨htype, hlen⟩ | htype
  · simp [Attributes.width, elementSize, htype, hlen]
  · simp [Attributes.width, elementSize, htype]

theorem elementSize_pos (type : AttrType) : 0 < elementSize type := by
  cases type <;> decide

/-- A table has one value for each key that fits into the database. -/
theorem Attributes.Queryable.size_eq (h : attr.Queryable) (hinv : Inv db)
    (hattr : attr ∈ db.attributes) :
    attr.data.size = db.maxKeyCount * elementSize attr.type := by
  have hsize := hinv.size_le
  rw [hinv.tables attr hattr]
  rcases h with ⟨htype, hlen⟩ | htype
  · simp only [numberOfElements, elementSize, htype, hlen, dbMaxStringLength, if_true]
    omega
  · simp only [numberOfElements, elementSize, htype, reduceCtorEq, if_false]
    omega

/-- The value that a query copies from a table. -/
def Attributes.entry (attr : Attributes) (k : ℕ) : Bytes :=
  attr.data.slice (k * elementSize attr.type) (elementSize attr.type)

@[simp] theorem Attributes.length_entry : (attr.entry k).length = elementSize attr.type := by
  simp [entry]

/-- Queries copy the slots of the tables that are made for them. -/
theorem Attributes.Queryable.entry_eq (h : attr.Queryable) : attr.entry k = attr.slot k := by
  rw [entry, slot, h.width_eq]

end Tables

/-! ## Opening the columns -/

/-- The columns of a result have their tables and their buffers. -/
structure Opened (u : Uninitialized) (db : Database) (names : List Bytes) (tables : List ℕ)
    (columns : List ColumnData) : Prop where
  length : columns.length = names.length
  column : ∀ (c : ℕ) name, names[c]? = some name → ∃ attr t, db.table name = some attr ∧
    tables[c]? = some t ∧ db.attributes[t]? = some attr ∧
    columns[c]? = some (newColumn u db.keyCount c attr.type)

section Open

variable {u : Uninitialized} {db : Database} {names : List Bytes} {tables : List ℕ}
  {columns : List ColumnData} {n : ℕ}

/-- A column is opened when it is known and `attributeTables` has room for it. -/
theorem openColumn_eq_ok {state state' : List ℕ × List ColumnData} :
    openColumn u db names state n = .ok state' ↔ ∃ name attr d, names[n]? = some name ∧
      stSearch db.attrNamesTable name = some d ∧ n < state.1.length ∧
      db.attributes[d.index]? = some attr ∧
      state' = (state.1.set n d.index, state.2 ++ [newColumn u db.keyCount n attr.type]) := by
  rw [openColumn, bind_eq_ok]
  constructor
  · rintro ⟨name, hname, h⟩
    cases hd : stSearch db.attrNamesTable name with
    | none =>
      rw [hd] at h
      cases h
    | some d =>
      rw [hd] at h
      obtain ⟨tables, hstore, h⟩ := bind_eq_ok.mp h
      obtain ⟨hlt, rfl⟩ := store_eq_ok.mp hstore
      obtain ⟨attr, hattr, h⟩ := bind_eq_ok.mp h
      exact ⟨name, attr, d, fetch_eq_ok.mp hname, hd, hlt, fetch_eq_ok.mp hattr,
        (Except.ok.inj h).symm⟩
  · rintro ⟨name, attr, d, hname, hd, hlt, hattr, rfl⟩
    refine ⟨name, fetch_eq_ok.mpr hname, ?_⟩
    simp only [hd, store_of_lt hlt, ok_bind, fetch_eq_ok.mpr hattr, pure_eq_ok]

/-- `attributeTables` keeps its length, and there is a buffer for each column opened. -/
theorem length_openColumns {state : List ℕ × List ColumnData}
    (h : (List.range n).foldlM (openColumn u db names) (List.replicate db.attrCount 0, []) =
      .ok state) : state.1.length = db.attrCount ∧ state.2.length = n ∧ n ≤ db.attrCount := by
  induction n generalizing state with
  | zero =>
    obtain rfl := Except.ok.inj h
    exact ⟨by simp, rfl, Nat.zero_le _⟩
  | succ n ih =>
    rw [List.range_succ] at h
    obtain ⟨t, ht, hstep⟩ := foldlM_snoc_eq_ok.mp h
    obtain ⟨htables, hcolumns, -⟩ := ih ht
    obtain ⟨name, attr, d, -, -, hlt, -, rfl⟩ := openColumn_eq_ok.mp hstep
    refine ⟨by simpa using htables, by simpa using hcolumns, ?_⟩
    rw [← htables]
    exact hlt

/-- **The columns are opened**, in the requested order. -/
theorem opened_openColumns (h : (List.range names.length).foldlM (openColumn u db names)
    (List.replicate db.attrCount 0, []) = .ok (tables, columns)) :
    Opened u db names tables columns := by
  suffices hall : ∀ n state, (List.range n).foldlM (openColumn u db names)
      (List.replicate db.attrCount 0, []) = .ok state → ∀ c < n, ∀ name, names[c]? = some name →
      ∃ attr t, db.table name = some attr ∧ state.1[c]? = some t ∧
        db.attributes[t]? = some attr ∧
        state.2[c]? = some (newColumn u db.keyCount c attr.type) from
    ⟨(length_openColumns h).2.1, fun c name hc =>
      hall _ _ h c (List.getElem?_eq_some_iff.mp hc).1 name hc⟩
  intro n
  induction n with
  | zero => exact fun _ _ c hc => absurd hc (Nat.not_lt_zero c)
  | succ n ih =>
    intro state hstate c hc name hname
    rw [List.range_succ] at hstate
    obtain ⟨t, ht, hstep⟩ := foldlM_snoc_eq_ok.mp hstate
    obtain ⟨htables, hcolumns, -⟩ := length_openColumns ht
    obtain ⟨name', attr, d, hname', hd, hlt, hattr, rfl⟩ := openColumn_eq_ok.mp hstep
    rcases Nat.lt_succ_iff_lt_or_eq.mp hc with hcn | rfl
    · obtain ⟨attr', t', h₁, h₂, h₃, h₄⟩ := ih t ht c hcn name hname
      refine ⟨attr', t', h₁, ?_, h₃, ?_⟩
      · rw [List.getElem?_set_ne (Nat.ne_of_gt hcn)]
        exact h₂
      · rw [List.getElem?_append_left (by omega)]
        exact h₄
    · obtain rfl := Option.some.inj (hname.symm.trans hname')
      refine ⟨attr, d.index, table_eq_some.mpr ⟨d, hd, hattr⟩, List.getElem?_set_self hlt, hattr, ?_⟩
      rw [← hcolumns]
      simp

/-- The first columns are opened when they are known and `attributeTables` has room. -/
theorem exists_openColumns (hinv : Inv db) (hn : n ≤ names.length) (hroom : n ≤ db.attrCount)
    (h : ∀ i name, i < n → names[i]? = some name → (stSearch db.attrNamesTable name).isSome) :
    ∃ state, (List.range n).foldlM (openColumn u db names) (List.replicate db.attrCount 0, []) =
      .ok state := by
  obtain ⟨state, hstate, -⟩ := foldlM_range (f := openColumn u db names) (n := n)
    (R := fun _ state => state.1.length = db.attrCount)
    (s := (List.replicate db.attrCount 0, [])) (by simp) (by
    intro i t hi ht
    have hi' : i < names.length := by omega
    obtain ⟨d, hd⟩ := Option.isSome_iff_exists.mp (h i _ hi (List.getElem?_eq_getElem hi'))
    obtain ⟨attr, hattr, -⟩ := hinv.exists_table hd
    exact ⟨_, openColumn_eq_ok.mpr ⟨_, attr, d, List.getElem?_eq_getElem hi', hd, by omega, hattr, rfl⟩,
      by simpa using ht⟩)
  exact ⟨state, hstate⟩

/-- Distinct known names are at most as many as the attributes. -/
theorem length_le_attrCount (hinv : Inv db) (hnodup : names.Nodup)
    (h : ∀ name ∈ names, (stSearch db.attrNamesTable name).isSome) :
    names.length ≤ db.attrCount := by
  have hentry : ∀ name ∈ names, ∃ i d, stSearch db.attrNamesTable name = some d ∧ d.index = i := by
    intro name hname
    obtain ⟨d, hd⟩ := Option.isSome_iff_exists.mp (h name hname)
    exact ⟨d.index, d, hd, rfl⟩
  choose! index hindex using hentry
  have hmap : (names.map index).Nodup := by
    refine hnodup.map_on fun a ha b hb heq => ?_
    obtain ⟨d, hd, hda⟩ := hindex a ha
    obtain ⟨e, he, heb⟩ := hindex b hb
    exact hinv.attrNames.name_eq hd he (hda.trans (heq.trans heb.symm))
  have hsub : names.map index ⊆ List.range db.attrCount := by
    intro i hi
    obtain ⟨name, hname, rfl⟩ := List.mem_map.mp hi
    obtain ⟨d, hd, hd'⟩ := hindex name hname
    exact List.mem_range.mpr (hd' ▸ hinv.attrNames.index_lt_count hd)
  simpa using hmap.length_le_of_subset hsub

end Open

/-! ## Copying the rows -/

/-- The rows `rows`, given by the places of their values, have been written to a column. -/
structure Holds (u : Uninitialized) (keyCount c : ℕ) (attr : Attributes) (rows : List ℕ)
    (column : ColumnData) : Prop where
  isString : column.isString = if attr.type = .string then 1 else 0
  size : column.data.size = keyCount * elementSize attr.type
  memorySize : column.memorySize =
    u.memorySize c + BitVec.ofNat 64 (rows.length * elementSize attr.type)
  bound : ∀ k ∈ rows, k * elementSize attr.type + elementSize attr.type ≤ attr.data.size
  row : ∀ r k, rows[r]? = some k →
    column.data.slice (r * elementSize attr.type) (elementSize attr.type) = attr.entry k

/-- The rows `rows` have been written to all columns of a result. -/
structure Rows (u : Uninitialized) (db : Database) (names : List Bytes) (rows : List ℕ)
    (qr : QueryReturn) : Prop where
  dataLength : qr.dataLength = rows.length
  columnCount : qr.columnCount = names.length
  length : qr.columns.length = names.length
  column : ∀ (c : ℕ) name attr column, names[c]? = some name → db.table name = some attr →
    qr.columns[c]? = some column → Holds u db.keyCount c attr rows column

section Copy

variable {u : Uninitialized} {db : Database} {names : List Bytes} {tables rows : List ℕ}
  {attr : Attributes} {column : ColumnData} {columns columns' : List ColumnData} {c k keyCount : ℕ}
  {qr qr' : QueryReturn}

theorem holds_newColumn : Holds u keyCount c attr [] (newColumn u keyCount c attr.type) := by
  unfold newColumn
  by_cases h : attr.type = .string
  · exact ⟨by simp [h], by simp [h, elementSize], by simp [h], by simp, by simp⟩
  · exact ⟨by simp [h], by simp [h, elementSize], by simp [h], by simp, by simp⟩

/-- A column with one more row. -/
def ColumnData.putRow (column : ColumnData) (attr : Attributes) (row k : ℕ) : ColumnData :=
  { column with
    data := column.data.put (row * elementSize attr.type) (attr.entry k)
    memorySize := column.memorySize + BitVec.ofNat 64 (elementSize attr.type) }

/-- One more row is written after the others. -/
theorem Holds.put (h : Holds u keyCount c attr rows column)
    (hk : k * elementSize attr.type + elementSize attr.type ≤ attr.data.size) :
    Holds u keyCount c attr (rows ++ [k]) (column.putRow attr rows.length k) where
  isString := h.isString
  size := h.size
  memorySize := by
    rw [ColumnData.putRow, h.memorySize, List.length_append, List.length_singleton, Nat.add_mul,
      Nat.one_mul, BitVec.ofNat_add, BitVec.add_assoc]
  bound := by
    intro i hi
    rcases List.mem_append.mp hi with hi | hi
    · exact h.bound i hi
    · rw [List.mem_singleton.mp hi]
      exact hk
  row := by
    intro r k' hr
    rcases Nat.lt_or_ge r rows.length with hlt | hge
    · rw [List.getElem?_append_left hlt] at hr
      have hmul := Nat.mul_le_mul_right (elementSize attr.type) (Nat.succ_le_of_lt hlt)
      rw [Nat.succ_mul] at hmul
      rw [ColumnData.putRow, Block.slice_put_disjoint (Or.inl hmul)]
      exact h.row r k' hr
    · rw [List.getElem?_append_right hge, List.getElem?_singleton] at hr
      split_ifs at hr with hzero
      obtain rfl := Option.some.inj hr
      obtain rfl : r = rows.length := by omega
      have hsame : (column.data.put (rows.length * elementSize attr.type) (attr.entry k)).slice _
          (attr.entry k).length = _ := Block.slice_put_same
      rwa [Attributes.length_entry] at hsame

/-- A value is copied when it is in its table and its row in the buffer. -/
theorem copyValue_eq_ok {row : ℕ} : copyValue db tables row k columns c = .ok columns' ↔
    ∃ t attr column, tables[c]? = some t ∧ db.attributes[t]? = some attr ∧
      columns[c]? = some column ∧
      k * elementSize attr.type + elementSize attr.type ≤ attr.data.size ∧
      row * elementSize attr.type + elementSize attr.type ≤ column.data.size ∧
      columns' = columns.set c (column.putRow attr row k) := by
  simp only [copyValue, bind_eq_ok, fetch_eq_ok, Block.read_eq_ok, Block.write_eq_ok, store_eq_ok]
  constructor
  · rintro ⟨t, ht, attr, hattr, column, hcolumn, value, ⟨hread, rfl⟩, data, ⟨hwrite, rfl⟩, -, rfl⟩
    have hpos := elementSize_pos attr.type
    have hne : attr.data.slice (k * elementSize attr.type) (elementSize attr.type) ≠ [] := by
      intro hnil
      have := congrArg List.length hnil
      simp only [Block.length_slice, List.length_nil] at this
      omega
    refine ⟨t, attr, column, ht, hattr, hcolumn, hread.resolve_left hpos.ne', ?_, rfl⟩
    simpa using hwrite.resolve_left hne
  · rintro ⟨t, attr, column, ht, hattr, hcolumn, hread, hwrite, rfl⟩
    exact ⟨t, ht, attr, hattr, column, hcolumn, _, ⟨Or.inr hread, rfl⟩, _,
      ⟨Or.inr (by simpa using hwrite), rfl⟩, (List.getElem?_eq_some_iff.mp hcolumn).1, rfl⟩

/-- The columns before an index have one more row, and the others are as they were. -/
theorem columns_copyRow {row n : ℕ}
    (h : (List.range n).foldlM (copyValue db tables row k) columns = .ok columns') :
    columns'.length = columns.length ∧ ∀ c, if c < n then
      ∃ t attr column, tables[c]? = some t ∧ db.attributes[t]? = some attr ∧
        columns[c]? = some column ∧
        k * elementSize attr.type + elementSize attr.type ≤ attr.data.size ∧
        columns'[c]? = some (column.putRow attr row k)
      else columns'[c]? = columns[c]? := by
  induction n generalizing columns' with
  | zero =>
    obtain rfl := Except.ok.inj h
    exact ⟨rfl, fun c => by simp⟩
  | succ n ih =>
    rw [List.range_succ] at h
    obtain ⟨between, hbetween, hstep⟩ := foldlM_snoc_eq_ok.mp h
    obtain ⟨hlen, hall⟩ := ih hbetween
    obtain ⟨t, attr, column, ht, hattr, hcolumn, hread, -, rfl⟩ := copyValue_eq_ok.mp hstep
    refine ⟨by simpa using hlen, fun c => ?_⟩
    have hc := hall c
    rcases Nat.lt_trichotomy c n with hlt | rfl | hgt
    · rw [if_pos hlt] at hc
      rw [if_pos (by omega), List.getElem?_set_ne (by omega)]
      exact hc
    · rw [if_neg (lt_irrefl c)] at hc
      rw [if_pos (Nat.lt_succ_self c), List.getElem?_set_self (List.getElem?_eq_some_iff.mp hcolumn).1]
      exact ⟨t, attr, column, ht, hattr, hc ▸ hcolumn, hread, rfl⟩
    · rw [if_neg (by omega)] at hc
      rw [if_neg (by omega), List.getElem?_set_ne (by omega)]
      exact hc

/-- **One row is written to every column.** -/
theorem rows_copyRow {columns₀ : List ColumnData} (hopen : Opened u db names tables columns₀)
    (hrows : Rows u db names rows qr) (h : copyRow db tables qr k = .ok qr') :
    Rows u db names (rows ++ [k]) qr' := by
  obtain ⟨columns', hloop, h⟩ := bind_eq_ok.mp h
  obtain rfl := Except.ok.inj h
  obtain ⟨hlen, hall⟩ := columns_copyRow hloop
  refine ⟨?_, hrows.columnCount, hlen.trans hrows.length, fun c name attr column hc hattr hcolumn => ?_⟩
  · rw [hrows.dataLength, List.length_append, List.length_singleton]
  · have hlt : c < qr.columnCount := hrows.columnCount ▸ (List.getElem?_eq_some_iff.mp hc).1
    have hput := hall c
    rw [if_pos hlt] at hput
    obtain ⟨t, attr', column', ht, hattr', hcolumn', hread, hput⟩ := hput
    obtain ⟨attr'', t', htable, ht', hattr'', -⟩ := hopen.column c name hc
    obtain rfl := Option.some.inj (hattr.symm.trans htable)
    obtain rfl := Option.some.inj (ht.symm.trans ht')
    obtain rfl := Option.some.inj (hattr'.symm.trans hattr'')
    obtain rfl := Option.some.inj (hput.symm.trans hcolumn)
    rw [hrows.dataLength]
    exact (hrows.column c name attr' column' hc hattr hcolumn').put hread

/-- One row is written when its values are in their tables and the buffers have room. -/
theorem exists_copyRow {columns₀ : List ColumnData} (hopen : Opened u db names tables columns₀)
    (hrows : Rows u db names rows qr) (hrow : rows.length < db.keyCount)
    (hk : ∀ name ∈ names, ∀ attr, db.table name = some attr →
      k * elementSize attr.type + elementSize attr.type ≤ attr.data.size) :
    ∃ qr', copyRow db tables qr k = .ok qr' := by
  obtain ⟨columns', hloop, -⟩ := foldlM_range (f := copyValue db tables qr.dataLength k)
    (n := qr.columnCount) (s := qr.columns) (R := fun i columns =>
      columns.length = names.length ∧ ∀ c, i ≤ c → columns[c]? = qr.columns[c]?)
    ⟨hrows.length, fun _ _ => rfl⟩ (by
    rintro i columns hi ⟨hlen, hrest⟩
    have hi' : i < names.length := hrows.columnCount ▸ hi
    obtain ⟨attr, t, hattr, ht, hattr', -⟩ := hopen.column i _ (List.getElem?_eq_getElem hi')
    have hcolumn : qr.columns[i]? = some _ := List.getElem?_eq_getElem (hrows.length ▸ hi')
    have hsize := (hrows.column i _ attr _ (List.getElem?_eq_getElem hi') hattr hcolumn).size
    have hmul := Nat.mul_le_mul_right (elementSize attr.type) (Nat.succ_le_of_lt hrow)
    rw [Nat.succ_mul] at hmul
    refine ⟨_, copyValue_eq_ok.mpr ⟨t, attr, _, ht, hattr', (hrest i le_rfl).trans hcolumn,
      hk _ (List.getElem_mem hi') attr hattr, ?_, rfl⟩, by simpa using hlen, fun c hc => ?_⟩
    · rw [hsize, hrows.dataLength]
      exact hmul
    · rw [List.getElem?_set_ne (by omega)]
      exact hrest c (by omega))
  exact ⟨_, by rw [copyRow, hloop]; rfl⟩

end Copy

/-! ## Results -/

section Result

variable {u : Uninitialized} {db : Database} {q : Query} {qr : QueryReturn} {r : SetOpReturn}

theorem rows_opened {tables : List ℕ} {columns : List ColumnData}
    (hopen : Opened u db q.columnNames tables columns) :
    Rows u db q.columnNames [] ⟨0, columns, q.columnNames.length⟩ := by
  refine ⟨rfl, rfl, hopen.length, fun c name attr column hc hattr hcolumn => ?_⟩
  obtain ⟨attr', t, hattr', -, -, hcolumn'⟩ := hopen.column c name hc
  obtain rfl := Option.some.inj (hattr.symm.trans hattr')
  obtain rfl := Option.some.inj (hcolumn'.symm.trans hcolumn)
  exact holds_newColumn

/-- **The rows of a result**: one for each 1 bit, in every column. -/
theorem rows_dbRunQuery (h : dbRunQuery u db q = .ok qr) :
    ∃ r, dbRunSetOperation db q.op = .ok r ∧ Rows u db q.columnNames r.bs.ones qr ∧
      ∀ name ∈ q.columnNames, ∃ attr, db.table name = some attr := by
  obtain ⟨r, hr, h⟩ := bind_eq_ok.mp h
  split_ifs at h
  obtain ⟨⟨tables, columns⟩, hopen, h⟩ := bind_eq_ok.mp h
  change foldlBits _ _ _ = _ at h
  rw [foldlM_bits] at h
  have hopened := opened_openColumns hopen
  refine ⟨r, hr, ?_, fun name hname => ?_⟩
  · exact foldlM_simulation (R := fun rows qr => Rows u db q.columnNames rows qr)
      (rows_opened hopened) (fun _ _ _ _ hrows hstep => rows_copyRow hopened hrows hstep) h
  · obtain ⟨c, hc, rfl⟩ := List.getElem_of_mem hname
    obtain ⟨attr, -, hattr, -⟩ := hopened.column c _ (List.getElem?_eq_getElem hc)
    exact ⟨attr, hattr⟩

/-- A query returns when its columns exist, `attributeTables` has room for them, and every bit is
the bit of a key whose values lie within their tables. -/
theorem exists_dbRunQuery_of_bound (hinv : Inv db) (hpos : db.attrCount ≠ 0)
    (hroom : q.columnNames.length ≤ db.attrCount)
    (hcolumns : ∀ name ∈ q.columnNames, ∃ attr, db.table name = some attr)
    (hop : dbRunSetOperation db q.op = .ok r) (hlt : ∀ i, r.bs.bit i = true → i < db.keyCount)
    (hbound : ∀ name ∈ q.columnNames, ∀ attr, db.table name = some attr → ∀ i,
      r.bs.bit i = true → i * elementSize attr.type + elementSize attr.type ≤ attr.data.size)
    (u : Uninitialized) : ∃ qr, dbRunQuery u db q = .ok qr := by
  obtain ⟨⟨tables, columns⟩, hopen⟩ := exists_openColumns (u := u) hinv le_rfl hroom (by
    intro i name _ hname
    obtain ⟨attr, hattr⟩ := hcolumns name (List.mem_of_getElem? hname)
    obtain ⟨d, hd, -⟩ := table_eq_some.mp hattr
    rw [hd]
    rfl)
  have hopened := opened_openColumns hopen
  obtain ⟨qr, hrun, -⟩ := foldlM_prefix (f := copyRow db tables) (l := r.bs.ones)
    (R := fun rows qr => Rows u db q.columnNames rows qr) (rows_opened hopened) (by
    intro pre k post qr hl hpre
    have hk : r.bs.bit k = true := Bitset.mem_ones.mp (by rw [hl]; simp)
    have hcount := Bitset.length_ones_le hlt
    rw [hl, List.length_append, List.length_cons] at hcount
    obtain ⟨qr', hqr'⟩ := exists_copyRow (k := k) hopened hpre (by omega)
      fun name hname attr hattr => hbound name hname attr hattr k hk
    exact ⟨qr', hqr', rows_copyRow hopened hpre hqr'⟩)
  refine ⟨qr, ?_⟩
  rw [dbRunQuery, hop]
  simp only [ok_bind, if_neg hpos, hopen, foldlM_bits, hrun]

/-- **A query returns** when its columns exist and are made for queries, `attributeTables` has room
for them, and every bit is the bit of a key. -/
theorem exists_dbRunQuery (hinv : Inv db) (hcap : db.keyCount ≤ db.maxKeyCount)
    (hpos : db.attrCount ≠ 0) (hroom : q.columnNames.length ≤ db.attrCount)
    (hcolumns : ∀ name ∈ q.columnNames, ∃ attr, db.table name = some attr ∧ attr.Queryable)
    (hop : dbRunSetOperation db q.op = .ok r) (hlt : ∀ i, r.bs.bit i = true → i < db.keyCount)
    (u : Uninitialized) : ∃ qr, dbRunQuery u db q = .ok qr := by
  refine exists_dbRunQuery_of_bound hinv hpos hroom (fun name hname => ?_) hop hlt ?_ u
  · obtain ⟨attr, hattr, -⟩ := hcolumns name hname
    exact ⟨attr, hattr⟩
  · intro name hname attr hattr i hi
    obtain ⟨attr', hattr', hq⟩ := hcolumns name hname
    obtain rfl := Option.some.inj (hattr.symm.trans hattr')
    obtain ⟨d, -, hget⟩ := table_eq_some.mp hattr
    have hmul := Nat.mul_le_mul_right (elementSize attr.type)
      (Nat.succ_le_of_lt ((hlt i hi).trans_le hcap))
    rw [Nat.succ_mul] at hmul
    rw [hq.size_eq hinv (List.mem_of_getElem? hget)]
    exact hmul

end Result

end SetQL
