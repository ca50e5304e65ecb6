import SetQL.Server.Queries

/-!
# Lists of columns

A query may name more columns than the database has, as names can be repeated. The array
`attributeTables` has one entry for each attribute, and the `memorySize` of each column starts from
memory that was never written.

## Main definitions

* `SizesReported`: the `memorySize` of each column is the number of bytes written to it

## Main results

* `sizesReported_iff`: the sizes are right when the memory that they start from is zero
* `Loaded.tables`: the tables of a loaded database are of the types that a load creates
* `dbRunQuery_ne_outOfBounds_iff`: the lists of columns for which every index is in its array
-/

namespace SetQL

/-- The `memorySize` of each column is 256 bytes for each value of a string column, and 8 bytes for
each value of another. -/
def SizesReported (qr : QueryReturn) : Prop :=
  ∀ column ∈ qr.columns, column.memorySize =
    BitVec.ofNat 64 (qr.dataLength * if column.isString = 1 then dbMaxStringLength else 8)

variable {u : Uninitialized} {db : Database} {q : Query} {qr : QueryReturn} {r : SetOpReturn}

/-! ## Sizes -/

/-- The size of a column is what was written to it, and what it started from. -/
theorem memorySize_eq (h : dbRunQuery u db q = .ok qr) {c : ℕ} {column : ColumnData}
    (hc : qr.columns[c]? = some column) : column.memorySize = u.memorySize c +
      BitVec.ofNat 64 (qr.dataLength * if column.isString = 1 then dbMaxStringLength else 8) := by
  obtain ⟨r, -, hrows, htables⟩ := rows_dbRunQuery h
  have hlt : c < q.columnNames.length := hrows.length ▸ (List.getElem?_eq_some_iff.mp hc).1
  obtain ⟨attr, hattr⟩ := htables _ (List.getElem_mem hlt)
  have hholds := hrows.column c _ attr column (List.getElem?_eq_getElem hlt) hattr hc
  have hsize : (if column.isString = 1 then dbMaxStringLength else 8) = elementSize attr.type := by
    rw [hholds.isString, elementSize]
    by_cases htype : attr.type = .string
    · rw [if_pos htype, if_pos rfl, if_pos htype]
    · rw [if_neg htype, if_neg Nat.zero_ne_one, if_neg htype]
  rw [hholds.memorySize, hsize, hrows.dataLength]

/-- **The sizes of the columns are right exactly when the memory that they start from is zero.** -/
theorem sizesReported_iff (h : dbRunQuery u db q = .ok qr) :
    SizesReported qr ↔ ∀ c < q.columnNames.length, u.memorySize c = 0 := by
  obtain ⟨r, -, hrows, -⟩ := rows_dbRunQuery h
  constructor
  · intro hsizes c hc
    have hget := List.getElem?_eq_getElem (hrows.length.symm ▸ hc)
    have hsize := hsizes _ (List.mem_of_getElem? hget)
    rw [memorySize_eq h hget] at hsize
    exact BitVec.add_left_eq_self.mp hsize
  · intro hzero column hcolumn
    obtain ⟨c, hc, rfl⟩ := List.getElem_of_mem hcolumn
    rw [memorySize_eq h (List.getElem?_eq_getElem hc), hzero c (hrows.length ▸ hc)]
    exact BitVec.zero_add _

/-- A database of an empty set and a column of integers. -/
def emptyDatabase : Database :=
  ⟨[⟨[0]⟩], [newAttributes 1 .type64 0], ⟨[some ⟨0, lit "S"⟩], 1⟩, ⟨[some ⟨0, lit "a"⟩], 1⟩,
    createTable 1, 1, 0, 1, 1, []⟩

theorem dbRunQuery_emptyDatabase (u : Uninitialized) :
    dbRunQuery u emptyDatabase ⟨[lit "a"], createSetOpLeave (lit "S")⟩ =
      .ok ⟨0, [⟨0, Block.zeroed 0, u.memorySize 0⟩], 1⟩ := rfl

/-- A result with one row of a string and an integer. -/
theorem exists_dbRunQuery_single (u : Uninitialized) : ∃ db qr, Loaded db ∧
    dbRunQuery u db ⟨[lit "name", lit "age"], singleExpr.toSetOp⟩ = .ok qr ∧ qr.dataLength = 1 ∧
      qr.columns.map ColumnData.isString = [1, 0] := by
  obtain ⟨db, hdb, hcount, hset, hin, htables⟩ := exists_single
  have hcolumns := queryable_of_single htables
  have hsub : [lit "name", lit "age"] ⊆ [lit "id", lit "age", lit "name"] := by decide
  obtain ⟨r, hr, hev⟩ := dbRunSetOperation_toSetOp hdb.inv singleExpr (leaves_singleExpr hset)
  have hlt : ∀ i, r.bs.bit i = true → i < db.keyCount := fun i =>
    bit_lt_keyCount hdb.inv hdb.keyCount_le (leaves_singleExpr hset) rfl hr
  obtain ⟨qr, hqr⟩ := exists_dbRunQuery (q := ⟨[lit "name", lit "age"], singleExpr.toSetOp⟩) hdb.inv
    hdb.keyCount_le hdb.attrCount_ne_zero
    (length_le_attrCount hdb.inv (by decide) fun name hname => by
      obtain ⟨attr, hattr, -⟩ := hcolumns name (hsub hname)
      exact isSome_of_table hattr)
    (fun name hname => hcolumns name (hsub hname)) hr hlt u
  refine ⟨db, qr, hdb, hqr, ?_, ?_⟩
  · obtain ⟨r', hr', hlength⟩ := dataLength_dbRunQuery hqr
    obtain rfl := Except.ok.inj (hr.symm.trans hr')
    have hbit : r.bs.bit 0 = true := by
      rw [hev.bit 0 (hdb.inv.inSet_lt_words hin)]
      simp [singleExpr, SetExpr.evalBool, hin]
    have hle := Bitset.length_ones_le hlt
    have hpos := List.length_pos_of_mem (Bitset.mem_ones.mpr hbit)
    omega
  · obtain ⟨r', -, hrows, -⟩ := rows_dbRunQuery hqr
    simp only [List.forall_mem_cons] at htables
    obtain ⟨-, ⟨age, hage, hageShape⟩, ⟨name, hname, hnameShape⟩, -⟩ := htables
    obtain ⟨first, second, hlist⟩ := List.length_eq_two.mp hrows.length
    have hfirst := (hrows.column 0 _ name first rfl hname (by rw [hlist]; rfl)).isString
    have hsecond := (hrows.column 1 _ age second rfl hage (by rw [hlist]; rfl)).isString
    rw [(Shape.mk.inj hnameShape).1] at hfirst
    rw [(Shape.mk.inj hageShape).1] at hsecond
    rw [hlist, List.map_cons, List.map_cons, hfirst, hsecond]
    rfl

theorem sizesReported_iff_single : ∃ db qr, Loaded db ∧
    dbRunQuery ⟨fun _ => 0, fun _ _ => 0⟩ db ⟨[lit "name", lit "age"], singleExpr.toSetOp⟩ = .ok qr ∧
      qr.columns.map ColumnData.memorySize = [256, 8] := by
  obtain ⟨db, qr, hdb, hqr, hlength, hstrings⟩ :=
    exists_dbRunQuery_single ⟨fun _ => 0, fun _ _ => 0⟩
  have hsizes := (sizesReported_iff hqr).mpr fun _ _ => rfl
  refine ⟨db, qr, hdb, hqr, ?_⟩
  obtain ⟨first, rest, hlist, hfirst, hrest⟩ := List.map_eq_cons_iff.mp hstrings
  obtain ⟨second, hrest, hsecond⟩ := List.map_eq_singleton_iff.mp hrest
  rw [SizesReported, hlist, hrest, List.forall_mem_cons, List.forall_mem_singleton, hlength, hfirst,
    hsecond] at hsizes
  rw [hlist, hrest, List.map_cons, List.map_singleton, hsizes.1, hsizes.2]
  decide

/-- A column without a row whose size starts from 8. -/
theorem not_sizesReported : ¬ ∀ u db q qr, dbRunQuery u db q = .ok qr → SizesReported qr := by
  intro hall
  have hsizes := hall ⟨fun _ => 8, fun _ _ => 0⟩ _ _ _ (dbRunQuery_emptyDatabase _)
  have hsize := hsizes _ (List.mem_singleton_self _)
  exact absurd hsize (by decide)

/-! ## Indices -/

/-- The tables of a loaded database are of the types that a load creates. -/
theorem Loaded.tables (h : Loaded db) :
    ∀ attr ∈ db.attributes, attr.Queryable ∨ attr.type = .undefined := by
  have hcall : ∀ (s : Load) (op : Op) (s' : Load), op.Loads →
      (∀ attr ∈ s.db.attributes, attr.Queryable ∨ attr.type = .undefined) → s.call op = .ok s' →
      ∀ attr ∈ s'.db.attributes, attr.Queryable ∨ attr.type = .undefined := by
    intro s op s' hop hs hcall
    obtain ⟨db', hexec, rfl⟩ := Load.call_eq_ok.mp hcall
    exact tables_exec hs hop hexec
  have hload : ∀ {mem u db₀ s ret},
      (∀ attr ∈ db₀.attributes, attr.Queryable ∨ attr.type = .undefined) →
      dbAddParsedData mem db₀ u = .ok (s, ret) →
      ∀ attr ∈ s.db.attributes, attr.Queryable ∨ attr.type = .undefined := by
    intro mem u db₀ s ret hdb h
    refine load_invariant
      (I := fun s => ∀ attr ∈ s.db.attributes, attr.Queryable ∨ attr.type = .undefined)
      (fun uname s ret hopen => ?_) (fun s s' ret => dbAddParsedDataKeys_invariant hcall)
      (fun s op s' _ => hcall s op s') h
    rw [openKeyColumn] at hopen
    split_ifs at hopen
    · obtain ⟨t, ht, hopen⟩ := bind_eq_ok.mp hopen
      obtain ⟨rfl, -⟩ := Prod.mk.inj (Except.ok.inj hopen)
      exact hcall _ _ _ (by exact Or.inl ⟨rfl, rfl⟩) hdb ht
    · obtain ⟨rfl, -⟩ := Prod.mk.inj (Except.ok.inj hopen)
      exact hdb
    · obtain ⟨rfl, -⟩ := Prod.mk.inj (Except.ok.inj hopen)
      exact hdb
  induction h with
  | first _ h₀ h =>
    obtain ⟨_, _, _, -, -, -, rfl⟩ := createEmptyDB_eq_ok h₀
    exact hload (fun attr hattr => absurd hattr List.not_mem_nil) h
  | next _ h ih => exact hload ih h

/-- A column past the end of `attributeTables` is stored out of bounds. -/
theorem openColumns_of_lt (hinv : Inv db)
    (hcolumns : ∀ name ∈ q.columnNames, (stSearch db.attrNamesTable name).isSome)
    (hlt : db.attrCount < q.columnNames.length) :
    (List.range q.columnNames.length).foldlM (openColumn u db q.columnNames)
      (List.replicate db.attrCount 0, []) = .error .outOfBounds := by
  obtain ⟨state, hstate⟩ := exists_openColumns (u := u) hinv hlt.le le_rfl fun i name _ hname =>
    hcolumns name (List.mem_of_getElem? hname)
  obtain ⟨d, hd⟩ := Option.isSome_iff_exists.mp (hcolumns _ (List.getElem_mem hlt))
  refine foldlM_range_eq_error.mpr ⟨db.attrCount, hlt, state, hstate, ?_⟩
  rw [openColumn, fetch_of_lt hlt, ok_bind, hd]
  simp only [store_of_le (length_openColumns hstate).1.le, error_bind]

/-- A table of no type has no values. -/
theorem Inv.size_of_undefined (hinv : Inv db) {attr : Attributes} (hattr : attr ∈ db.attributes)
    (htype : attr.type = .undefined) : attr.data.size = 0 := by
  rw [hinv.tables attr hattr, htype]
  rfl

/-- **Every index of a query is in its array** exactly when it has at most as many columns as the
database has attributes, and selects no key or no column of no type. -/
theorem dbRunQuery_ne_outOfBounds_iff (hdb : Loaded db)
    (hcolumns : ∀ name ∈ q.columnNames, (stSearch db.attrNamesTable name).isSome)
    (hop : dbRunSetOperation db q.op = .ok r) (hlt : ∀ i, r.bs.bit i = true → i < db.keyCount)
    (u : Uninitialized) :
    dbRunQuery u db q ≠ .error .outOfBounds ↔ q.columnNames.length ≤ db.attrCount ∧
      ((∃ i, r.bs.bit i = true) → ∀ name ∈ q.columnNames, ∀ attr, db.table name = some attr →
        attr.type ≠ .undefined) := by
  have hpos := hdb.attrCount_ne_zero
  constructor
  · intro hne
    have hroom : q.columnNames.length ≤ db.attrCount := by
      by_contra hover
      apply hne
      rw [dbRunQuery, hop, ok_bind, if_neg hpos,
        openColumns_of_lt hdb.inv hcolumns (Nat.not_le.mp hover)]
      rfl
    refine ⟨hroom, ?_⟩
    rintro ⟨i, hi⟩ name hname attr hattr htype
    obtain ⟨d, -, hget⟩ := table_eq_some.mp hattr
    have hsize := hdb.inv.size_of_undefined (List.mem_of_getElem? hget) htype
    cases hrun : dbRunQuery u db q with
    | ok qr =>
      obtain ⟨r', hr', hrows, -⟩ := rows_dbRunQuery hrun
      obtain rfl := Except.ok.inj (hop.symm.trans hr')
      obtain ⟨c, hc, rfl⟩ := List.getElem_of_mem hname
      have hholds := hrows.column c _ attr _ (List.getElem?_eq_getElem hc) hattr
        (List.getElem?_eq_getElem (hrows.length.symm ▸ hc))
      have hbound := hholds.bound i (Bitset.mem_ones.mpr hi)
      have hpos := elementSize_pos attr.type
      omega
    | error e =>
      refine hne (hrun.trans (congrArg Except.error ?_))
      by_contra he
      obtain ⟨state, hstate⟩ := exists_openColumns (u := u) hdb.inv le_rfl hroom fun i name _ hi =>
        hcolumns name (List.mem_of_getElem? hi)
      rw [dbRunQuery, hop, ok_bind, if_neg hpos, hstate, ok_bind] at hrun
      exact foldlBits_ne_error he _ _ _ hrun
  · rintro ⟨hroom, htypes⟩
    have htable : ∀ name ∈ q.columnNames, ∃ attr, db.table name = some attr := by
      intro name hname
      obtain ⟨d, hd⟩ := Option.isSome_iff_exists.mp (hcolumns name hname)
      obtain ⟨attr, -, hattr⟩ := hdb.inv.exists_table hd
      exact ⟨attr, hattr⟩
    obtain ⟨qr, hrun⟩ := exists_dbRunQuery_of_bound hdb.inv hpos hroom htable hop hlt (by
      intro name hname attr hattr i hi
      obtain ⟨d, -, hget⟩ := table_eq_some.mp hattr
      have hmem := List.mem_of_getElem? hget
      have hquery := (hdb.tables attr hmem).resolve_right (htypes ⟨i, hi⟩ name hname attr hattr)
      rw [hquery.size_eq hdb.inv hmem, ← Nat.succ_mul]
      exact Nat.mul_le_mul_right _ ((hlt i hi).trans_le hdb.keyCount_le)) u
    rw [hrun]
    rintro ⟨⟩

theorem dbRunQuery_ne_outOfBounds_iff_single : ∃ db, Loaded db ∧ ∀ u,
    dbRunQuery u db ⟨[lit "name", lit "age"], singleExpr.toSetOp⟩ ≠ .error .outOfBounds := by
  obtain ⟨db, hdb, -, hset, -, htables⟩ := exists_single
  have hcolumns := queryable_of_single htables
  have hsub : [lit "name", lit "age"] ⊆ [lit "id", lit "age", lit "name"] := by decide
  have hknown : ∀ name ∈ [lit "name", lit "age"], (stSearch db.attrNamesTable name).isSome := by
    intro name hname
    obtain ⟨attr, hattr, -⟩ := hcolumns name (hsub hname)
    exact isSome_of_table hattr
  obtain ⟨r, hr, -⟩ := dbRunSetOperation_toSetOp hdb.inv singleExpr (leaves_singleExpr hset)
  refine ⟨db, hdb, fun u => (dbRunQuery_ne_outOfBounds_iff
    (q := ⟨[lit "name", lit "age"], singleExpr.toSetOp⟩) hdb hknown hr (fun i => bit_lt_keyCount hdb.inv
      hdb.keyCount_le (leaves_singleExpr hset) rfl hr) u).mpr
    ⟨length_le_attrCount hdb.inv (by decide) hknown, fun _ name hname attr hattr => ?_⟩⟩
  obtain ⟨attr', hattr', hquery⟩ := hcolumns name (hsub hname)
  obtain rfl := Option.some.inj (hattr.symm.trans hattr')
  rcases hquery with ⟨htype, -⟩ | htype <;> rw [htype] <;> decide

/-- The key column, once more than the database has attributes. -/
theorem dbRunQuery_outOfBounds : ∃ db q r, Loaded db ∧
    (∀ name ∈ q.columnNames, (stSearch db.attrNamesTable name).isSome) ∧
    dbRunSetOperation db q.op = .ok r ∧ (∀ i, r.bs.bit i = true → i < db.keyCount) ∧
    ∀ u, dbRunQuery u db q = .error .outOfBounds := by
  obtain ⟨db, hdb, -, hset, -, htables⟩ := exists_single
  obtain ⟨attr, hattr, -⟩ := queryable_of_single htables _ List.mem_cons_self
  obtain ⟨r, hr, -⟩ := dbRunSetOperation_toSetOp hdb.inv (.name (lit "S"))
    (fun s hs => List.mem_singleton.mp hs ▸ hset)
  obtain ⟨q, hq⟩ : ∃ q : Query, q = ⟨List.replicate (db.attrCount + 1) (lit "id"),
    createSetOpLeave (lit "S")⟩ := ⟨_, rfl⟩
  have hcolumns : ∀ name ∈ q.columnNames, (stSearch db.attrNamesTable name).isSome := by
    intro name hname
    rw [hq] at hname
    rw [(List.mem_replicate.mp hname).2]
    exact isSome_of_table hattr
  have hop : dbRunSetOperation db q.op = .ok r := by
    rw [hq]
    exact hr
  have hlen : db.attrCount < q.columnNames.length := by
    rw [hq, List.length_replicate]
    exact Nat.lt_succ_self _
  refine ⟨db, q, r, hdb, hcolumns, hop, fun i => bit_lt_keyCount (e := .name (lit "S")) hdb.inv
    hdb.keyCount_le (fun s hs => List.mem_singleton.mp hs ▸ hset) rfl hr, fun u => ?_⟩
  rw [dbRunQuery, hop, ok_bind, if_neg hdb.attrCount_ne_zero,
    openColumns_of_lt hdb.inv hcolumns hlen]
  rfl

end SetQL
