import SetQL.Parser.Language
import SetQL.Translation.Faithful

/-!
# Queries against a loaded database

A query over existing sets and columns returns the stored values of the keys in the set that it
asks for, row by row. A query that names an unknown set or column follows a null pointer: nothing
between the parser and the lookups checks the names.

## Main definitions

* `Materialised db q bs rows qr`: the result has one row for each key of a bitset
* `SafeLookups u db q`: a query follows no null pointer, and looks up its columns to the last

## Main results

* `dbRunQuery_materialised`: a query returns the values of the keys in its set, row by row
* `safeLookups_iff`: the lookups of a query are safe exactly when all its names are known, and the
  columns are no more than the attributes
-/

namespace SetQL

/-! ## The rows of a result -/

/-- The result of a query has one row for each key in a bitset, in the order of the keys, and in
every row the stored value of its key for each column. The buffers are sized by the keys of the
database. -/
structure Materialised (db : Database) (q : Query) (bs : Bitset) (rows : List ℕ)
    (qr : QueryReturn) : Prop where
  sorted : rows.Pairwise (· < ·)
  mem_rows : ∀ i, i ∈ rows ↔ bs.bit i = true
  columnCount : qr.columnCount = q.columnNames.length
  columns : qr.columns.length = q.columnNames.length
  dataLength : qr.dataLength = rows.length
  oneRow : ∀ k d, stSearch db.keyTable k = some d → bs.bit d.index = true →
    ∃! r : ℕ, rows[r]? = some d.index
  buffer : ∀ (c : ℕ) name column attr, q.columnNames[c]? = some name → qr.columns[c]? = some column →
    db.table name = some attr → column.isString = (if attr.type = .string then 1 else 0) ∧
      column.data.size = db.keyCount * elementSize attr.type
  value : ∀ (r i : ℕ), rows[r]? = some i → ∃ k, stSearch db.keyTable k = some ⟨i, k⟩ ∧
    ∀ (c : ℕ) name column attr, q.columnNames[c]? = some name → qr.columns[c]? = some column →
      db.table name = some attr → db.stored name k =
        some (column.data.slice (r * elementSize attr.type) (elementSize attr.type))

section Materialised

variable {db : Database} {q : Query} {e : SetExpr Bytes}

/-- The rows of a result are materialised. -/
theorem Rows.materialised {u : Uninitialized} {bs : Bitset} {qr : QueryReturn} (hinv : Inv db)
    (hcap : db.keyCount ≤ db.maxKeyCount)
    (hcolumns : ∀ name ∈ q.columnNames, ∃ attr, db.table name = some attr ∧ attr.Queryable)
    (hlt : ∀ i, bs.bit i = true → i < db.keyCount) (h : Rows u db q.columnNames bs.ones qr) :
    Materialised db q bs bs.ones qr := by
  refine ⟨bs.sorted_ones, fun i => Bitset.mem_ones, h.columnCount, h.length, h.dataLength,
    fun k d hd hbit => ?_, fun c name column attr hc hcolumn hattr => ?_, fun r i hr => ?_⟩
  · obtain ⟨r, hr, heq⟩ := List.getElem_of_mem (Bitset.mem_ones.mpr hbit)
    refine ⟨r, List.getElem?_eq_some_iff.mpr ⟨hr, heq⟩, fun r' hr' => ?_⟩
    obtain ⟨hlt', heq'⟩ := List.getElem?_eq_some_iff.mp hr'
    exact bs.nodup_ones.getElem_inj_iff.mp (heq'.trans heq.symm)
  · have hholds := h.column c name attr column hc hattr hcolumn
    exact ⟨hholds.isString, hholds.size⟩
  · have hbit : bs.bit i = true := Bitset.mem_ones.mp (List.mem_of_getElem? hr)
    have hentry : i < db.keyTable.entries.length := by
      rw [hinv.keys.length_eq hcap]
      exact hlt i hbit
    obtain ⟨k, hk⟩ := hinv.keys.exists_name hentry
    refine ⟨k, hk, fun c name column attr hc hcolumn hattr => ?_⟩
    obtain ⟨attr', hattr', hq⟩ := hcolumns name (List.mem_of_getElem? hc)
    obtain rfl := Option.some.inj (hattr.symm.trans hattr')
    rw [(h.column c name attr column hc hattr hcolumn).row r i hr, hq.entry_eq, Database.stored,
      hattr, hk]
    rfl

theorem isSome_of_table {name : Bytes} {attr : Attributes} (h : db.table name = some attr) :
    (stSearch db.attrNamesTable name).isSome := by
  obtain ⟨d, hd, -⟩ := table_eq_some.mp h
  rw [hd]
  rfl

/-- **A query returns the values of the keys in its set, row by row**: over a loaded database, with
existing sets, distinct existing columns that queries copy, and no bit without a key. -/
theorem dbRunQuery_materialised (hdb : Loaded db) (hop : q.op = e.toSetOp)
    (hleaves : ∀ s ∈ e.leaves, (stSearch db.setNamesTable s).isSome)
    (hnodup : q.columnNames.Nodup)
    (hcolumns : ∀ name ∈ q.columnNames, ∃ attr, db.table name = some attr ∧ attr.Queryable)
    (hlt : ∀ r, dbRunSetOperation db q.op = .ok r → ∀ i, r.bs.bit i = true → i < db.keyCount)
    (u : Uninitialized) :
    ∃ r rows qr, dbRunSetOperation db q.op = .ok r ∧ dbRunQuery u db q = .ok qr ∧
      Materialised db q r.bs rows qr := by
  obtain ⟨r, hr, -⟩ := dbRunSetOperation_toSetOp hdb.inv e hleaves
  rw [← hop] at hr
  have hroom : q.columnNames.length ≤ db.attrCount :=
    length_le_attrCount hdb.inv hnodup fun name hname => by
      obtain ⟨attr, hattr, -⟩ := hcolumns name hname
      exact isSome_of_table hattr
  obtain ⟨qr, hqr⟩ := exists_dbRunQuery hdb.inv hdb.keyCount_le hdb.attrCount_ne_zero hroom
    hcolumns hr (hlt r hr) u
  obtain ⟨r', hr', hrows, -⟩ := rows_dbRunQuery hqr
  obtain rfl := Except.ok.inj (hr.symm.trans hr')
  exact ⟨r, _, qr, hr, hqr, hrows.materialised hdb.inv hdb.keyCount_le hcolumns (hlt r hr)⟩

theorem queryable_of_shape {attr : Attributes}
    (h : attr.shape = newShape .string dbMaxStringLength) : attr.Queryable := by
  obtain ⟨htype, hlen⟩ := Shape.mk.inj h
  exact Or.inl ⟨htype, hlen⟩

/-- A database of one key, which is in a set, and of three columns. -/
theorem exists_single : ∃ db, Loaded db ∧ db.keyCount = 1 ∧
    (stSearch db.setNamesTable (lit "S")).isSome ∧ db.inSet (lit "S") 0 = true ∧
    ∀ p ∈ [(lit "id", AttrType.string), (lit "age", .type64), (lit "name", .string)],
      ∃ attr, db.table p.1 = some attr ∧ attr.shape = newShape p.2 dbMaxStringLength := by
  have hu := loadable_singleUniverse
  obtain ⟨db₀, s, h₀, hload, hrun, hsafe⟩ :=
    hu.exists_load ⟨fun _ _ => 0, fun _ _ _ => 0, fun _ _ _ => 0⟩
  have hcap := hsafe.keyCount_le
  have hset : (stSearch s.db.setNamesTable (lit "S")).isSome :=
    (hu.isSome_set_iff h₀ hrun hcap).mpr ⟨_, List.mem_singleton_self _, rfl⟩
  have hkey : ∃ r < singleUniverse.rows, singleUniverse.key r = lit "k" := ⟨0, by decide, rfl⟩
  obtain ⟨d, hd⟩ := Option.isSome_iff_exists.mp ((hu.isSome_key_iff h₀ hrun hcap).mpr hkey)
  have hindex : ∀ i < s.db.keyCount, i = d.index := by
    intro i hi
    obtain ⟨k, hk⟩ := hsafe.inv.keys.exists_name (hi.trans_eq (hsafe.inv.keys.length_eq hcap).symm)
    obtain ⟨r, hr, rfl⟩ := (hu.isSome_key_iff h₀ hrun hcap).mp (by rw [hk]; rfl)
    obtain rfl := Nat.lt_one_iff.mp hr
    exact congrArg TableData.index (Option.some.inj (hk.symm.trans hd))
  have hlt := hsafe.inv.keys.index_lt_count hd
  have hfirst := hindex 0 (by omega)
  have hcount : s.db.keyCount = 1 := by
    by_contra hne
    have := hindex 1 (by omega)
    omega
  have hin : s.db.inSet (lit "S") d.index = true := by
    rw [(refines_loadOps h₀ hrun hcap).members (lit "S") _ d hd, mem_run_iff]
    exact (hu.lastAdded_iff (List.mem_singleton_self _) hkey).mpr (by decide)
  obtain ⟨r, hr⟩ := Universe.exists_lastRow hkey
  have hcolumn : ∀ i < singleUniverse.attributeDataNames.length,
      ∃ attr, s.db.table (singleUniverse.attrName i) = some attr ∧
        attr.shape = newShape (storedType (singleUniverse.typeName i)) dbMaxStringLength := by
    intro i hi
    obtain ⟨hlast, hshape⟩ := hu.lastWritten_value _ hi hr
    obtain ⟨attr, hattr, hshape, -⟩ :=
      stored_of_lastWritten (represents_loadOps h₀ hrun hcap) hlast hshape
    exact ⟨attr, hattr, hshape⟩
  obtain ⟨attr, -, hattr, hshape, -⟩ := hu.stored_key h₀ hrun hcap hkey
  refine ⟨s.db, .first (by decide) h₀ hload, hcount, hset, hfirst ▸ hin, ?_⟩
  simp only [List.forall_mem_cons]
  exact ⟨⟨attr, hattr, hshape⟩, hcolumn 0 (by decide), hcolumn 1 (by decide), by simp⟩

/-- The keys of a set without those outside of it. -/
def singleExpr : SetExpr Bytes := .difference (.name (lit "S")) (.complement (.name (lit "S")))

theorem leaves_singleExpr {p : Bytes → Prop} (h : p (lit "S")) : ∀ s ∈ singleExpr.leaves, p s := by
  simpa [singleExpr, SetExpr.leaves] using h

theorem queryable_of_single (h : ∀ p ∈ [(lit "id", AttrType.string), (lit "age", .type64),
    (lit "name", .string)], ∃ attr, db.table p.1 = some attr ∧
      attr.shape = newShape p.2 dbMaxStringLength) :
    ∀ name ∈ [lit "id", lit "age", lit "name"],
      ∃ attr, db.table name = some attr ∧ attr.Queryable := by
  simp only [List.forall_mem_cons] at h ⊢
  obtain ⟨⟨id, hid, hidShape⟩, ⟨age, hage, hageShape⟩, ⟨name, hname, hnameShape⟩, -⟩ := h
  exact ⟨⟨id, hid, queryable_of_shape hidShape⟩, ⟨age, hage, Or.inr (Shape.mk.inj hageShape).1⟩,
    ⟨name, hname, queryable_of_shape hnameShape⟩, by simp⟩

theorem dbRunQuery_materialised_single : ∃ db, Loaded db ∧ ∀ u, ∃ r rows qr,
    dbRunSetOperation db singleExpr.toSetOp = .ok r ∧
      dbRunQuery u db ⟨[lit "name", lit "age"], singleExpr.toSetOp⟩ = .ok qr ∧
      Materialised db ⟨[lit "name", lit "age"], singleExpr.toSetOp⟩ r.bs rows qr := by
  obtain ⟨db, hdb, -, hset, -, htables⟩ := exists_single
  have hcolumns := queryable_of_single htables
  refine ⟨db, hdb, fun u => dbRunQuery_materialised (e := singleExpr)
    (q := ⟨[lit "name", lit "age"], singleExpr.toSetOp⟩) hdb rfl (leaves_singleExpr hset) ?_ ?_ ?_ u⟩
  · decide
  · exact fun name hname => hcolumns name ((by decide : [lit "name", lit "age"] ⊆ _) hname)
  · exact fun r hr i hi =>
      bit_lt_keyCount hdb.inv hdb.keyCount_le (leaves_singleExpr hset) rfl hr hi

end Materialised

/-! ## Lookups of unknown names -/

section Lookups

variable {u : Uninitialized} {db : Database} {q : Query} {columnNames : List Bytes} {s : Bytes}

/-- The copying of a row stops in one way only. -/
theorem copyRow_ne_error {e : Stop} (he : e ≠ .outOfBounds) (tables : List ℕ) (qr : QueryReturn)
    (k : ℕ) : copyRow db tables qr k ≠ .error e := by
  refine bind_ne_error (foldlM_ne_error fun columns col => ?_) fun columns _ => nofun
  refine bind_ne_error (fetch_ne_error he _ _) fun table _ => ?_
  refine bind_ne_error (fetch_ne_error he _ _) fun attr _ => ?_
  refine bind_ne_error (fetch_ne_error he _ _) fun column _ => ?_
  refine bind_ne_error (Block.read_ne_error he) fun value _ => ?_
  exact bind_ne_error (Block.write_ne_error he) fun data _ => store_ne_error he _ _ _

theorem foldlBits_ne_error {e : Stop} (he : e ≠ .outOfBounds) (tables : List ℕ) (bs : Bitset)
    (qr : QueryReturn) : foldlBits bs (copyRow db tables) qr ≠ .error e := by
  rw [foldlM_bits]
  exact foldlM_ne_error fun qr k => copyRow_ne_error he tables qr k

/-- The lookups of a query are safe: none of the null pointers that they may return is followed, and
the index of each column has its entry of `attributeTables`. -/
structure SafeLookups (u : Uninitialized) (db : Database) (q : Query) : Prop where
  ne_nullDeref : dbRunQuery u db q ≠ .error .nullDeref
  opened : ∃ state, (List.range q.columnNames.length).foldlM (openColumn u db q.columnNames)
    (List.replicate db.attrCount 0, []) = .ok state

/-- **The columns are opened to the last exactly when they are known**, and `attributeTables` has room
for them. -/
theorem exists_openColumns_iff (hinv : Inv db) :
    (∃ state, (List.range columnNames.length).foldlM (openColumn u db columnNames)
        (List.replicate db.attrCount 0, []) = .ok state) ↔
      (∀ name ∈ columnNames, (stSearch db.attrNamesTable name).isSome) ∧
        columnNames.length ≤ db.attrCount := by
  constructor
  · rintro ⟨state, hstate⟩
    refine ⟨fun name hname => ?_, (length_openColumns hstate).2.2⟩
    obtain ⟨c, hc, rfl⟩ := List.getElem_of_mem hname
    obtain ⟨attr, t, hattr, -⟩ :=
      (opened_openColumns hstate).column c _ (List.getElem?_eq_getElem hc)
    exact isSome_of_table hattr
  · rintro ⟨hknown, hroom⟩
    exact exists_openColumns hinv le_rfl hroom fun i name _ hname =>
      hknown name (List.mem_of_getElem? hname)

/-- **The lookups of a query are safe exactly when its names are known**, every set of its expression
and every column, and the columns are no more than the attributes. -/
theorem safeLookups_iff (hdb : Loaded db) (hq : parseQuery s = .ok (.ok q)) (u : Uninitialized) :
    SafeLookups u db q ↔
      (∀ set ∈ q.op.leaves, (stSearch db.setNamesTable set).isSome) ∧
        (∀ name ∈ q.columnNames, (stSearch db.attrNamesTable name).isSome) ∧
          q.columnNames.length ≤ db.attrCount := by
  rw [parseQuery_eq] at hq
  obtain ⟨ns, e, -, rfl⟩ := parseEntireQuery_eq_ok.mp hq
  rw [← exists_openColumns_iff (u := u) hdb.inv]
  simp only [SetExpr.leaves_toSetOp]
  constructor
  · rintro ⟨hne, hopened⟩
    refine ⟨?_, hopened⟩
    by_contra hleaves
    push Not at hleaves
    obtain ⟨set, hset, hnone⟩ := hleaves
    apply hne
    rw [dbRunQuery, dbRunSetOperation_unknown hdb.inv e
      ⟨set, hset, Option.not_isSome_iff_eq_none.mp hnone⟩]
    rfl
  · rintro ⟨hleaves, state, hstate⟩
    obtain ⟨r, hr, -⟩ := dbRunSetOperation_toSetOp hdb.inv e hleaves
    refine ⟨?_, state, hstate⟩
    rw [dbRunQuery, hr, ok_bind, if_neg hdb.attrCount_ne_zero, hstate, ok_bind]
    exact foldlBits_ne_error (by decide) _ _ _

theorem parseQuery_known : parseQuery (lit "SELECT id FROM S;") =
    .ok (.ok ⟨[lit "id"], createSetOpLeave (lit "S")⟩) := by decide

theorem parseQuery_single :
    parseQuery (lit "SELECT name, age FROM DIFFERENCE(S,COMPLEMENT(S));") =
      .ok (.ok ⟨[lit "name", lit "age"], singleExpr.toSetOp⟩) := by decide

theorem safeLookups_iff_single : ∃ db q, Loaded db ∧
    parseQuery (lit "SELECT name, age FROM DIFFERENCE(S,COMPLEMENT(S));") = .ok (.ok q) ∧
      ∀ u, SafeLookups u db q := by
  obtain ⟨db, hdb, -, hset, -, htables⟩ := exists_single
  have hcolumns : ∀ name ∈ [lit "name", lit "age"], (stSearch db.attrNamesTable name).isSome := by
    intro name hname
    obtain ⟨attr, hattr, -⟩ :=
      queryable_of_single htables name ((by decide : [lit "name", lit "age"] ⊆ _) hname)
    exact isSome_of_table hattr
  refine ⟨db, _, hdb, parseQuery_single, fun u => (safeLookups_iff hdb parseQuery_single u).mpr
    ⟨?_, hcolumns, length_le_attrCount hdb.inv (by decide) hcolumns⟩⟩
  rw [SetExpr.leaves_toSetOp]
  exact leaves_singleExpr hset

/-- An accepted query for an unknown set follows a null pointer. -/
theorem dbRunQuery_unknown : ∃ db q, Loaded db ∧
    parseQuery (lit "SELECT id FROM X;") = .ok (.ok q) ∧
      ∀ u, dbRunQuery u db q = .error .nullDeref := by
  have hu := loadable_singleUniverse
  obtain ⟨db₀, s, h₀, hload, hrun, hsafe⟩ :=
    hu.exists_load ⟨fun _ _ => 0, fun _ _ _ => 0, fun _ _ _ => 0⟩
  have hquery : parseQuery (lit "SELECT id FROM X;") =
      .ok (.ok ⟨[lit "id"], createSetOpLeave (lit "X")⟩) := by decide
  refine ⟨s.db, _, .first (by decide) h₀ hload, hquery, fun u => ?_⟩
  have hunknown : stSearch s.db.setNamesTable (lit "X") = none := by
    rw [← Option.not_isSome_iff_eq_none, hu.isSome_set_iff h₀ hrun hsafe.keyCount_le]
    decide
  simp only [dbRunQuery, createSetOpLeave, dbRunSetOperation, hunknown, error_bind]

end Lookups

end SetQL
