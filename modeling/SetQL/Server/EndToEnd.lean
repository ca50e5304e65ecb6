import SetQL.Server.Answers
import SetQL.Server.Queries
import SetQL.Server.Wire

/-!
# From the text of a query to the answer

A server that has loaded a universe answers a query with the bytes from which the client reads what
the query means over the universe. The way there leads through the parser, the set operation, the
rows of the result, the sends of the server and the reads of the client; the answer knows of none of
them.

## Main definitions

* `Answerable u ns e`: the names of the query are known, and its values can be sent
* `Serves u db`: a server with the database answers the queries about the universe

## Main results

* `exists_result`: a query returns the rows of the selected keys
* `carries_answer`: these rows carry the answer
* `LoadedFrom.serves`: a loaded universe is served
* `fetchResult_messageCallbackFunc`: the client reads the answer
-/

namespace SetQL

/-- The sets and columns of a query are known, no complement reaches past the keys, and the values
can be sent: strings in UTF-8 that are shorter than their slots, in columns of less than 2 GiB. -/
structure Answerable (u : Universe) (ns : List Bytes) (e : SetExpr Bytes) : Prop where
  sets : ∀ s ∈ e.leaves, ∃ set ∈ u.sets, set.name = s
  columns : ∀ n ∈ ns, n ∈ u.columnNames
  length_le : ns.length ≤ u.columnNames.length
  texts : ∀ n ∈ ns, u.IsText n → ∀ k ∈ u.selected e,
    (u.cell n k).length < dbMaxStringLength ∧ IsUtf8 (u.cell n k)
  noPhantom : u.distinctKeys.length = 64 * ceilDivSingle u.rows 64 ∨
    e.evalBool (fun _ => false) = false
  rows_lt : (u.selected e).length < 2 ^ 23

theorem utf8_ofUtf8 {s : Bytes} (h : IsUtf8 s) : utf8 (ofUtf8 s) = s := by
  obtain ⟨string, hstring⟩ := Option.isSome_iff_exists.mp h
  rw [ofUtf8, hstring, Option.getD_some, utf8]
  rw [String.fromUTF8?] at hstring
  split_ifs at hstring
  obtain rfl := Option.some.inj hstring
  show s.toByteArray.data.toList = s
  simp

section Result

variable {mem : Memory} {un : Uninitialized} {u : Universe} {db : Database} {e : SetExpr Bytes}
  {ns : List Bytes} {n k msg : Bytes} {r c : ℕ} {ret : QueryReturn} {attr : Attributes}
  {column : ColumnData}

/-! ## The rows of a result -/

/-- The indices of the selected keys. -/
def selectedRows (u : Universe) (db : Database) (e : SetExpr Bytes) : List ℕ :=
  (List.range u.distinctKeys.length).filter (db.evalAt e)

/-- The 1 bits of a result are the indices of the selected keys. -/
theorem ones_eq_selectedRows (h : LoadedFrom mem u db) (ha : Answerable u ns e) {b : Bitset}
    (hev : Evaluates db e b) : b.ones = selectedRows u db e := by
  obtain ⟨db₀, h₀, hrun⟩ := h.run
  rw [hev.ones_eq, wordCount_run hrun, wordCount_withKeyColumn h₀, selectedRows]
  rcases ha.noPhantom with hfull | hfalse
  · rw [hfull]
  · -- past the keys an expression reads as it does on empty sets
    have hkeys := h.keyCount_eq.symm.trans_le h.keyCount_le
    have hrows := le_ceilDivSingle_mul (d := 64) h.loadable.rows_le (by decide)
    refine filter_range_of_le (hkeys.trans hrows) fun i hi => ?_
    have hpast := evalAt_past (e := e) h.safe.inv (h.safe.inv.keys.length_eq h.safe.keyCount_le)
      (Or.inl (h.keyCount_eq.trans_le hi))
    exact hpast.trans hfalse

theorem length_selectedRows (h : LoadedFrom mem u db)
    (hsets : ∀ s ∈ e.leaves, ∃ set ∈ u.sets, set.name = s) :
    (selectedRows u db e).length = (u.selected e).length := by
  rw [h.selected_eq hsets, List.length_map, selectedRows]

/-- A selected key is read from the row of its index. -/
theorem exists_selectedRow (h : LoadedFrom mem u db)
    (hsets : ∀ s ∈ e.leaves, ∃ set ∈ u.sets, set.name = s) (hk : (u.selected e)[r]? = some k) :
    ∃ i, (selectedRows u db e)[r]? = some i ∧ stSearch db.keyTable k = some ⟨i, k⟩ := by
  rw [h.selected_eq hsets, List.getElem?_map] at hk
  obtain ⟨i, hi, rfl⟩ := Option.map_eq_some_iff.mp hk
  have hlt : i < u.distinctKeys.length :=
    List.mem_range.mp (List.mem_filter.mp (List.mem_of_getElem? hi)).1
  refine ⟨i, hi, h.stSearch_eq_some_iff.mpr ?_⟩
  rw [List.getElem?_eq_getElem hlt, Option.getD_some]

/-- The columns of a query are there, and made for queries. -/
theorem LoadedFrom.exists_queryable (h : LoadedFrom mem u db) (hn : n ∈ u.columnNames) :
    ∃ attr, db.table n = some attr ∧ attr.Queryable := by
  by_cases htext : u.IsText n
  · obtain ⟨attr, hattr, hshape, -⟩ := h.exists_textColumn hn htext
    exact ⟨attr, hattr, queryable_of_shape hshape⟩
  · obtain ⟨attr, hattr, hshape, -⟩ := h.exists_integerColumn hn htext
    exact ⟨attr, hattr, Or.inr (Shape.mk.inj hshape).1⟩

/-- `attributeTables` has room for as many columns as there are names. -/
theorem LoadedFrom.columnNames_le (h : LoadedFrom mem u db) :
    u.columnNames.length ≤ db.attrCount := by
  refine length_le_attrCount h.safe.inv h.loadable.names fun n hn => ?_
  obtain ⟨attr, hattr, -⟩ := h.exists_queryable hn
  exact isSome_of_table hattr

/-- **A query returns the rows of the selected keys.** -/
theorem exists_result (h : LoadedFrom mem u db) (ha : Answerable u ns e) (un : Uninitialized) :
    ∃ ret, dbRunQuery un db ⟨ns, e.toSetOp⟩ = .ok ret ∧ Rows un db ns (selectedRows u db e) ret := by
  obtain ⟨db₀, h₀, hrun⟩ := h.run
  have hcap := h.safe.keyCount_le
  obtain ⟨res, hres, hev⟩ := dbRunSetOperation_toSetOp h.safe.inv e fun s hs =>
    (h.loadable.isSome_set_iff h₀ hrun hcap).mpr (ha.sets s hs)
  have hones := ones_eq_selectedRows h ha hev
  have hroom := ha.length_le.trans h.columnNames_le
  have hpos : db.attrCount ≠ 0 :=
    ((Nat.succ_pos _).trans_le h.columnNames_le : 0 < db.attrCount).ne'
  have hlt : ∀ i, res.bs.bit i = true → i < db.keyCount := by
    intro i hi
    rw [← Bitset.mem_ones, hones] at hi
    rw [h.keyCount_eq]
    exact List.mem_range.mp (List.mem_filter.mp hi).1
  obtain ⟨ret, hret⟩ := exists_dbRunQuery (q := ⟨ns, e.toSetOp⟩) h.safe.inv hcap hpos hroom
    (fun n hn => h.exists_queryable (ha.columns n hn)) hres hlt un
  obtain ⟨res', hres', hrows, -⟩ := rows_dbRunQuery hret
  obtain rfl := Except.ok.inj (hres.symm.trans hres')
  exact ⟨ret, hret, hones ▸ hrows⟩

/-! ## The values of a result -/

/-- The slot of a row holds the stored value of its key. -/
theorem stored_eq_slice {rows : List ℕ} {i : ℕ} (hattr : db.table n = some attr)
    (hq : attr.Queryable) (hholds : Holds un db.keyCount c attr rows column)
    (hi : rows[r]? = some i) (hk : stSearch db.keyTable k = some ⟨i, k⟩) :
    db.stored n k =
      some (column.data.slice (r * elementSize attr.type) (elementSize attr.type)) := by
  rw [hholds.row r i hi, hq.entry_eq, Database.stored, hattr, hk]
  rfl

theorem elementSize_le (type : AttrType) : elementSize type ≤ 256 := by
  cases type <;> decide

/-- The size of a column that was cleared first. -/
theorem toNat_memorySize {rows : List ℕ} (hun : un.memorySize c = 0) (hlt : rows.length < 2 ^ 23)
    (hholds : Holds un db.keyCount c attr rows column) :
    column.memorySize.toNat = rows.length * elementSize attr.type := by
  have hmul := Nat.mul_le_mul_left rows.length (elementSize_le attr.type)
  rw [hholds.memorySize, hun, show (0 : BitVec 64) = 0#64 from rfl, BitVec.zero_add,
    BitVec.toNat_ofNat, Nat.mod_eq_of_lt (by omega)]

/-- **A column of the result encodes the column of the answer.** -/
theorem encodes_columnOf (h : LoadedFrom mem u db) (ha : Answerable u ns e)
    (hun : un.memorySize c = 0) (hn : n ∈ ns) (hattr : db.table n = some attr)
    (hholds : Holds un db.keyCount c attr (selectedRows u db e) column) :
    Encodes (selectedRows u db e).length column (u.columnOf (u.selected e) n) := by
  have hlen := length_selectedRows h ha.sets
  have hsize := toNat_memorySize hun (hlen.trans_lt ha.rows_lt) hholds
  have hkey : ∀ k ∈ u.selected e, k ∈ u.keys := fun k hk =>
    mem_distinctKeys_iff.mp (List.mem_filter.mp hk).1
  by_cases htext : u.IsText n
  · obtain ⟨attr', hattr', hshape, hcells⟩ := h.exists_textColumn (ha.columns n hn) htext
    obtain rfl := Option.some.inj (hattr.symm.trans hattr')
    have htype : attr.type = .string := (Shape.mk.inj hshape).1
    have hes : elementSize attr.type = 256 := by rw [htype]; rfl
    rw [Universe.columnOf, if_pos htext]
    refine ⟨by rw [hholds.isString, if_pos htype], by rw [hsize, hes],
      by rw [List.length_map, hlen], fun r s hs => ?_⟩
    rw [List.getElem?_map] at hs
    obtain ⟨k, hk, rfl⟩ := Option.map_eq_some_iff.mp hs
    obtain ⟨hshort, hutf⟩ := ha.texts n hn htext k (List.mem_of_getElem? hk)
    obtain ⟨i, hi, hd⟩ := exists_selectedRow h ha.sets hk
    have hslot := stored_eq_slice hattr (queryable_of_shape hshape) hholds hi hd
    obtain ⟨b, hb, hcell⟩ := hcells k (hkey k (List.mem_of_getElem? hk))
    rw [hb, Option.some.injEq, hes] at hslot
    rw [utf8_ofUtf8 hutf]
    exact ⟨hshort, hslot ▸ hcell⟩
  · obtain ⟨attr', hattr', hshape, hcells⟩ := h.exists_integerColumn (ha.columns n hn) htext
    obtain rfl := Option.some.inj (hattr.symm.trans hattr')
    have htype : attr.type = .type64 := (Shape.mk.inj hshape).1
    have hes : elementSize attr.type = 8 := by rw [htype]; rfl
    rw [Universe.columnOf, if_neg htext]
    refine ⟨by rw [hholds.isString, htype]; rfl, by rw [hsize, hes],
      by rw [List.length_map, hlen], fun r z hz => ?_⟩
    rw [List.getElem?_map] at hz
    obtain ⟨k, hk, rfl⟩ := Option.map_eq_some_iff.mp hz
    obtain ⟨i, hi, hd⟩ := exists_selectedRow h ha.sets hk
    have hslot := stored_eq_slice hattr (Or.inr htype) hholds hi hd
    obtain ⟨z, rfl, hrange, hb⟩ := hcells k (hkey k (List.mem_of_getElem? hk))
    rw [hb, Option.some.injEq, hes] at hslot
    exact ⟨hrange, hslot.symm⟩

/-- A column of the result belongs to a name of the query. -/
theorem exists_holds (h : LoadedFrom mem u db) (ha : Answerable u ns e)
    (hrows : Rows un db ns (selectedRows u db e) ret) (hc : c < ret.columns.length) :
    ∃ n attr, ns[c]? = some n ∧ db.table n = some attr ∧
      Holds un db.keyCount c attr (selectedRows u db e) ret.columns[c] := by
  have hc' : c < ns.length := hrows.length ▸ hc
  obtain ⟨attr, hattr, -⟩ := h.exists_queryable (ha.columns _ (List.getElem_mem hc'))
  exact ⟨_, attr, List.getElem?_eq_getElem hc', hattr, hrows.column c _ attr _
    (List.getElem?_eq_getElem hc') hattr (List.getElem?_eq_getElem hc)⟩

/-- **The result of a query carries the answer.** -/
theorem carries_answer (h : LoadedFrom mem u db) (ha : Answerable u ns e)
    (hun : ∀ c, un.memorySize c = 0) (hrows : Rows un db ns (selectedRows u db e) ret) :
    Carries ret (u.answer ns e) := by
  have hlen := length_selectedRows h ha.sets
  have hlt := ha.rows_lt
  have hnames := ha.length_le
  have hattrs := h.loadable.attributes_le
  refine ⟨hrows.columnCount.trans hrows.length.symm, ?_, ?_, fun column hmem => ?_,
    List.forall₂_iff_get.mpr ⟨?_, fun c hc hc' => ?_⟩⟩
  · rw [hrows.columnCount]
    simp only [Universe.columnNames, List.length_cons] at hnames
    omega
  · rw [hrows.dataLength]
    omega
  · obtain ⟨c, hc, rfl⟩ := List.getElem_of_mem hmem
    obtain ⟨n, attr, -, -, hholds⟩ := exists_holds h ha hrows hc
    have hcap := h.keyCount_le.trans h.loadable.rows_le
    have hle : (selectedRows u db e).length ≤ db.keyCount := by
      rw [h.keyCount_eq, selectedRows]
      simpa using List.length_filter_le (db.evalAt e) (List.range u.distinctKeys.length)
    have hmul := Nat.mul_le_mul_left db.keyCount (elementSize_le attr.type)
    rw [toNat_memorySize (hun c) (hlen.trans_lt hlt) hholds, hholds.size]
    exact ⟨Nat.mul_le_mul_right _ hle, by omega⟩
  · rw [Universe.answer, List.length_map, hrows.length]
  · obtain ⟨n, attr, hn, hattr, hholds⟩ := exists_holds h ha hrows hc
    have henc := encodes_columnOf h ha (hun c) (List.mem_of_getElem? hn) hattr hholds
    rw [hrows.dataLength]
    obtain ⟨hc'', rfl⟩ := List.getElem?_eq_some_iff.mp hn
    simpa [Universe.answer] using henc

/-- The result is sent in full: no column takes as many bytes as an `int` counts. -/
theorem sendResult_eq (h : LoadedFrom mem u db) (ha : Answerable u ns e)
    (hun : ∀ c, un.memorySize c = 0) (hrows : Rows un db ns (selectedRows u db e) ret) :
    sendResult ret = .ok (wireFormat ret) := by
  have hcarries := carries_answer h ha hun hrows
  refine (sendResult_eq_ok_iff hcarries.columnCount (fun c hc => (hcarries.buffers c hc).1)
    fun c hc => (hcarries.buffers c hc).2).mpr fun column hmem => ?_
  obtain ⟨c, hc, rfl⟩ := List.getElem_of_mem hmem
  obtain ⟨n, attr, -, -, hholds⟩ := exists_holds h ha hrows hc
  have hlt := (length_selectedRows h ha.sets).trans_lt ha.rows_lt
  have hmul := Nat.mul_le_mul_left (selectedRows u db e).length (elementSize_le attr.type)
  rw [toNat_memorySize (hun c) hlt hholds]
  omega

theorem ColumnList.ne_nil {w : Bytes} (h : ColumnList ns w) : ns ≠ [] := by
  cases h <;> exact List.cons_ne_nil _ _

/-- The reply to a query is that to its set operation. -/
theorem messageCallbackFunc_of_queryForm (h : QueryForm msg ns e) :
    messageCallbackFunc un db msg = do
      let ret ← dbRunQuery un db ⟨ns, e.toSetOp⟩
      let sent ← sendResult ret
      return (1, sent) := by
  have hparse : parseQuery msg = .ok (.ok ⟨ns, e.toSetOp⟩) := by
    rw [parseQuery_eq]
    exact parseEntireQuery_eq_ok.mpr ⟨ns, e, h, rfl⟩
  rw [messageCallbackFunc, hparse, ok_bind]

/-- A server with the database answers the queries about the universe: from its reply the client
reads the answer, or divides by the number of rows when there are none. -/
def Serves (u : Universe) (db : Database) : Prop :=
  ∀ un msg ns e, (∀ c, un.memorySize c = 0) → QueryForm msg ns e → Answerable u ns e →
    ∃ reply, messageCallbackFunc un db msg = .ok (1, reply) ∧ fetchResult true reply =
      if u.selected e = [] then .error .zeroDivisionError
      else .ok ((u.answer ns e).map Column.fetched, [])

/-- **A loaded universe is served.** -/
theorem LoadedFrom.serves (h : LoadedFrom mem u db) : Serves u db := by
  intro un msg ns e hun hform ha
  obtain ⟨ret, hret, hrows⟩ := exists_result h ha un
  have hcarries := carries_answer h ha hun hrows
  have hlen := length_selectedRows h ha.sets
  have hsent := sendResult_eq h ha hun hrows
  refine ⟨wireFormat ret, ?_, ?_⟩
  · rw [messageCallbackFunc_of_queryForm hform, hret, ok_bind, hsent]
    rfl
  split_ifs with hnone
  · have hzero : ret.dataLength = 0 := by
      rw [hrows.dataLength, hlen, hnone, List.length_nil]
    obtain ⟨_, _, _, _, _, _, _, _, _, _, -, -, -, -, -, hlist, -⟩ := hform
    refine fetchResult_of_no_rows hcarries hzero ?_
    simpa [Universe.answer] using hlist.ne_nil
  · refine fetchResult_wireFormat hcarries ?_
    rw [hrows.dataLength, hlen]
    exact List.length_pos_iff.mpr hnone

/-- **The client reads the answer**: whatever query a server is sent that has loaded a universe, the
client reads the answer from the reply, or divides by the number of rows when there are none. -/
theorem fetchResult_messageCallbackFunc (mem : Memory) (hu : Loadable u) :
    ∃ db₀ s, mainDatabase u = .ok db₀ ∧ dbAddParsedData mem db₀ u = .ok (s, 0) ∧
      ∀ un msg ns e, (∀ c, un.memorySize c = 0) → QueryForm msg ns e → Answerable u ns e →
        ∃ reply, messageCallbackFunc un s.db msg = .ok (1, reply) ∧ fetchResult true reply =
          if u.selected e = [] then .error .zeroDivisionError
          else .ok ((u.answer ns e).map Column.fetched, []) := by
  obtain ⟨db₀, s, h₀, hload, h⟩ := exists_loadedFrom mem hu
  exact ⟨db₀, s, h₀, hload, h.serves⟩

end Result

section Single

theorem isName_single : IsName (lit "id") ∧ IsName (lit "age") ∧ IsName (lit "S") := by
  unfold IsName IsNameByte IsLetter
  decide +kernel

theorem spaces_blank : Spaces (lit " ") := fun _ hb => Or.inl (List.mem_singleton.mp hb)

theorem queryForm_single :
    QueryForm (lit "SELECT id, age FROM S;") [lit "id", lit "age"] (.name (lit "S")) :=
  ⟨[], lit "SELECT", lit " ", lit "id, age", lit " ", lit "FROM", lit " ", lit "S", [], [],
    by decide, spaces_nil, by unfold Keyword; decide, spaces_blank, by decide,
    .cons (a := []) (b := lit " ") isName_single.1 spaces_nil spaces_blank (.single isName_single.2.1),
    spaces_blank, by decide, by unfold Keyword; decide, spaces_blank, by decide,
    .name isName_single.2.2, spaces_nil, spaces_nil⟩

theorem answerable_single :
    Answerable singleUniverse [lit "id", lit "age"] (.name (lit "S")) where
  sets := by
    intro s hs
    exact ⟨_, List.mem_singleton_self _, (List.mem_singleton.mp hs).symm⟩
  columns := by decide
  length_le := by decide
  texts := by
    unfold IsUtf8
    decide
  noPhantom := by decide
  rows_lt := by decide

/-- The client reads the key and, as an unsigned number, the age of the only row. -/
theorem fetchResult_messageCallbackFunc_single : ∃ db₀ s, mainDatabase singleUniverse = .ok db₀ ∧
    dbAddParsedData ⟨fun _ _ => 0, fun _ _ _ => 0, fun _ _ _ => 0⟩ db₀ singleUniverse =
      .ok (s, 0) ∧
    ∃ reply, messageCallbackFunc ⟨fun _ => 0, fun _ _ => 0⟩ s.db (lit "SELECT id, age FROM S;") =
        .ok (1, reply) ∧
      fetchResult true reply = .ok ([.strings ["k"], .integers [2 ^ 64 - 7]], []) := by
  obtain ⟨db₀, s, h₀, hload, hserve⟩ := fetchResult_messageCallbackFunc
    ⟨fun _ _ => 0, fun _ _ _ => 0, fun _ _ _ => 0⟩ loadable_singleUniverse
  obtain ⟨reply, hreply, hfetch⟩ := hserve ⟨fun _ => 0, fun _ _ => 0⟩ _ _ _ (fun _ => rfl)
    queryForm_single answerable_single
  refine ⟨db₀, s, h₀, hload, reply, hreply, hfetch.trans ?_⟩
  decide

end Single

end SetQL
