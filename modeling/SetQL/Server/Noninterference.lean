import SetQL.Server.Message
import SetQL.Server.Queries
import SetQL.Translation.Behind

/-!
# Queries and what lies behind the loaded values

The answer to a query over a loaded universe, for two contents of the memory behind the strings of
the universe. The two databases differ in the contents of their tables only, and the answer reads
these at its rows only. So the answer does not depend on the memory exactly when all the cells that
it reads are covered.

## Main definitions

* `askedKeys db u e`: the keys that have a row in the answer
* `SlotIndependent`: a stored string does not depend on what lies behind it
* `AnswerIndependent`: an answer does not depend on what lies behind the loaded strings

## Main results

* `dbRunQuery_congr`: a query reads the contents of the tables at its rows only
* `dbRunQuery_eq_iff`: when a result does not depend on what lies behind the loaded strings
* `noninterference_iff`: when neither slots nor answers do
-/

namespace SetQL

/-! ## Queries on databases with other contents -/

section Congr

variable {un : Uninitialized} {db db' : Database} {q : Query} {names : List Bytes}

theorem fetch_map {α β : Type} (f : α → β) (l : List α) (i : ℕ) :
    fetch (l.map f) i = f <$> fetch l i := by
  unfold fetch
  rw [List.getElem?_map]
  cases l[i]? <;> rfl

/-- The sets are evaluated without the attributes. -/
theorem dbRunSetOperation_erase (db : Database) (op : SetOp) :
    dbRunSetOperation db.erase op = dbRunSetOperation db op := by
  induction op with
  | null => rfl
  | node leaf name l r t ihl ihr =>
    cases leaf with
    | true => cases name <;> rfl
    | false => simp only [dbRunSetOperation, ihl, ihr]

/-- The columns are opened without the contents of the tables. -/
theorem openColumn_erase (state : List ℕ × List ColumnData) (n : ℕ) :
    openColumn un db.erase names state n = openColumn un db names state n := by
  rw [openColumn, openColumn]
  cases fetch names n with
  | error e => rfl
  | ok name =>
    simp only [ok_bind]
    have hnames : db.erase.attrNamesTable = db.attrNamesTable := rfl
    rw [hnames]
    cases stSearch db.attrNamesTable name with
    | none => rfl
    | some tb =>
      simp only [Database.erase, fetch_map]
      cases store state.1 n tb.index with
      | error e => rfl
      | ok tables => cases fetch db.attributes tb.index <;> rfl

theorem table_of_erase (h : db.erase = db'.erase) {t : ℕ} {attr : Attributes}
    (hattr : db.attributes[t]? = some attr) :
    ∃ attr', db'.attributes[t]? = some attr' ∧ attr'.shape = attr.shape ∧
      attr'.data.size = attr.data.size := by
  have hmap : db.attributes.map Attributes.erase = db'.attributes.map Attributes.erase :=
    congrArg Database.attributes h
  have hget := congrArg (fun l : List Attributes => l[t]?) hmap
  simp only [List.getElem?_map, hattr, Option.map_some] at hget
  obtain ⟨attr', hattr', heq⟩ := Option.map_eq_some_iff.mp hget.symm
  have hshape : attr'.erase.shape = attr.erase.shape := congrArg Attributes.shape heq
  have hsize : attr'.erase.data.size = attr.erase.data.size := by rw [heq]
  exact ⟨attr', hattr', hshape, hsize⟩

theorem keyTable_of_erase (h : db.erase = db'.erase) : db.keyTable = db'.keyTable :=
  show db.erase.keyTable = db'.erase.keyTable by rw [h]

theorem wordCount_of_erase (h : db.erase = db'.erase) : db.wordCount = db'.wordCount :=
  show db.erase.wordCount = db'.erase.wordCount by rw [h]

/-- A value is read alike from tables with the same value there. -/
theorem read_entry_congr {attr attr' : Attributes} {k : ℕ} (htype : attr'.type = attr.type)
    (hsize : attr'.data.size = attr.data.size)
    (hentry : k * elementSize attr.type + elementSize attr.type ≤ attr.data.size →
      attr.entry k = attr'.entry k) :
    attr.data.read (k * elementSize attr.type) (elementSize attr.type) =
      attr'.data.read (k * elementSize attr'.type) (elementSize attr'.type) := by
  rw [htype]
  rcases Nat.lt_or_ge attr.data.size (k * elementSize attr.type + elementSize attr.type)
    with hlt | hle
  · have hpos := (elementSize_pos attr.type).ne'
    rw [Block.read_of_lt hlt hpos, Block.read_of_lt (hsize ▸ hlt) hpos]
  · have heq := hentry hle
    rw [Attributes.entry, Attributes.entry, htype] at heq
    rw [Block.read_eq_ok.mpr ⟨Or.inr hle, rfl⟩, Block.read_eq_ok.mpr ⟨Or.inr (hsize ▸ hle), rfl⟩, heq]

/-- One row is copied alike from tables with the same values there. -/
theorem copyRow_congr {tables : List ℕ} {columns : List ColumnData} {qr : QueryReturn} {k : ℕ}
    (h : db.erase = db'.erase) (hopened : Opened un db names tables columns)
    (hopened' : Opened un db' names tables columns) (hcount : qr.columnCount = names.length)
    (hentry : ∀ name ∈ names, ∀ attr attr', db.table name = some attr →
      db'.table name = some attr' → k * elementSize attr.type + elementSize attr.type ≤ attr.data.size →
        attr.entry k = attr'.entry k) :
    copyRow db tables qr k = copyRow db' tables qr k := by
  have hloop : (List.range qr.columnCount).foldlM (copyValue db tables qr.dataLength k) qr.columns =
      (List.range qr.columnCount).foldlM (copyValue db' tables qr.dataLength k) qr.columns := by
    refine foldlM_congr fun columns' c hc => ?_
    have hc := List.mem_range.mp hc
    rw [hcount] at hc
    obtain ⟨attr, t, htable, ht, hattr, -⟩ := hopened.column c _ (List.getElem?_eq_getElem hc)
    obtain ⟨attr', t', htable', ht', hattr', -⟩ := hopened'.column c _ (List.getElem?_eq_getElem hc)
    obtain rfl := Option.some.inj (ht.symm.trans ht')
    obtain ⟨attr'', hattr'', hshape, hsize⟩ := table_of_erase h hattr
    obtain rfl := Option.some.inj (hattr'.symm.trans hattr'')
    obtain ⟨htype, -⟩ := Shape.mk.inj hshape
    have hread := read_entry_congr htype hsize
      (hentry _ (List.getElem_mem hc) attr attr' htable htable')
    rw [copyValue, copyValue, fetch_eq_ok.mpr ht, ok_bind, ok_bind, fetch_eq_ok.mpr hattr, ok_bind,
      fetch_eq_ok.mpr hattr', ok_bind]
    simp only [hread, htype]
  rw [copyRow, copyRow, hloop]

/-- **A query reads the contents of the tables at its rows only.** -/
theorem dbRunQuery_congr (h : db.erase = db'.erase)
    (hentry : ∀ r, dbRunSetOperation db q.op = .ok r → ∀ name ∈ q.columnNames, ∀ attr attr',
      db.table name = some attr → db'.table name = some attr' → ∀ k ∈ r.bs.ones,
        k * elementSize attr.type + elementSize attr.type ≤ attr.data.size →
          attr.entry k = attr'.entry k) :
    dbRunQuery un db q = dbRunQuery un db' q := by
  have hset : dbRunSetOperation db' q.op = dbRunSetOperation db q.op := by
    rw [← dbRunSetOperation_erase, ← h, dbRunSetOperation_erase]
  have hopen : openColumn un db' q.columnNames = openColumn un db q.columnNames := by
    funext state n
    rw [← openColumn_erase, ← h, openColumn_erase]
  have hcount : db'.attrCount = db.attrCount := by
    have hattrs := congrArg Database.attrCount h
    rw [Database.attrCount, Database.attrCount, Database.erase, Database.erase, List.length_map,
      List.length_map] at hattrs
    exact hattrs.symm
  rw [dbRunQuery, dbRunQuery, hset]
  cases hr : dbRunSetOperation db q.op with
  | error e => rw [error_bind, error_bind]
  | ok r =>
    rw [ok_bind, ok_bind, hcount]
    by_cases hzero : db.attrCount = 0
    · rw [if_pos hzero, if_pos hzero]
    rw [if_neg hzero, if_neg hzero, hopen]
    refine bind_congr_ok fun state hstate => ?_
    obtain ⟨tables, columns⟩ := state
    have hopened := opened_openColumns hstate
    have hopened' : Opened un db' q.columnNames tables columns := by
      rw [← hopen, ← hcount] at hstate
      exact opened_openColumns hstate
    simp only [foldlM_bits]
    refine foldlM_congr_invariant (I := fun qr => qr.columnCount = q.columnNames.length)
      (fun qr k hk hqr => ?_) (fun qr k qr' hqr hstep => ?_) rfl
    · exact copyRow_congr h hopened hopened' hqr fun name hname attr attr' htable htable' =>
        hentry r hr name hname attr attr' htable htable' k hk
    · obtain ⟨columns', -, hstep⟩ := bind_eq_ok.mp hstep
      obtain rfl := Except.ok.inj hstep
      exact hqr

end Congr

/-! ## Answers over a loaded universe -/

/-- The keys that have a row in the answer: those of the denoted set that have a bit. -/
def askedKeys (db : Database) (u : Universe) (e : SetExpr Bytes) : Set Bytes :=
  {k | k ∈ e.denote u.store.keys u.store.members ∧
    ∃ d, stSearch db.keyTable k = some d ∧ d.index < 64 * db.wordCount}

/-- A stored string does not depend on what lies behind it. -/
def SlotIndependent (db : Database) (name key s : Bytes) : Prop :=
  ∀ m m' db' db'', dbSetAttribute db name key (.text s m) = .ok db' →
    dbSetAttribute db name key (.text s m') = .ok db'' → db'.stored name key = db''.stored name key

/-- Neither the result of a query nor the answer to its message depends on what lies behind the
loaded strings. -/
def AnswerIndependent (loads : Memory → Load) (msg : Bytes) (q : Query) : Prop :=
  ∀ un mem mem', dbRunQuery un (loads mem).db q = dbRunQuery un (loads mem').db q ∧
    messageCallbackFunc un (loads mem).db msg = messageCallbackFunc un (loads mem').db msg

section Loads

variable {u : Universe} {db₀ : Database} {loads : Memory → Load} {q : Query} {e : SetExpr Bytes}
  {msg : Bytes}

/-- What is known of every load of a universe. -/
structure LoadedAs (u : Universe) (mem : Memory) (db : Database) : Prop where
  safe : Safe db
  refines : Refines db u.store
  represents : Represents db (Cells.run Shape.Fits (cellCalls (loadOps mem u 1000 100)))

theorem loadedAs_of_load {mem : Memory} {s : Load} {ret : ℕ} (hu : Shaped u)
    (h₀ : mainDatabase u = .ok db₀) (h : dbAddParsedData mem db₀ u = .ok (s, ret)) :
    LoadedAs u mem s.db := by
  obtain ⟨hrun, -, -, -⟩ := run_of_load hu h₀ (by decide) h
  have hsafe := safe_of_run h₀ hrun
  exact ⟨hsafe, store_eq mem u ▸ refines_loadOps h₀ hrun hsafe.keyCount_le,
    represents_loadOps h₀ hrun hsafe.keyCount_le⟩

theorem LoadedAs.shapeOf_eq {mem : Memory} {db : Database} (h : LoadedAs u mem db) {name : Bytes}
    {attr : Attributes} (hattr : db.table name = some attr) :
    shapeOf u.knownCalls name = some attr.shape := by
  have hcolumns := h.represents.columns name
  rw [hattr, columns_run] at hcolumns
  rw [← map_known_cellCalls mem, shapeOf_map, ← hcolumns]
  rfl

/-- A value that a query reads is the slot of a table that queries copy. -/
theorem LoadedAs.entry_eq {mem : Memory} {db : Database} (h : LoadedAs u mem db) {name : Bytes}
    {attr : Attributes} (hattr : db.table name = some attr) {k : ℕ}
    (hbound : k * elementSize attr.type + elementSize attr.type ≤ attr.data.size) :
    attr.Queryable ∧ attr.entry k = attr.slot k := by
  obtain ⟨d, -, hget⟩ := table_eq_some.mp hattr
  have hmem := List.mem_of_getElem? hget
  rcases h.safe.tables attr hmem with hq | hundefined
  · exact ⟨hq, hq.entry_eq⟩
  · have hsize := h.safe.inv.tables attr hmem
    have hpos := elementSize_pos attr.type
    rw [hundefined, numberOfElements] at hsize
    omega

/-- **A result does not depend on what lies behind the loaded strings exactly when every cell that
it reads is covered.** -/
theorem dbRunQuery_eq_iff (hu : Shaped u) (hs : Strings u) (h₀ : mainDatabase u = .ok db₀)
    (hload : ∀ mem, ∃ ret, dbAddParsedData mem db₀ u = .ok (loads mem, ret))
    (hop : q.op = e.toSetOp) (hret : ∀ un mem, ∃ qr, dbRunQuery un (loads mem).db q = .ok qr) :
    (∀ un mem mem', dbRunQuery un (loads mem).db q = dbRunQuery un (loads mem').db q) ↔
      ∀ mem, ∀ k ∈ askedKeys (loads mem).db u e, ∀ name ∈ q.columnNames, Covered u name k := by
  have hall : ∀ mem, LoadedAs u mem (loads mem).db := fun mem => by
    obtain ⟨ret, h⟩ := hload mem
    exact loadedAs_of_load hu h₀ h
  have herase : ∀ mem mem', (loads mem).db.erase = (loads mem').db.erase := fun mem mem' => by
    obtain ⟨ret, h⟩ := hload mem
    obtain ⟨ret', h'⟩ := hload mem'
    exact erase_loadOps (run_of_load hu h₀ (by decide) h).1 (run_of_load hu h₀ (by decide) h').1
  constructor
  · rintro hsame mem k ⟨hden, d, hd, hlt⟩ name hname
    by_contra hc
    have h := hall Memory.zeros
    have h' := hall Memory.marks
    have hmarks := herase Memory.zeros Memory.marks
    have hzeros := herase mem Memory.zeros
    rw [keyTable_of_erase hzeros] at hd
    rw [wordCount_of_erase hzeros] at hlt
    obtain ⟨qr, hqr⟩ := hret ⟨fun _ => 0, fun _ _ => 0⟩ Memory.zeros
    obtain ⟨r, hr, hrows, htables⟩ := rows_dbRunQuery hqr
    rw [hsame _ Memory.zeros Memory.marks] at hqr
    obtain ⟨r', hr', hrows', htables'⟩ := rows_dbRunQuery hqr
    obtain rfl : r' = r := by
      rw [← dbRunSetOperation_erase, ← hmarks, dbRunSetOperation_erase, hr] at hr'
      exact (Except.ok.inj hr').symm
    obtain ⟨attr, hattr⟩ := htables name hname
    obtain ⟨attr', hattr'⟩ := htables' name hname
    rw [hop] at hr
    have hbit := (h.refines.bit_iff h.safe.inv hr hd).mpr ⟨hden, hlt⟩
    obtain ⟨i, hi, hrow⟩ := List.getElem_of_mem (Bitset.mem_ones.mpr hbit)
    obtain ⟨c, hclt, rfl⟩ := List.getElem_of_mem hname
    have hc' := List.getElem?_eq_getElem hclt
    have hcolumn := List.getElem?_eq_getElem (hrows.length ▸ hclt)
    have hholds := hrows.column c _ attr _ hc' hattr hcolumn
    have hholds' := hrows'.column c _ attr' _ hc' hattr' hcolumn
    have hrow' : r'.bs.ones[i]? = some d.index := List.getElem?_eq_some_iff.mpr ⟨hi, hrow⟩
    have hentry := hholds.row i _ hrow'
    have hentry' := hholds'.row i _ hrow'
    have hone := Bitset.mem_ones.mpr hbit
    obtain ⟨-, hslot⟩ := h.entry_eq hattr (hholds.bound _ hone)
    obtain ⟨-, hslot'⟩ := h'.entry_eq hattr' (hholds'.bound _ hone)
    have hshape : attr'.shape = attr.shape :=
      Option.some.inj ((h'.shapeOf_eq hattr').symm.trans (h.shapeOf_eq hattr))
    have hne := slotContents_ne hs (h.shapeOf_eq hattr) hc
    rw [hslot, h.represents.value _ k attr d hattr hd, ← Attributes.width_shape] at hentry
    rw [hslot', h'.represents.value _ k attr' d hattr' (keyTable_of_erase hmarks ▸ hd),
      ← Attributes.width_shape, hshape] at hentry'
    refine hne (hentry.symm.trans (Eq.trans ?_ hentry'))
    rw [(Shape.mk.inj hshape).1]
  · intro hcovered un mem mem'
    refine dbRunQuery_congr (herase mem mem') fun r hr name hname attr attr' hattr hattr' i hi hbound => ?_
    have h := hall mem
    have h' := hall mem'
    have hshape : attr'.shape = attr.shape :=
      Option.some.inj ((h'.shapeOf_eq hattr').symm.trans (h.shapeOf_eq hattr))
    obtain ⟨hq, hentry⟩ := h.entry_eq hattr hbound
    have hwidth : attr'.width = attr.width := Attributes.width_of_shape hshape
    have hkeys := keyTable_of_erase (herase mem' mem)
    rw [hentry, (hq.congr hshape).entry_eq]
    rcases Nat.lt_or_ge i (loads mem).db.keyTable.entries.length with hlt | hge
    · obtain ⟨k, hk⟩ := h.safe.inv.keys.exists_name hlt
      rw [hop] at hr
      have hasked := (h.refines.bit_iff h.safe.inv hr hk).mp (Bitset.mem_ones.mp hi)
      have hsame := slotContents_of_covered hs (h.shapeOf_eq hattr)
        (hcovered mem k ⟨hasked.1, _, hk, hasked.2⟩ name hname) mem mem'
      rw [Attributes.width_shape] at hsame
      have hslot := h.represents.value name k attr _ hattr hk
      have hslot' := h'.represents.value name k attr' _ hattr' (hkeys ▸ hk)
      rw [hwidth] at hslot'
      exact hslot.trans (hsame.trans hslot'.symm)
    · rw [h.represents.fresh name attr i hattr hge,
        h'.represents.fresh name attr' i hattr' (hkeys ▸ hge), hwidth]

/-- The answer to a message is made of the result of its query. -/
theorem messageCallbackFunc_eq {un : Uninitialized} {db : Database}
    (hq : parseQuery msg = .ok (.ok q)) : messageCallbackFunc un db msg = (do
      let ret ← dbRunQuery un db q
      let sent ← sendResult ret
      return (1, sent)) := by
  rw [messageCallbackFunc, hq]
  rfl

/-- **Neither slots nor answers depend on what lies behind the strings exactly when** the string
fills its slot with its terminator, and every cell that is read is covered. -/
theorem noninterference_iff {db : Database} {name key s : Bytes} {attr : Attributes} {d : TableData}
    (hattr : db.table name = some attr) (htype : attr.type = .string)
    (hk : stSearch db.keyTable key = some d) (hnul : NulFree s) (hlen : s.length ≤ attr.stringLength)
    (hset : ∀ m, ∃ db', dbSetAttribute db name key (.text s m) = .ok db')
    (hu : Shaped u) (hs : Strings u) (h₀ : mainDatabase u = .ok db₀)
    (hload : ∀ mem, ∃ ret, dbAddParsedData mem db₀ u = .ok (loads mem, ret))
    (hq : parseQuery msg = .ok (.ok q)) (hop : q.op = e.toSetOp)
    (hret : ∀ un mem, ∃ qr, dbRunQuery un (loads mem).db q = .ok qr) :
    (SlotIndependent db name key s ↔ attr.stringLength ≤ s.length + 1) ∧
      (AnswerIndependent loads msg q ↔
        ∀ mem, ∀ k ∈ askedKeys (loads mem).db u e, ∀ name ∈ q.columnNames, Covered u name k) := by
  refine ⟨stored_text_eq_iff hattr htype hk hnul hlen hset, ?_⟩
  rw [← dbRunQuery_eq_iff hu hs h₀ hload hop hret]
  constructor
  · intro hsame un mem mem'
    exact (hsame un mem mem').1
  · intro hsame un mem mem'
    rw [messageCallbackFunc_eq hq, messageCallbackFunc_eq hq, hsame un mem mem']
    exact ⟨rfl, rfl⟩

theorem strings_singleUniverse : Strings singleUniverse where
  key := by decide
  value := by decide

/-- The loads of a universe of one row, and the table of its keys. -/
theorem exists_loads_single : ∃ (db₀ : Database) (loads : Memory → Load),
    mainDatabase singleUniverse = .ok db₀ ∧
    (∀ mem, dbAddParsedData mem db₀ singleUniverse = .ok (loads mem, 0)) ∧
      ∀ mem, Safe (loads mem).db ∧ (stSearch (loads mem).db.setNamesTable (lit "S")).isSome ∧
        ∃ attr d, (loads mem).db.table (lit "id") = some attr ∧ attr.type = .string ∧
          attr.stringLength = dbMaxStringLength ∧
            stSearch (loads mem).db.keyTable (lit "k") = some d := by
  have hu := loadable_singleUniverse
  have hload := fun mem => hu.exists_load mem
  choose db₀ loads h₀ hload hrun hsafe using hload
  have hsame : ∀ mem, db₀ mem = db₀ Memory.zeros := fun mem =>
    Except.ok.inj ((h₀ mem).symm.trans (h₀ Memory.zeros))
  simp only [hsame] at h₀ hload hrun
  refine ⟨db₀ Memory.zeros, loads, h₀ Memory.zeros, hload, fun mem => ⟨hsafe mem, ?_, ?_⟩⟩
  · exact (hu.isSome_set_iff (h₀ mem) (hrun mem) (hsafe mem).keyCount_le).mpr
      ⟨_, List.mem_singleton_self _, rfl⟩
  · have hkey : ∃ r < singleUniverse.rows, singleUniverse.key r = lit "k" := ⟨0, by decide, rfl⟩
    obtain ⟨attr, -, hattr, hshape, -⟩ :=
      hu.stored_key (h₀ mem) (hrun mem) (hsafe mem).keyCount_le hkey
    obtain ⟨d, hd⟩ := Option.isSome_iff_exists.mp
      ((hu.isSome_key_iff (h₀ mem) (hrun mem) (hsafe mem).keyCount_le).mpr hkey)
    obtain ⟨htype, hlen⟩ := Shape.mk.inj hshape
    exact ⟨attr, d, hattr, htype, hlen, hd⟩

theorem noninterference_iff_single : ∃ (loads : Memory → Load) (attr : Attributes),
    (SlotIndependent (loads Memory.zeros).db (lit "id") (lit "k") (lit "Ann") ↔
      attr.stringLength ≤ (lit "Ann").length + 1) ∧
    (AnswerIndependent loads (lit "SELECT id FROM S;") ⟨[lit "id"], createSetOpLeave (lit "S")⟩ ↔
      ∀ mem, ∀ k ∈ askedKeys (loads mem).db singleUniverse (.name (lit "S")),
        ∀ name ∈ [lit "id"], Covered singleUniverse name k) := by
  obtain ⟨db₀, loads, h₀, hload, hall⟩ := exists_loads_single
  obtain ⟨hsafe, -, attr, d, hattr, htype, hlen, hd⟩ := hall Memory.zeros
  refine ⟨loads, attr, noninterference_iff hattr htype hd (by decide) (by rw [hlen]; decide)
    (fun m => hsafe.exists_dbSetAttribute _ _ _) loadable_singleUniverse.shaped
    strings_singleUniverse h₀ (fun mem => ⟨0, hload mem⟩) parseQuery_known rfl fun un mem => ?_⟩
  obtain ⟨hsafe, hset, attr, d, hattr, htype, hlen, -⟩ := hall mem
  have hdb : Loaded (loads mem).db := .first (by decide) h₀ (hload mem)
  obtain ⟨e, he⟩ := Option.isSome_iff_exists.mp hset
  obtain ⟨r, hr, -⟩ := dbRunSetOperation_leaf hsafe.inv he
  have hpos := Nat.one_le_iff_ne_zero.mpr hdb.attrCount_ne_zero
  refine exists_dbRunQuery (q := ⟨[lit "id"], createSetOpLeave (lit "S")⟩) hsafe.inv
    hsafe.keyCount_le hdb.attrCount_ne_zero hpos ?_ hr
    (fun i => bit_lt_keyCount (e := .name (lit "S")) hsafe.inv hsafe.keyCount_le
      (fun s hs => List.mem_singleton.mp hs ▸ hset) rfl hr) un
  intro name hname
  rw [List.mem_singleton.mp hname]
  exact ⟨attr, hattr, Or.inl ⟨htype, hlen⟩⟩

/-- The slot of a short string depends on what lies behind it. -/
theorem not_slotIndependent : ∃ db attr d, Loaded db ∧ db.table (lit "id") = some attr ∧
    attr.type = .string ∧ stSearch db.keyTable (lit "k") = some d ∧
      (lit "Ann").length ≤ attr.stringLength ∧
        ¬ SlotIndependent db (lit "id") (lit "k") (lit "Ann") := by
  obtain ⟨db₀, loads, h₀, hload, hall⟩ := exists_loads_single
  obtain ⟨hsafe, -, attr, d, hattr, htype, hlen, hd⟩ := hall Memory.zeros
  have hle : (lit "Ann").length ≤ attr.stringLength := by
    rw [hlen]
    decide
  refine ⟨_, attr, d, .first (by decide) h₀ (hload Memory.zeros), hattr, htype, hd, hle, fun h => ?_⟩
  have hfull := (stored_text_eq_iff hattr htype hd (by decide) hle fun m =>
    hsafe.exists_dbSetAttribute _ _ _).mp h
  rw [hlen] at hfull
  exact absurd hfull (by decide)

end Loads

end SetQL
