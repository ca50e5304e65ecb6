import SetQL.Query.Materialisation
import SetQL.Translation.Operations

/-!
# Loads return

The operations of a load always return, but for one: a key is added to a set out of bounds when its
index is past the words of the set, which are counted through `float`. A run of such operations
with room for its keys and its sets returns exactly when no key is added past the words.

## Main definitions

* `Safe db`: the invariant, and tables of the types that a load creates
* `InWords db ops`: no key of the operations is added past the words of a set

## Main results

* `exists_exec_of_loads`: an operation of a load returns
* `run_total`: the operations of a load return
* `inWords_of_run`: operations that return add no key past the words
-/

namespace SetQL

/-- The invariant of a load: keys within the capacity, and tables of the types that it creates. -/
structure Safe (db : Database) : Prop where
  inv : Inv db
  keyCount_le : db.keyCount ≤ db.maxKeyCount
  tables : ∀ attr ∈ db.attributes, attr.Queryable ∨ attr.type = .undefined

/-- No key of the operations is added past the words of a set. -/
def InWords (db : Database) (ops : List Op) : Prop :=
  ∀ pre set k post t s d, ops = pre ++ .addToSet set k :: post → run db pre = .ok t →
    stSearch t.setNamesTable set = some s → stSearch t.keyTable k = some d →
    d.index < 64 * db.wordCount

section Step

variable {db db' : Database} {op : Op} {attr : Attributes} {k : ℕ}

/-- The value of a key that fits into the database is written within its table. -/
theorem Safe.exists_assign (hs : Safe db) (hattr : attr ∈ db.attributes) (hk : k < db.maxKeyCount)
    (data : Payload) : ∃ block, attr.assign k data = .ok block := by
  rcases hs.tables attr hattr with hq | hundefined
  · have hmul := Nat.mul_le_mul_right (elementSize attr.type) (Nat.succ_le_of_lt hk)
    rw [Nat.succ_mul] at hmul
    refine ⟨_, Attributes.assign_eq_write.trans (Block.write_of_le ?_)⟩
    rw [Payload.length_bytes, hq.size_eq hs.inv hattr, hq.width_eq]
    exact hmul
  · exact ⟨attr.data, by rw [Attributes.assign, hundefined]⟩

theorem Attributes.Queryable.congr {attr' : Attributes} (h : attr.Queryable)
    (hshape : attr'.shape = attr.shape) : attr'.Queryable := by
  obtain ⟨htype, hlen⟩ := Shape.mk.inj hshape
  rw [Queryable, htype, hlen]
  exact h

/-- The tables of a load keep their types, and new ones have the types of a load. -/
theorem tables_exec (hs : ∀ attr ∈ db.attributes, attr.Queryable ∨ attr.type = .undefined)
    (hop : op.Loads) (h : op.exec db = .ok db') :
    ∀ attr ∈ db'.attributes, attr.Queryable ∨ attr.type = .undefined := by
  cases op with
  | createSet name =>
    obtain ⟨-, rfl⟩ | ⟨-, -, -, _, _, -, -, rfl⟩ := dbCreateSet_cases h <;> exact hs
  | addKey name => obtain ⟨-, rfl⟩ | ⟨-, -, _, -, rfl⟩ := dbAddKey_cases h <;> exact hs
  | addToSet set key =>
    obtain ⟨-, rfl⟩ | ⟨_, _, _, _, -, -, -, -, rfl⟩ := dbUpdateSet_cases h <;> exact hs
  | removeFromSet set key => exact absurd hop id
  | createAttribute name type stringSize =>
    obtain ⟨-, rfl⟩ | ⟨-, -, -, table, -, rfl⟩ := dbCreateAttribute_cases h
    · exact hs
    · intro attr hattr
      rcases List.mem_append.mp hattr with hattr | hattr
      · exact hs attr hattr
      · obtain rfl := List.mem_singleton.mp hattr
        rcases hop with ⟨rfl, rfl⟩ | rfl | rfl
        · exact Or.inl (Or.inl ⟨rfl, rfl⟩)
        · exact Or.inl (Or.inr rfl)
        · exact Or.inr rfl
  | setAttribute attrName keyName data =>
    obtain ⟨-, rfl⟩ | ⟨_, _, attr, -, -, hattr, ⟨-, -, rfl⟩ | ⟨-, block, -, rfl⟩⟩ :=
      dbSetAttribute_cases h
    · exact hs
    · exact hs
    · intro attr' hattr'
      rcases List.mem_or_eq_of_mem_set hattr' with hattr' | rfl
      · exact hs attr' hattr'
      · exact (hs attr (List.mem_of_getElem? hattr)).imp (fun hq => hq.congr rfl) id

theorem safe_exec (hs : Safe db) (hop : op.Loads) (h : op.exec db = .ok db')
    (hcap : db'.keyCount ≤ db'.maxKeyCount) : Safe db' :=
  ⟨inv_exec hs.inv h, hcap, tables_exec hs.tables hop h⟩

/-- **An operation of a load returns**, when there is room for its set, and its key is within the
words of its set. -/
theorem exists_exec_of_loads (hs : Safe db) (hop : op.Loads)
    (hset : op.createsSet = true → db.setCount < db.maxSetSize)
    (hmem : ∀ set key s d, op = .addToSet set key → stSearch db.setNamesTable set = some s →
      stSearch db.keyTable key = some d → d.index < 64 * db.wordCount) :
    ∃ db', op.exec db = .ok db' := by
  cases op with
  | createSet name =>
    simp only [Op.exec, dbCreateSet]
    split_ifs with hold hempty hfull
    · exact ⟨_, rfl⟩
    · exact ⟨_, rfl⟩
    · exact absurd (hset rfl) (Nat.not_lt.mpr hfull)
    · obtain ⟨table, htable⟩ := hs.inv.setNames.exists_stInsert (by simpa using hold) db.setCount
      obtain ⟨b, hb⟩ := exists_bitsetInitialize hs.inv
      rw [htable, ok_bind, hb]
      exact ⟨_, rfl⟩
  | addKey name =>
    simp only [Op.exec, dbAddKey]
    split_ifs with hempty hold
    · exact ⟨_, rfl⟩
    · exact ⟨_, rfl⟩
    · obtain ⟨table, htable⟩ := hs.inv.keys.exists_stInsert (by simpa using hold) db.keyCount
      rw [htable]
      exact ⟨_, rfl⟩
  | addToSet set key =>
    simp only [Op.exec, dbAddToSet, dbUpdateSet]
    cases hk : stSearch db.keyTable key with
    | none => exact ⟨_, rfl⟩
    | some d =>
      cases hn : stSearch db.setNamesTable set with
      | none => exact ⟨_, rfl⟩
      | some s =>
        obtain ⟨b, hb, hbmem⟩ := hs.inv.exists_set hn
        have hlt := hmem set key s d rfl hn hk
        rw [Database.wordCount, integerBitSize, ← hs.inv.words b hbmem] at hlt
        obtain ⟨c, hc, -⟩ := Bitset.bitsetSetBit_eq_ok hlt
        have hindex := (List.getElem?_eq_some_iff.mp hb).1
        simp only [fetch_eq_ok.mpr hb, ok_bind, hc, store_of_lt hindex]
        exact ⟨_, rfl⟩
  | removeFromSet set key => exact absurd hop id
  | createAttribute name type stringSize =>
    simp only [Op.exec, dbCreateAttribute]
    split_ifs with hold hfull hsize
    · exact ⟨_, rfl⟩
    · exact ⟨_, rfl⟩
    · exact ⟨_, rfl⟩
    · obtain ⟨table, htable⟩ := hs.inv.attrNames.exists_stInsert (by simpa using hold) db.attrCount
      rw [htable]
      exact ⟨_, rfl⟩
  | setAttribute attrName keyName data =>
    simp only [Op.exec, dbSetAttribute]
    cases ha : stSearch db.attrNamesTable attrName with
    | none => exact ⟨_, rfl⟩
    | some a =>
      cases hk : stSearch db.keyTable keyName with
      | none => exact ⟨_, rfl⟩
      | some d =>
        obtain ⟨attr, hattr, -⟩ := hs.inv.exists_table ha
        have hlt := (hs.inv.keys.index_lt_count hk).trans_le hs.keyCount_le
        obtain ⟨block, hblock⟩ := hs.exists_assign (List.mem_of_getElem? hattr) hlt data
        have hindex := (List.getElem?_eq_some_iff.mp hattr).1
        simp only [fetch_eq_ok.mpr hattr, ok_bind, hblock, store_of_lt hindex]
        split_ifs <;> exact ⟨_, rfl⟩

/-- Values are set without an error. -/
theorem Safe.exists_dbSetAttribute (hs : Safe db) (name key : Bytes) (p : Payload) :
    ∃ db', dbSetAttribute db name key p = .ok db' := by
  have hloads : (Op.setAttribute name key p).Loads := trivial
  refine exists_exec_of_loads hs hloads (fun h => by cases h) ?_
  intro set key' s d h
  cases h

end Step

/-! ## Runs -/

section Run

variable {db db' : Database} {ops : List Op}

theorem wordCount_run (h : run db ops = .ok db') : db'.wordCount = db.wordCount := by
  rw [Database.wordCount, Database.wordCount, (capacities_run h).maxKeyCount]

/-- **The operations of a load return**, when there is room for their keys and sets, and no key is
added past the words. -/
theorem run_total (hs : Safe db) (hops : ∀ op ∈ ops, op.Loads)
    (hkeys : db.keyCount + ops.countP Op.addsKey ≤ db.maxKeyCount)
    (hsets : db.setCount + ops.countP Op.createsSet ≤ db.maxSetSize) (hmem : InWords db ops) :
    ∃ db', run db ops = .ok db' ∧ Safe db' := by
  obtain ⟨db', hdb', -, hsafe⟩ := foldlM_prefix (f := fun db op => Op.exec db op) (l := ops)
    (R := fun pre t => run db pre = .ok t ∧ Safe t) ⟨rfl, hs⟩ (by
    rintro pre op post t hl ⟨hrun, hsafe⟩
    have hcounts := counts_run hrun
    have hcaps := capacities_run hrun
    have hop := hops op (by rw [hl]; simp)
    rw [hl, List.countP_append, List.countP_cons] at hkeys hsets
    have hset : op.createsSet = true → t.setCount < t.maxSetSize := by
      intro hcreates
      have := hcounts.setCount
      rw [if_pos hcreates] at hsets
      rw [hcaps.maxSetSize]
      omega
    obtain ⟨t', ht'⟩ := exists_exec_of_loads hsafe hop hset (by
      rintro set key s d rfl hn hk
      rw [wordCount_run hrun]
      exact hmem pre set key post t s d hl hrun hn hk)
    have hcap : t'.keyCount ≤ t'.maxKeyCount := by
      have h₁ := hcounts.keyCount
      have h₂ := (counts_exec ht').keyCount
      have h₃ : op.addsKey.toNat = if op.addsKey = true then 1 else 0 := by
        cases op.addsKey <;> rfl
      rw [(capacities_exec ht').maxKeyCount, hcaps.maxKeyCount]
      omega
    exact ⟨t', ht', foldlM_snoc_eq_ok.mpr ⟨t, hrun, ht'⟩, safe_exec hsafe hop ht' hcap⟩)
  exact ⟨db', hdb', hsafe⟩

/-- Operations that return add no key past the words. -/
theorem inWords_of_run (hinv : Inv db) (h : run db ops = .ok db') : InWords db ops := by
  intro pre set k post t s d hops hpre hn hk
  rw [hops, run, foldlM_append_eq_ok] at h
  obtain ⟨t', ht', hpost⟩ := h
  obtain rfl := Except.ok.inj (hpre.symm.trans ht')
  obtain ⟨t', hstep, -⟩ := bind_eq_ok.mp hpost
  have hinvt := inv_run hinv hpre
  obtain ⟨hunknown, -⟩ | ⟨d', s', b, b', hk', hn', hb, hb', -⟩ := dbUpdateSet_cases hstep
  · rcases hunknown with hunknown | hunknown
    · rw [hunknown] at hk
      cases hk
    · rw [hunknown] at hn
      cases hn
  · obtain rfl := Option.some.inj (hk.symm.trans hk')
    obtain ⟨hlt, -, -⟩ := bit_of_bitsetSetBit hb'
    rw [hinvt.words b (List.mem_of_getElem? hb)] at hlt
    rw [← wordCount_run hpre]
    exact hlt

/-- At most `2 ^ 24` keys are counted exactly, and none of them is past the words. -/
theorem inWords_of_le (hinv : Inv db) (hmax : db.maxKeyCount ≤ 2 ^ 24)
    (hkeys : db.keyCount + ops.countP Op.addsKey ≤ db.maxKeyCount) : InWords db ops := by
  intro pre set k post t s d hops hpre hn hk
  have hlt := (inv_run hinv hpre).keys.index_lt_count hk
  have hcount := (counts_run hpre).keyCount
  have hwords := le_ceilDivSingle_mul (d := 64) hmax (by decide)
  rw [hops, List.countP_append] at hkeys
  rw [Database.wordCount, integerBitSize]
  omega

end Run

/-! ## The operations of a load -/

section Load

variable {mem : Memory} {u : Universe} {m sets attributes : ℕ} {db₀ : Database} {op : Op}

theorem loads_of_mem (h : op ∈ loadOps mem u sets attributes) : op.Loads := by
  rcases mem_loadOps h with h | ⟨set, -, h⟩ | h
  · rcases List.mem_cons.mp h with rfl | h
    · exact Or.inl ⟨rfl, rfl⟩
    · obtain ⟨k, -, rfl | rfl⟩ := mem_keyOps.mp h <;> trivial
  · obtain rfl | ⟨k, -, rfl⟩ := mem_setOps.mp h <;> trivial
  · obtain ⟨j, -, -, rfl | ⟨-, h⟩⟩ := mem_attributeOps h
    · rw [createOp, storedType]
      split_ifs <;> simp_all [Op.Loads]
    · obtain ⟨k, -, rfl⟩ := mem_valueOps.mp h
      trivial

/-- A load adds a key for each row, and at most the sets that fit. -/
theorem countP_loadOps (mem : Memory) (u : Universe) (sets attributes : ℕ) :
    (loadOps mem u sets attributes).countP Op.addsKey = u.rows ∧
      (loadOps mem u sets attributes).countP Op.createsSet ≤ sets ∧
      (loadOps mem u sets attributes).countP Op.createsAttribute ≤ 1 + (attributes - 1) := by
  obtain ⟨h₁, h₂, h₃⟩ := countP_startOps mem u
  obtain ⟨h₄, h₅, h₆⟩ := countP_setsOps u.sets
  obtain ⟨h₇, h₈, h₉⟩ := countP_attributeOps mem u u.attributeDataNames.length 0
  rw [loadOps]
  split_ifs
  · omega
  · simp only [List.countP_append]
    omega
  · simp only [List.countP_append]
    omega

theorem safe_withKeyColumn (h₀ : createEmptyDB m sets attributes = .ok db₀) (uname : Bytes) :
    Safe (db₀.withKeyColumn uname) := by
  refine ⟨inv_withKeyColumn (inv_createEmptyDB h₀) uname, ?_, ?_⟩ <;>
    obtain ⟨_, _, _, -, -, -, rfl⟩ := createEmptyDB_eq_ok h₀ <;>
    simp [Database.withKeyColumn]

/-- A load that returns made its operations. -/
theorem run_of_load {s : Load} {ret : ℕ} (hu : Shaped u)
    (h₀ : createEmptyDB u.rows sets attributes = .ok db₀) (hattr : 1 ≤ attributes)
    (h : dbAddParsedData mem db₀ u = .ok (s, ret)) :
    run (db₀.withKeyColumn u.keyName) (loadOps mem u sets attributes) = .ok s.db ∧
      s.calls.map Prod.snd = loadOps mem u sets attributes ∧ ret = loadReturn u sets attributes ∧
        u.keyName.length < dbMaxStringLength := by
  have hname : u.keyName.length < dbMaxStringLength := by
    by_contra hlong
    obtain ⟨name, names, hnames⟩ := List.exists_cons_of_ne_nil hu.keyName
    obtain ⟨uname, hfetch, h⟩ := bind_eq_ok.mp h
    obtain rfl : uname = u.keyName := by
      have := fetch_eq_ok.mp hfetch
      simp_all [Universe.keyName]
    obtain ⟨t, r, hopen, -⟩ := Load.andThen_eq_ok.mp h
    obtain ⟨_, _, _, -, -, -, rfl⟩ := createEmptyDB_eq_ok h₀
    rw [openKeyColumn, if_pos rfl, if_neg hlong] at hopen
    cases hopen
  rw [dbAddParsedData_eq hu h₀ hattr hname] at h
  obtain ⟨t, ht, heq⟩ := map_eq_ok.mp h
  obtain ⟨rfl, rfl⟩ := Prod.mk.inj heq
  obtain ⟨hrun, hcalls⟩ := exec_eq_ok ht
  exact ⟨hrun, by simpa [loadStart] using hcalls, rfl, hname⟩

/-- **The operations of a load return** when no key is added past the words. -/
theorem exists_loadOps (h₀ : createEmptyDB u.rows sets attributes = .ok db₀)
    (hmem : InWords (db₀.withKeyColumn u.keyName) (loadOps mem u sets attributes)) :
    ∃ s, (loadStart db₀ u).exec (loadOps mem u sets attributes) = .ok s ∧ Safe s.db := by
  obtain ⟨hkeys, hsets, -⟩ := countP_loadOps mem u sets attributes
  have hsafe := safe_withKeyColumn h₀ u.keyName
  obtain ⟨_, _, _, -, -, -, rfl⟩ := createEmptyDB_eq_ok h₀
  obtain ⟨db, hrun, hdb⟩ := run_total hsafe (fun op hop => loads_of_mem hop)
    (by simp [Database.withKeyColumn, hkeys])
    (by simpa [Database.withKeyColumn, Database.setCount] using hsets) hmem
  obtain ⟨s, hs, rfl⟩ := exists_exec (s := loadStart _ u) hrun
  exact ⟨s, hs, hdb⟩

/-- A load that returns keeps the invariant. -/
theorem safe_of_run {db : Database} (h₀ : createEmptyDB u.rows sets attributes = .ok db₀)
    (h : run (db₀.withKeyColumn u.keyName) (loadOps mem u sets attributes) = .ok db) : Safe db := by
  have hsafe := safe_withKeyColumn h₀ u.keyName
  obtain ⟨s, hs, hdb⟩ := exists_loadOps h₀ (inWords_of_run hsafe.inv h)
  obtain rfl := Except.ok.inj ((exec_eq_ok hs).1.symm.trans h)
  exact hdb

end Load

end SetQL
