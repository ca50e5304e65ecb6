import SetQL.Query.RunQuery
import Mathlib.Data.Set.Card

/-!
# The database refines the store

Over a run of the public operations, the database holds the keys, the sets and the members of the
store that makes the same calls. The evaluation of a tree of set operations then finds the keys of
the set that the tree denotes; past the keys, the complement sets bits that belong to no key.

## Main definitions

* `Op.call`, `calls`: the call of the store that an operation makes
* `Refines db st`: the database represents the store
* `Database.denoted`: the set of keys that an expression denotes after a list of operations
* `NoPhantom`: the result of an expression has the keys it denotes and nothing else

## Main results

* `refines_run`: the database refines the store over every run
* `bit_dbRunSetOperation_iff`: a key's bit tells whether the key is in the denoted set
* `noPhantom_iff`: there are no bits without a key exactly when the keys fill the words, or the
  expression denotes nothing where its sets are empty
-/

namespace SetQL

/-- The call of the store that an operation makes. An empty name is refused. -/
def Op.call : Op → Option (Call Bytes Bytes)
  | createSet name => if name = [] then none else some (.createSet name)
  | removeFromSet setKey key => some (.remove setKey key)
  | addToSet setKey key => some (.add setKey key)
  | addKey name => if name = [] then none else some (.addKey name)
  | createAttribute .. => none
  | setAttribute .. => none

/-- The calls that a list of operations makes. -/
def calls (ops : List Op) : List (Call Bytes Bytes) := ops.filterMap Op.call

/-- The operation that makes a call. -/
def Call.op : Call Bytes Bytes → Op
  | createSet s => .createSet s
  | addKey k => .addKey k
  | add s k => .addToSet s k
  | remove s k => .removeFromSet s k

/-- A call does not create a set or a key without a name. -/
def Call.Named : Call Bytes Bytes → Prop
  | createSet s => s ≠ []
  | addKey k => k ≠ []
  | add .. | remove .. => True

theorem call_eq_some {op : Op} {c : Call Bytes Bytes} : op.call = some c ↔ op = c.op ∧ c.Named := by
  constructor
  · intro h
    cases op with
    | createSet name | addKey name =>
      rw [Op.call] at h
      split_ifs at h with hname
      obtain rfl := Option.some.inj h
      exact ⟨rfl, hname⟩
    | addToSet set key | removeFromSet set key =>
      obtain rfl := Option.some.inj h
      exact ⟨rfl, trivial⟩
    | createAttribute name type stringSize | setAttribute attrName keyName data => cases h
  · rintro ⟨rfl, hc⟩
    cases c with
    | createSet s | addKey s => exact if_neg hc
    | add s k | remove s k => rfl

theorem mem_calls {ops : List Op} {c : Call Bytes Bytes} : c ∈ calls ops ↔ c.op ∈ ops ∧ c.Named := by
  simp only [calls, List.mem_filterMap, call_eq_some]
  constructor
  · rintro ⟨op, hop, rfl, hc⟩
    exact ⟨hop, hc⟩
  · rintro ⟨hop, hc⟩
    exact ⟨_, hop, rfl, hc⟩

/-- The database represents the store. -/
structure Refines (db : Database) (st : Store Bytes Bytes) : Prop where
  keys : ∀ k, (stSearch db.keyTable k).isSome ↔ k ∈ st.keys
  names : ∀ s, (stSearch db.setNamesTable s).isSome ↔ s ∈ st.names
  members : ∀ s k d, stSearch db.keyTable k = some d → (db.inSet s d.index = true ↔ k ∈ st.members s)
  known : ∀ s k, k ∈ st.members s → k ∈ st.keys ∧ s ∈ st.names

section Step

variable {db db' : Database} {st : Store Bytes Bytes} {name key set : Bytes}

/-- Only the keys and the sets are represented. -/
theorem Refines.congr (hr : Refines db st) (hk : db'.keyTable = db.keyTable)
    (hn : db'.setNamesTable = db.setNamesTable) (hs : db'.sets = db.sets) : Refines db' st where
  keys := by rw [hk]; exact hr.keys
  names := by rw [hn]; exact hr.names
  members := by
    have hin : ∀ s i, db'.inSet s i = db.inSet s i := fun s i => by
      rw [Database.inSet, Database.inSet, hn, hs]
    simp only [hk, hin]
    exact hr.members
  known := hr.known

theorem refines_dbCreateSet (hinv : Inv db) (hr : Refines db st) (h : dbCreateSet db name = .ok db')
    (hname : name ≠ []) : Refines db' (st.step (.createSet name)) := by
  obtain ⟨hold | hempty, rfl⟩ | ⟨hnew, -, hlt, table, b, htable, hb, rfl⟩ := dbCreateSet_cases h
  · have hmem : name ∈ st.names := (hr.names name).mp hold
    exact ⟨hr.keys, fun s => by simp [Store.step, hr.names, Set.insert_eq_of_mem hmem], hr.members,
      fun s k hk => ⟨(hr.known s k hk).1, Or.inr (hr.known s k hk).2⟩⟩
  · exact absurd hempty hname
  · obtain ⟨-, ⟨-, rfl⟩ | ⟨hfull, -⟩⟩ := hinv.setNames.stInsert hnew htable
    · have hfresh := stSearch_eq_none.mp hnew
      obtain rfl := bitsetInitialize_eq_ok hinv hb
      refine ⟨hr.keys, fun s => ?_, fun s k d hd => ?_, fun s k hk =>
        ⟨(hr.known s k hk).1, Or.inr (hr.known s k hk).2⟩⟩
      · rw [stSearch_push hfresh]
        by_cases hs : name = s
        · simp [Store.step, hs]
        · simp [Store.step, hs, Ne.symm hs, hr.names]
      · rw [Store.step, ← hr.members s k d hd]
        unfold Database.inSet
        rw [stSearch_push hfresh]
        by_cases hs : name = s
        · subst hs
          have hget : (db.sets ++ [(⟨List.replicate (ceilDivSingle db.maxKeyCount 64) 0⟩ :
              Bitset)]).getD db.setCount ⟨[]⟩ =
              ⟨List.replicate (ceilDivSingle db.maxKeyCount 64) 0⟩ := by
            simp [List.getD_eq_getElem?_getD, Database.setCount]
          simp only [if_true, hnew, hget, bit_replicate_zero]
        · rw [if_neg hs]
          cases hd' : stSearch db.setNamesTable s with
          | none => rfl
          | some d' =>
            have hlt' : d'.index < db.sets.length := hinv.setNames.index_lt_count hd'
            simp only [List.getD_eq_getElem?_getD, List.getElem?_append_left hlt']
    · exact absurd hlt (Nat.not_lt.mpr (hinv.setNames.capacity_le.trans hfull))

theorem refines_dbAddKey (hinv : Inv db) (hr : Refines db st) (h : dbAddKey db name = .ok db')
    (hname : name ≠ []) (hcap : db'.keyCount ≤ db'.maxKeyCount) :
    Refines db' (st.step (.addKey name)) := by
  obtain ⟨hempty | hold, rfl⟩ | ⟨-, hnew, table, htable, rfl⟩ := dbAddKey_cases h
  · exact absurd hempty hname
  · have hmem : name ∈ st.keys := (hr.keys name).mp hold
    exact ⟨fun k => by simp [Store.step, hr.keys, Set.insert_eq_of_mem hmem], hr.names, hr.members,
      fun s k hk => ⟨Or.inr (hr.known s k hk).1, (hr.known s k hk).2⟩⟩
  · obtain ⟨-, ⟨hlt, rfl⟩ | ⟨hfull, -⟩⟩ := hinv.keys.stInsert hnew htable
    · have hfresh := stSearch_eq_none.mp hnew
      have hlen : db.keyTable.entries.length = db.keyCount :=
        hinv.keys.length_eq (Nat.le_of_succ_le hcap)
      refine ⟨fun k => ?_, hr.names, fun s k d hd => ?_, fun s k hk =>
        ⟨Or.inr (hr.known s k hk).1, (hr.known s k hk).2⟩⟩
      · rw [stSearch_push hfresh]
        by_cases hk : name = k
        · simp [Store.step, hk]
        · simp [Store.step, hk, Ne.symm hk, hr.keys]
      · rw [stSearch_push hfresh] at hd
        show db.inSet s d.index = true ↔ k ∈ st.members s
        split_ifs at hd with hk
        · -- the new key has the first index without a key, and no set has its bit
          obtain rfl := Option.some.inj hd
          obtain rfl := hk
          refine iff_of_false (fun hin => ?_) fun hin => ?_
          · exact absurd (hinv.inSet_lt hin) (by rw [hlen]; exact lt_irrefl _)
          · have := (hr.keys name).mpr (hr.known s name hin).1
            rw [hnew] at this
            exact absurd this (by decide)
        · exact hr.members s k d hd
    · have hcap' : db.keyCount + 1 ≤ db.maxKeyCount := hcap
      have := hinv.keys.capacity_le
      omega

/-- The bits of the sets after one set is replaced. -/
theorem inSet_set (hinv : Inv db) {sdata : TableData} {b b' : Bitset}
    (hs : stSearch db.setNamesTable set = some sdata) (hb : db.sets[sdata.index]? = some b)
    (s : Bytes) (i : ℕ) :
    ({ db with sets := db.sets.set sdata.index b' } : Database).inSet s i =
      if s = set then b'.bit i else db.inSet s i := by
  obtain ⟨hlt, -⟩ := List.getElem?_eq_some_iff.mp hb
  unfold Database.inSet
  by_cases heq : s = set
  · subst heq
    simp [hs, List.getD_eq_getElem?_getD, hlt]
  · cases hd : stSearch db.setNamesTable s with
    | none => simp [heq]
    | some d =>
      have hne : sdata.index ≠ d.index := fun h => heq (hinv.setNames.name_eq hd hs h.symm)
      simp [heq, List.getD_eq_getElem?_getD, hne]

open Classical in
/-- A change of one bit represents a change of one member. -/
theorem refines_dbUpdateSet {change : Bitset → ℕ → C Bitset} {g : Bool → Bool}
    (hchange : ∀ b k b', change b k = .ok b' →
      ∀ i, b'.bit i = if i = k then g (b.bit i) else b.bit i)
    {f : Set Bytes → Set Bytes}
    (hf : ∀ A k, k ∈ f A ↔ if k = key then g (decide (k ∈ A)) = true else k ∈ A)
    (hinv : Inv db) (hr : Refines db st) (h : dbUpdateSet change db set key = .ok db') :
    Refines db' (st.change f set key) := by
  obtain ⟨hunknown, rfl⟩ | ⟨edata, sdata, b, b', hk, hs, hb, hb', rfl⟩ := dbUpdateSet_cases h
  · have hex : ¬ (key ∈ st.keys ∧ set ∈ st.names) := by
      rw [← hr.keys, ← hr.names]
      rcases hunknown with hn | hn <;> simp [hn]
    rw [Store.change_of_unknown hex]
    exact hr
  · have hkey : key ∈ st.keys := (hr.keys key).mp (by rw [hk]; rfl)
    have hset : set ∈ st.names := (hr.names set).mp (by rw [hs]; rfl)
    refine ⟨by simpa using hr.keys, by simpa using hr.names, fun s k d hd => ?_, fun s k hmem => ?_⟩
    · rw [inSet_set hinv hs hb]
      by_cases heq : s = set
      · subst heq
        have hindex : d.index = edata.index ↔ k = key :=
          ⟨fun h => hinv.keys.name_eq hd hk h, fun h => by
            subst h
            rw [Option.some.inj (hd.symm.trans hk)]⟩
        have hbit : b.bit d.index = decide (k ∈ st.members s) := by
          rw [← Database.inSet_of_stSearch hs hb, Bool.eq_iff_iff, decide_eq_true_iff]
          exact hr.members s k d hd
        rw [if_pos rfl, Store.members_change_same ⟨hkey, hset⟩, hf, hchange b _ b' hb', hbit]
        by_cases hkk : k = key
        · simp [hkk, hindex.mpr hkk]
        · simp [hkk, mt hindex.mp hkk]
      · rw [if_neg heq, Store.members_change_of_ne heq]
        exact hr.members s k d hd
    · rw [Store.keys_change, Store.names_change]
      by_cases heq : s = set
      · subst heq
        rw [Store.members_change_same ⟨hkey, hset⟩, hf] at hmem
        split_ifs at hmem with hkk
        · exact ⟨hkk ▸ hkey, hset⟩
        · exact hr.known s k hmem
      · rw [Store.members_change_of_ne heq] at hmem
        exact hr.known s k hmem

/-- Each operation represents its call, as long as the keys are within the capacity. -/
theorem refines_exec {op : Op} (hinv : Inv db) (hr : Refines db st) (h : op.exec db = .ok db')
    (hcap : db'.keyCount ≤ db'.maxKeyCount) : Refines db' (op.call.elim st st.step) := by
  cases op with
  | createSet name =>
    rw [Op.call]
    split
    · rename_i hname
      subst hname
      obtain ⟨-, rfl⟩ | ⟨-, hne, -⟩ := dbCreateSet_cases h
      · exact hr
      · exact absurd rfl hne
    · rename_i hname
      exact refines_dbCreateSet hinv hr h hname
  | addKey name =>
    rw [Op.call]
    split
    · rename_i hname
      subst hname
      obtain ⟨-, rfl⟩ | ⟨hne, -⟩ := dbAddKey_cases h
      · exact hr
      · exact absurd rfl hne
    · rename_i hname
      exact refines_dbAddKey hinv hr h hname hcap
  | addToSet set key =>
    refine refines_dbUpdateSet (g := fun _ => true) (f := fun A => insert key A) (fun b k b' hb i => ?_)
      (fun A k => ?_) hinv hr h
    · obtain ⟨-, -, hbit⟩ := bit_of_bitsetSetBit hb
      rw [hbit]
      by_cases hi : i = k <;> simp [hi]
    · by_cases hk : k = key <;> simp [hk]
  | removeFromSet set key =>
    refine refines_dbUpdateSet (g := fun _ => false) (f := fun A => A \ {key}) (fun b k b' hb i => ?_)
      (fun A k => ?_) hinv hr h
    · obtain ⟨-, -, hbit⟩ := bit_of_bitsetClearBit hb
      rw [hbit]
      by_cases hi : i = k <;> simp [hi]
    · by_cases hk : k = key <;> simp [hk]
  | createAttribute name type stringSize =>
    obtain ⟨-, rfl⟩ | ⟨-, -, -, table, -, rfl⟩ := dbCreateAttribute_cases h
    · exact hr
    · exact hr.congr rfl rfl rfl
  | setAttribute attrName keyName data =>
    obtain ⟨-, rfl⟩ | ⟨_, _, _, -, -, -, ⟨-, -, rfl⟩ | ⟨-, _, -, rfl⟩⟩ := dbSetAttribute_cases h
    · exact hr
    · exact hr
    · exact hr.congr rfl rfl rfl

end Step

/-! ## Runs from a new database -/

section Run

variable {m s a : ℕ} {db₀ db : Database} {ops : List Op}

theorem maxKeyCount_run {db db' : Database} (h : run db ops = .ok db') :
    db'.maxKeyCount = db.maxKeyCount :=
  foldlM_invariant (I := fun d => d.maxKeyCount = db.maxKeyCount)
    (fun _ _ _ _ hd hs => (keyCount_exec hs).2.trans hd) rfl h

theorem refines_createEmptyDB (h : createEmptyDB m s a = .ok db₀) : Refines db₀ Store.empty := by
  obtain ⟨_, _, _, -, -, -, rfl⟩ := createEmptyDB_eq_ok h
  exact ⟨fun k => by simp [Store.empty], fun s => by simp [Store.empty],
    fun s k d hd => by simp at hd, fun s k hk => by simp [Store.empty] at hk⟩

/-- **The database refines the store over every run.** -/
theorem refines_run (hinv : Inv db₀) (hr : Refines db₀ Store.empty) (h : run db₀ ops = .ok db)
    (hcap : db.keyCount ≤ db.maxKeyCount) : Refines db (Store.run (calls ops)) := by
  suffices hsim : Inv db ∧ (db.keyCount ≤ db.maxKeyCount → Refines db (Store.run (calls ops))) from
    hsim.2 hcap
  refine foldlM_simulation (R := fun ops db => Inv db ∧ (db.keyCount ≤ db.maxKeyCount →
    Refines db (Store.run (calls ops)))) ⟨hinv, fun _ => hr⟩ ?_ h
  rintro pre op t t' ⟨hinv, hr⟩ hstep
  refine ⟨inv_exec hinv hstep, fun hle => ?_⟩
  obtain ⟨hcount, hmax⟩ := keyCount_exec hstep
  have := refines_exec hinv (hr (hcount.trans (hle.trans hmax.le))) hstep hle
  rw [calls, List.filterMap_append, ← calls]
  cases hc : op.call with
  | none =>
    rw [hc] at this
    simpa [hc] using this
  | some c =>
    rw [hc] at this
    simpa [hc, Store.run_snoc] using this

theorem maxKeyCount_eq (h₀ : createEmptyDB m s a = .ok db₀) (h : run db₀ ops = .ok db) :
    db.maxKeyCount = m := by
  obtain ⟨_, _, _, -, -, -, rfl⟩ := createEmptyDB_eq_ok h₀
  exact maxKeyCount_run h

end Run

/-! ## The keys of the denoted set -/

namespace Database

/-- The keys of the database. -/
def keySet (db : Database) : Set Bytes := {k | (stSearch db.keyTable k).isSome}

/-- The set of keys that an expression denotes after a list of operations: a name denotes the keys
whose last add or remove on that set was an add. -/
def denoted (db : Database) (ops : List Op) (e : SetExpr Bytes) : Set Bytes :=
  e.denote db.keySet fun s => {k | LastAdded (calls ops) s k}

end Database

section Denoted

variable {m s a : ℕ} {db₀ db : Database} {ops : List Op} {e : SetExpr Bytes}

/-- Membership in the denoted set is read off the bits of a key in the sets. -/
theorem mem_denoted_iff (h₀ : createEmptyDB m s a = .ok db₀) (h : run db₀ ops = .ok db)
    (hcap : db.keyCount ≤ m) {k : Bytes} {d : TableData} (hd : stSearch db.keyTable k = some d) :
    k ∈ db.denoted ops e ↔ e.evalBool (fun s => db.inSet s d.index) = true := by
  have hr := refines_run (inv_createEmptyDB h₀) (refines_createEmptyDB h₀) h
    (hcap.trans (maxKeyCount_eq h₀ h).ge)
  have hk : k ∈ db.keySet := Option.isSome_iff_exists.mpr ⟨d, hd⟩
  refine SetExpr.mem_denote_iff hk e fun s _ => ?_
  rw [hr.members s k d hd, mem_run_iff]
  rfl

/-- A key's bit tells whether the key is in the set that an expression denotes over the store, as far
as there are words. -/
theorem Refines.bit_iff {st : Store Bytes Bytes} (hr : Refines db st) (hinv : Inv db) {r : SetOpReturn}
    (hop : dbRunSetOperation db e.toSetOp = .ok r) {k : Bytes} {d : TableData}
    (hd : stSearch db.keyTable k = some d) :
    r.bs.bit d.index = true ↔ k ∈ e.denote st.keys st.members ∧ d.index < 64 * db.wordCount := by
  have hleaves : ∀ s ∈ e.leaves, (stSearch db.setNamesTable s).isSome := by
    intro s hs
    by_contra hnone
    rw [dbRunSetOperation_unknown hinv e ⟨s, hs, Option.not_isSome_iff_eq_none.mp hnone⟩] at hop
    cases hop
  obtain ⟨r', hr', hev⟩ := dbRunSetOperation_toSetOp hinv e hleaves
  obtain rfl := Except.ok.inj (hop.symm.trans hr')
  have hk : k ∈ st.keys := (hr.keys k).mp (by rw [hd]; rfl)
  rw [SetExpr.mem_denote_iff hk e fun s _ => hr.members s k d hd]
  rcases Nat.lt_or_ge d.index (64 * db.wordCount) with hlt | hge
  · rw [hev.bit _ hlt]
    exact ⟨fun h => ⟨h, hlt⟩, And.left⟩
  · rw [Bitset.bit_of_le (by rw [hev.words]; exact hge)]
    exact iff_of_false (by decide) fun h => absurd h.2 (Nat.not_lt.mpr hge)

/-- The denoted set is a set of keys. -/
theorem denoted_subset (h₀ : createEmptyDB m s a = .ok db₀) (h : run db₀ ops = .ok db)
    (hcap : db.keyCount ≤ m) : db.denoted ops e ⊆ db.keySet := by
  have hr := refines_run (inv_createEmptyDB h₀) (refines_createEmptyDB h₀) h
    (hcap.trans (maxKeyCount_eq h₀ h).ge)
  refine SetExpr.denote_subset (fun s k hk => ?_) e
  exact (hr.keys k).mpr (hr.known s k (mem_run_iff.mpr hk)).1

/-- **A key's bit tells whether the key is in the denoted set**: the result of a tree over existing
sets has the bit of a key exactly when the key is in the set that the tree denotes. -/
theorem bit_dbRunSetOperation_iff (hm : m ≤ 2 ^ 24) (h₀ : createEmptyDB m s a = .ok db₀)
    (h : run db₀ ops = .ok db) (hcap : db.keyCount ≤ m) (e : SetExpr Bytes)
    (hleaves : ∀ s ∈ e.leaves, (stSearch db.setNamesTable s).isSome) :
    ∃ r, dbRunSetOperation db e.toSetOp = .ok r ∧
      ∀ k d, stSearch db.keyTable k = some d →
        d.index < db.keyCount ∧ (r.bs.bit d.index = true ↔ k ∈ db.denoted ops e) := by
  have hinv := inv_run (inv_createEmptyDB h₀) h
  obtain ⟨r, hr, hev⟩ := dbRunSetOperation_toSetOp hinv e hleaves
  refine ⟨r, hr, fun k d hd => ?_⟩
  have hlt := hinv.keys.index_lt_count hd
  have hwords : d.index < 64 * db.wordCount := by
    have := le_ceilDivSingle_mul (d := 64) hm (by decide)
    rw [Database.wordCount, maxKeyCount_eq h₀ h, integerBitSize]
    omega
  exact ⟨hlt, by rw [hev.bit _ hwords, mem_denoted_iff h₀ h hcap hd]⟩

/-- A database with room for one key, one set and one attribute. -/
theorem bit_dbRunSetOperation_iff_single :
    ∃ db₀ db, createEmptyDB 1 1 1 = .ok db₀ ∧
      run db₀ [.addKey (lit "k"), .createSet (lit "S"), .addToSet (lit "S") (lit "k")] = .ok db ∧
      ∃ r, dbRunSetOperation db (SetExpr.complement (.name (lit "S"))).toSetOp = .ok r ∧
        ∀ k d, stSearch db.keyTable k = some d → d.index < db.keyCount ∧
          (r.bs.bit d.index = true ↔ k ∈ db.denoted [.addKey (lit "k"), .createSet (lit "S"),
            .addToSet (lit "S") (lit "k")] (.complement (.name (lit "S")))) :=
  ⟨_, _, createEmptyDB_one, rfl, bit_dbRunSetOperation_iff (by decide) createEmptyDB_one rfl
    (by decide) _ (by decide)⟩

/-- The bits of the result of an expression, read off the sets at each index. -/
def Database.evalAt (db : Database) (e : SetExpr Bytes) (i : ℕ) : Bool :=
  e.evalBool fun s => db.inSet s i

theorem Evaluates.ones_eq {b : Bitset} (h : Evaluates db e b) :
    b.ones = (List.range (64 * db.wordCount)).filter (db.evalAt e) := by
  rw [Bitset.ones, h.words]
  exact List.filter_congr fun i hi => h.bit i (List.mem_range.mp hi)

/-- Where no set has a bit, an expression reads as it does on empty sets. -/
theorem evalAt_of_not_inSet {i : ℕ} (h : ∀ s, db.inSet s i = false) :
    db.evalAt e i = e.evalBool fun _ => false :=
  SetExpr.evalBool_congr e fun s _ => h s

/-- Past the keys and past the words no set has a bit. -/
theorem evalAt_past {i : ℕ} (hinv : Inv db) (hlen : db.keyTable.entries.length = db.keyCount)
    (hi : db.keyCount ≤ i ∨ 64 * db.wordCount ≤ i) :
    db.evalAt e i = e.evalBool fun _ => false := by
  refine evalAt_of_not_inSet fun s => Bool.eq_false_iff.mpr fun hin => ?_
  have := hinv.inSet_lt hin
  have := hinv.inSet_lt_words hin
  omega

/-- An expression that reads false on empty sets selects keys only. -/
theorem bit_lt_keyCount {r : SetOpReturn} {i : ℕ} (hinv : Inv db) (hcap : db.keyCount ≤ db.maxKeyCount)
    (hleaves : ∀ s ∈ e.leaves, (stSearch db.setNamesTable s).isSome)
    (hfalse : e.evalBool (fun _ => false) = false) (hr : dbRunSetOperation db e.toSetOp = .ok r)
    (hi : r.bs.bit i = true) : i < db.keyCount := by
  obtain ⟨r', hr', hev⟩ := dbRunSetOperation_toSetOp hinv e hleaves
  obtain rfl := Except.ok.inj (hr.symm.trans hr')
  rw [← Bitset.mem_ones, hev.ones_eq, List.mem_filter] at hi
  by_contra hge
  have hpast := evalAt_past (e := e) hinv (hinv.keys.length_eq hcap) (Or.inl (Nat.not_lt.mp hge))
  rw [hi.2, hfalse] at hpast
  cases hpast

/-- Nothing is selected where nothing holds. -/
theorem filter_range_of_le {p : ℕ → Bool} {n k : ℕ} (hle : n ≤ k)
    (hp : ∀ i, n ≤ i → p i = false) : (List.range k).filter p = (List.range n).filter p := by
  obtain ⟨j, rfl⟩ := Nat.exists_eq_add_of_le hle
  have hnone : ((List.range j).map (n + ·)).filter p = [] := by
    refine List.filter_eq_nil_iff.mpr fun i hi => ?_
    obtain ⟨l, -, rfl⟩ := List.mem_map.mp hi
    simp [hp (n + l) (Nat.le_add_right n l)]
  rw [List.range_add, List.filter_append, hnone, List.append_nil]

theorem length_filter_range_of_le {p : ℕ → Bool} {n k : ℕ} (hle : n ≤ k)
    (hp : ∀ i, n ≤ i → p i = false) :
    ((List.range k).filter p).length = ((List.range n).filter p).length := by
  rw [filter_range_of_le hle hp]

/-- There are as many keys in the denoted set as there are indices of keys where the expression
reads true. -/
theorem ncard_denoted (h₀ : createEmptyDB m s a = .ok db₀) (h : run db₀ ops = .ok db)
    (hcap : db.keyCount ≤ m) :
    (db.denoted ops e).ncard = ((List.range db.keyCount).filter (db.evalAt e)).length := by
  have hinv := inv_run (inv_createEmptyDB h₀) h
  have hlen := hinv.keys.length_eq (hcap.trans (maxKeyCount_eq h₀ h).ge)
  have hname : ∀ i < db.keyCount, ∃ name, stSearch db.keyTable name = some ⟨i, name⟩ :=
    fun i hi => hinv.keys.exists_name (hi.trans_eq hlen.symm)
  choose! keyName hkeyName using hname
  have himage : db.denoted ops e =
      keyName '' ↑((List.range db.keyCount).filter (db.evalAt e)).toFinset := by
    ext k
    simp only [Set.mem_image, List.coe_toFinset, Set.mem_ofPred_eq, List.mem_filter, List.mem_range]
    constructor
    · intro hk
      obtain ⟨d, hd⟩ := Option.isSome_iff_exists.mp (denoted_subset h₀ h hcap hk)
      have hlt := hinv.keys.index_lt_count hd
      refine ⟨d.index, ⟨hlt, (mem_denoted_iff h₀ h hcap hd).mp hk⟩, ?_⟩
      exact hinv.keys.name_eq (hkeyName _ hlt) hd rfl
    · rintro ⟨i, ⟨hi, heval⟩, rfl⟩
      exact (mem_denoted_iff h₀ h hcap (hkeyName i hi)).mpr heval
  have hinj : Set.InjOn keyName ↑((List.range db.keyCount).filter (db.evalAt e)).toFinset := by
    intro i hi j hj heq
    simp only [List.coe_toFinset, Set.mem_ofPred_eq, List.mem_filter, List.mem_range] at hi hj
    have := (hkeyName i hi.1).symm.trans (heq ▸ hkeyName j hj.1)
    exact congrArg TableData.index (Option.some.inj this)
  rw [himage, hinj.ncard_image, Set.ncard_coe_finset,
    List.toFinset_card_of_nodup (List.nodup_range.filter _)]

/-- The result of an expression has the keys it denotes and nothing else: no bit at an index
without a key, and as many 1 bits, and rows in a query, as there are keys in the denoted set. -/
structure NoPhantom (db : Database) (ops : List Op) (e : SetExpr Bytes) : Prop where
  result : ∃ r, dbRunSetOperation db e.toSetOp = .ok r ∧
    (∀ i, r.bs.bit i = true → i < db.keyCount) ∧ r.bs.ones.length = (db.denoted ops e).ncard
  dataLength : ∀ u q qr, q.op = e.toSetOp → dbRunQuery u db q = .ok qr →
    qr.dataLength = (db.denoted ops e).ncard ∧ qr.dataLength ≤ db.keyCount

/-- **There are no bits without a key exactly when the keys fill the words, or the expression
denotes nothing where its sets are empty.** -/
theorem noPhantom_iff (h₀ : createEmptyDB m s a = .ok db₀) (h : run db₀ ops = .ok db)
    (hcap : db.keyCount ≤ m) (e : SetExpr Bytes)
    (hleaves : ∀ s ∈ e.leaves, (stSearch db.setNamesTable s).isSome) :
    NoPhantom db ops e ↔
      db.keyCount = 64 * db.wordCount ∨ e.evalBool (fun _ => false) = false := by
  have hinv := inv_run (inv_createEmptyDB h₀) h
  have hlen := hinv.keys.length_eq (hcap.trans (maxKeyCount_eq h₀ h).ge)
  have hncard := ncard_denoted (e := e) h₀ h hcap
  obtain ⟨r, hr, hev⟩ := dbRunSetOperation_toSetOp hinv e hleaves
  have hbit : ∀ i, r.bs.bit i = true ↔ i < 64 * db.wordCount ∧ db.evalAt e i = true := fun i => by
    rw [← Bitset.mem_ones, hev.ones_eq, List.mem_filter, List.mem_range]
  have hpast : ∀ i, db.keyCount ≤ i ∨ 64 * db.wordCount ≤ i →
      db.evalAt e i = e.evalBool fun _ => false := fun i => evalAt_past hinv hlen
  constructor
  · intro hno
    obtain ⟨r', hr', hlt, hones⟩ := hno.result
    obtain rfl := Except.ok.inj (hr.symm.trans hr')
    by_contra hcon
    rw [not_or, Bool.not_eq_false] at hcon
    obtain ⟨hne, htrue⟩ := hcon
    rcases Nat.lt_or_gt_of_ne hne with hfew | hmany
    · have := hlt db.keyCount ((hbit _).mpr ⟨hfew, (hpast _ (Or.inl le_rfl)).trans htrue⟩)
      exact lt_irrefl _ this
    · obtain ⟨n, hn⟩ := Nat.exists_eq_add_of_lt hmany
      rw [hncard, hn, Nat.add_assoc, List.range_add, List.filter_append, List.length_append,
        ← hev.ones_eq] at hones
      have hrest : 64 * db.wordCount ∈
          ((List.range (n + 1)).map (64 * db.wordCount + ·)).filter (db.evalAt e) :=
        List.mem_filter.mpr ⟨List.mem_map.mpr ⟨0, by simp, rfl⟩,
          (hpast _ (Or.inr le_rfl)).trans htrue⟩
      have := List.length_pos_of_mem hrest
      omega
  · intro hcond
    have hlt : ∀ i, r.bs.bit i = true → i < db.keyCount := fun i hi => by
      rcases hcond with hfull | hfalse
      · exact hfull ▸ ((hbit i).mp hi).1
      · exact bit_lt_keyCount hinv (hcap.trans (maxKeyCount_eq h₀ h).ge) hleaves hfalse hr hi
    have hones : r.bs.ones.length = (db.denoted ops e).ncard := by
      rw [hncard, hev.ones_eq]
      rcases hcond with hfull | hfalse
      · rw [hfull]
      · -- where the sets are empty the expression reads false, so no bit is past either bound
        rcases Nat.le_total db.keyCount (64 * db.wordCount) with hle | hle
        · exact length_filter_range_of_le hle fun i hi => (hpast i (Or.inl hi)).trans hfalse
        · exact (length_filter_range_of_le hle fun i hi => (hpast i (Or.inr hi)).trans hfalse).symm
    refine ⟨⟨r, hr, hlt, hones⟩, fun u q qr hq hqr => ?_⟩
    obtain ⟨r', hr', hdata⟩ := dataLength_dbRunQuery hqr
    rw [hq] at hr'
    obtain rfl := Except.ok.inj (hr.symm.trans hr')
    exact ⟨hdata.trans hones, hdata.trans_le (Bitset.length_ones_le hlt)⟩

theorem noPhantom_iff_single :
    ∃ db₀ db, createEmptyDB 1 1 1 = .ok db₀ ∧
      run db₀ [.addKey (lit "k"), .createSet (lit "S"), .addToSet (lit "S") (lit "k")] = .ok db ∧
      NoPhantom db [.addKey (lit "k"), .createSet (lit "S"), .addToSet (lit "S") (lit "k")]
        (.difference (.name (lit "S")) (.complement (.name (lit "S")))) :=
  ⟨_, _, createEmptyDB_one, rfl,
    (noPhantom_iff createEmptyDB_one rfl (by decide) _ (by decide)).mpr (Or.inr rfl)⟩

/-- The complement of the empty set in a database of one key has 64 bits. -/
theorem phantom_complement :
    ∃ db₀ db, createEmptyDB 1 1 1 = .ok db₀ ∧
      run db₀ [.addKey (lit "k"), .createSet (lit "S")] = .ok db ∧ db.keyCount ≤ 1 ∧
      ¬ NoPhantom db [.addKey (lit "k"), .createSet (lit "S")] (.complement (.name (lit "S"))) := by
  refine ⟨_, _, createEmptyDB_one, rfl, by decide, fun hno => ?_⟩
  obtain ⟨r, hr, hlt, -⟩ := hno.result
  have hbit : r.bs.bit 1 = true := by
    obtain rfl := Except.ok.inj hr
    rfl
  exact absurd (hlt 1 hbit) (by decide)

end Denoted

end SetQL
