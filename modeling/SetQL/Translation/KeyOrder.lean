import SetQL.DataStructures.Frame
import SetQL.Translation.Faithful

/-!
# The order of the keys

A key gets the next index when it is added for the first time. The index of a key in a loaded
database is therefore the number of different keys in the rows before its first row, and a universe
alone decides whether a listed member of a set is past the words of the set.

## Main definitions

* `numberBefore names k`: the number of different names in front of the first `k`
* `KeyOrder db names`: the keys of the database are numbered in the order of the names
* `MembersInWords u`: no listed member of a set is past the words of the set

## Main results

* `keyOrder_run`: a run numbers the keys that it adds
* `inWords_of_members`, `membersInWords_of_run`: the operations of a load add no key past the words
  when the universe lists none, and only then
-/

namespace SetQL

/-! ## Numbering -/

/-- The number of different names in front of the first `k`; the empty name is not counted. -/
def numberBefore (names : List Bytes) (k : Bytes) : ℕ :=
  ((names.takeWhile (· ≠ k)).toFinset.erase []).card

section Numbering

variable {names l : List Bytes} {k : Bytes}

/-- A name that is there keeps its number when more names follow. -/
theorem numberBefore_append_of_mem (hk : k ∈ names) :
    numberBefore (names ++ l) k = numberBefore names k := by
  rw [numberBefore, List.takeWhile_append, if_neg, numberBefore]
  intro hall
  have heq := List.IsPrefix.eq_of_length (List.takeWhile_prefix _) hall
  have htaken : k ∈ names.takeWhile (· ≠ k) := heq.symm ▸ hk
  simpa using List.mem_takeWhile_imp htaken

/-- A new name comes behind all the names. -/
theorem numberBefore_append_self (hk : k ∉ names) :
    numberBefore (names ++ k :: l) k = (names.toFinset.erase []).card := by
  have hall : names.takeWhile (· ≠ k) = names := by
    rw [List.takeWhile_eq_self_iff]
    intro b hb
    simpa using fun heq : b = k => hk (heq ▸ hb)
  rw [numberBefore, List.takeWhile_append, if_pos (congrArg List.length hall)]
  simp

end Numbering

/-! ## The keys of a run -/

/-- The key that an operation adds. -/
def Op.addedKey : Op → Option Bytes
  | addKey name => some name
  | _ => none

/-- The keys that operations add, in order. -/
def addedKeys (ops : List Op) : List Bytes := ops.filterMap Op.addedKey

/-- The keys of the database are the names but the empty one, each under its number. -/
structure KeyOrder (db : Database) (names : List Bytes) : Prop where
  count : db.keyCount = (names.toFinset.erase []).card
  index : ∀ k d, stSearch db.keyTable k = some d ↔
    (k ∈ names ∧ k ≠ []) ∧ d = ⟨numberBefore names k, k⟩

section Run

variable {db db' db₀ : Database} {op : Op} {ops : List Op} {names : List Bytes} {k : Bytes}

@[simp] theorem addedKeys_append (ops ops' : List Op) :
    addedKeys (ops ++ ops') = addedKeys ops ++ addedKeys ops' := List.filterMap_append

theorem addedKeys_eq_nil (h : ops.countP Op.addsKey = 0) : addedKeys ops = [] := by
  rw [addedKeys, List.filterMap_eq_nil_iff]
  intro op hop
  have hno := List.countP_eq_zero.mp h op hop
  cases op with
  | addKey name => exact absurd rfl hno
  | createSet _ | addToSet _ _ | removeFromSet _ _ | createAttribute _ _ _ | setAttribute _ _ _ => rfl

/-- The numbering after a name that is not new. -/
theorem KeyOrder.append_known (h : KeyOrder db names) (hk : k = [] ∨ k ∈ names) :
    KeyOrder db (names ++ [k]) := by
  have hset : (names ++ [k]).toFinset.erase [] = names.toFinset.erase [] := by
    ext b
    simp only [Finset.mem_erase, List.mem_toFinset, List.mem_append, List.mem_singleton]
    constructor
    · rintro ⟨hb, hmem | rfl⟩
      · exact ⟨hb, hmem⟩
      · exact ⟨hb, hk.resolve_left hb⟩
    · rintro ⟨hb, hmem⟩
      exact ⟨hb, Or.inl hmem⟩
  refine ⟨by rw [hset, h.count], fun b d => ?_⟩
  rw [h.index]
  constructor
  · rintro ⟨⟨hmem, hb⟩, rfl⟩
    exact ⟨⟨List.mem_append_left _ hmem, hb⟩, by rw [numberBefore_append_of_mem hmem]⟩
  · rintro ⟨⟨hmem, hb⟩, rfl⟩
    have hmem : b ∈ names := by
      rcases List.mem_append.mp hmem with hmem | hmem
      · exact hmem
      · obtain rfl := List.mem_singleton.mp hmem
        exact hk.resolve_left hb
    exact ⟨⟨hmem, hb⟩, by rw [numberBefore_append_of_mem hmem]⟩

/-- The numbering after a new name. -/
theorem KeyOrder.append_new (h : KeyOrder db names) (hne : k ≠ []) (hnew : k ∉ names)
    (hcount : db'.keyCount = db.keyCount + 1)
    (hself : stSearch db'.keyTable k = some ⟨db.keyCount, k⟩)
    (hothers : ∀ b, b ≠ k → stSearch db'.keyTable b = stSearch db.keyTable b) :
    KeyOrder db' (names ++ [k]) := by
  have hset : (names ++ [k]).toFinset.erase [] = insert k (names.toFinset.erase []) := by
    ext b
    simp only [Finset.mem_erase, List.mem_toFinset, List.mem_append, List.mem_singleton,
      Finset.mem_insert]
    constructor
    · rintro ⟨hb, hmem | rfl⟩
      · exact Or.inr ⟨hb, hmem⟩
      · exact Or.inl rfl
    · rintro (rfl | ⟨hb, hmem⟩)
      · exact ⟨hne, Or.inr rfl⟩
      · exact ⟨hb, Or.inl hmem⟩
  refine ⟨?_, fun b d => ?_⟩
  · rw [hset, Finset.card_insert_of_notMem (by simp [hnew]), ← h.count, hcount]
  · by_cases hb : b = k
    · subst hb
      rw [hself, Option.some.injEq, numberBefore_append_self hnew, ← h.count]
      simp [hne, eq_comm]
    · rw [hothers b hb, h.index]
      constructor
      · rintro ⟨⟨hmem, hb'⟩, rfl⟩
        exact ⟨⟨List.mem_append_left _ hmem, hb'⟩, by rw [numberBefore_append_of_mem hmem]⟩
      · rintro ⟨⟨hmem, hb'⟩, rfl⟩
        have hmem : b ∈ names := by simpa [hb] using hmem
        exact ⟨⟨hmem, hb'⟩, by rw [numberBefore_append_of_mem hmem]⟩

/-- An operation numbers the key that it adds, when there is room for it. -/
theorem keyOrder_exec (hinv : Inv db) (ho : KeyOrder db names) (h : op.exec db = .ok db')
    (hcap : db'.keyCount ≤ db'.maxKeyCount) : KeyOrder db' (names ++ op.addedKey.toList) := by
  cases op with
  | addKey name =>
    show KeyOrder db' (names ++ [name])
    have hknown : (stSearch db.keyTable name).isSome ↔ name ∈ names ∧ name ≠ [] := by
      rw [Option.isSome_iff_exists]
      constructor
      · rintro ⟨d, hd⟩
        exact ((ho.index name d).mp hd).1
      · intro hmem
        exact ⟨_, (ho.index name _).mpr ⟨hmem, rfl⟩⟩
    obtain ⟨hold, rfl⟩ | ⟨hne, hnew, table, hins, hdb'⟩ := dbAddKey_cases h
    · exact ho.append_known (hold.imp id fun hsome => (hknown.mp hsome).1)
    · have hfound := (Adds.key hne hnew).found hinv hcap h
      subst hdb'
      refine ho.append_new hne (fun hmem => ?_) rfl hfound fun b hb => stSearch_stInsert_of_ne hins hb
      have := hknown.mpr ⟨hmem, hne⟩
      rw [hnew] at this
      cases this
  | createSet _ | addToSet _ _ | removeFromSet _ _ | createAttribute _ _ _ | setAttribute _ _ _ =>
    obtain ⟨htable, hcount⟩ := keys_exec rfl h
    have hnames : ∀ l : List Bytes, l ++ (none : Option Bytes).toList = l := List.append_nil
    simp only [Op.addedKey, hnames]
    exact ⟨hcount.trans ho.count, htable ▸ ho.index⟩

/-- **A run numbers the keys that it adds**, in the order in which they are added first. -/
theorem keyOrder_run (hinv : Inv db₀) (ho : KeyOrder db₀ []) (h : run db₀ ops = .ok db)
    (hcap : db.keyCount ≤ db.maxKeyCount) : KeyOrder db (addedKeys ops) := by
  suffices hsim : Inv db ∧ (db.keyCount ≤ db.maxKeyCount → KeyOrder db (addedKeys ops)) from
    hsim.2 hcap
  refine foldlM_simulation (R := fun ops t => Inv t ∧
    (t.keyCount ≤ t.maxKeyCount → KeyOrder t (addedKeys ops))) ⟨hinv, fun _ => ho⟩ ?_ h
  rintro pre op t t' ⟨hinv, hpre⟩ hstep
  refine ⟨inv_exec hinv hstep, fun hcap => ?_⟩
  obtain ⟨hkeys, hmax⟩ := keyCount_exec hstep
  have hexec := keyOrder_exec hinv (hpre (by omega)) hstep hcap
  have hone : addedKeys [op] = op.addedKey.toList := by
    rw [addedKeys, List.filterMap_cons]
    cases op.addedKey <;> rfl
  rw [addedKeys_append, hone]
  exact hexec

end Run

/-! ## The keys of a load -/

/-- The keys of the rows, in order. -/
def Universe.keys (u : Universe) : List Bytes := (List.range u.rows).map u.key

/-- Every listed member of a set that is a key has a bit: as many bits as the words have, which are
counted through `float`. -/
def MembersInWords (u : Universe) : Prop :=
  ∀ set ∈ u.sets, ∀ k ∈ set.members, k ∈ u.keys → k ≠ [] →
    numberBefore u.keys k < 64 * ceilDivSingle u.rows 64

section Load

variable {mem : Memory} {u : Universe} {m sets attributes : ℕ} {db₀ db : Database} {k : Bytes}
  {set : UniverseSet} {pre post : List Op}

theorem addedKeys_startOps (mem : Memory) (u : Universe) : addedKeys (startOps mem u) = u.keys := by
  have hrows : ∀ l : List ℕ, addedKeys (l.flatMap (keyRowOps mem u)) = l.map u.key := by
    intro l
    induction l with
    | nil => rfl
    | cons r l ih =>
      rw [List.flatMap_cons, addedKeys_append, ih, List.map_cons]
      rfl
  exact hrows _

/-- A load adds the keys of the rows. -/
theorem addedKeys_loadOps (mem : Memory) (u : Universe) (sets attributes : ℕ) :
    addedKeys (loadOps mem u sets attributes) = u.keys := by
  have hstart := addedKeys_startOps mem u
  have hsets := addedKeys_eq_nil (countP_setsOps u.sets).1
  have hattributes := addedKeys_eq_nil (countP_attributeOps mem u u.attributeDataNames.length 0).1
  rw [loadOps]
  split_ifs
  · exact hstart
  · rw [addedKeys_append, hstart, hsets, List.append_nil]
  · rw [addedKeys_append, addedKeys_append, hstart, hsets, hattributes, List.append_nil,
      List.append_nil]

/-- There is room for the keys at every point of a load. -/
theorem keyCount_load (h₀ : createEmptyDB u.rows sets attributes = .ok db₀)
    (hops : loadOps mem u sets attributes = pre ++ post)
    (h : run (db₀.withKeyColumn u.keyName) pre = .ok db) : db.keyCount ≤ db.maxKeyCount := by
  have hkeys := (countP_loadOps mem u sets attributes).1
  rw [hops, List.countP_append] at hkeys
  have hcount := (counts_run h).keyCount
  have hmax := (capacities_run h).maxKeyCount
  obtain ⟨_, _, _, -, -, -, rfl⟩ := createEmptyDB_eq_ok h₀
  simp only [Database.withKeyColumn] at hcount hmax
  omega

/-- The keys of the database within a load are numbered in the order of the rows. -/
theorem keyOrder_load (h₀ : createEmptyDB u.rows sets attributes = .ok db₀)
    (hops : loadOps mem u sets attributes = pre ++ post)
    (h : run (db₀.withKeyColumn u.keyName) pre = .ok db) : KeyOrder db (addedKeys pre) := by
  have hinv := (safe_withKeyColumn h₀ u.keyName).inv
  have hcap := keyCount_load h₀ hops h
  obtain ⟨_, _, _, -, -, -, rfl⟩ := createEmptyDB_eq_ok h₀
  refine keyOrder_run hinv ⟨rfl, fun k d => ?_⟩ h hcap
  simp [Database.withKeyColumn]

/-- The number of a key does not change within a load. -/
theorem numberBefore_within (hops : loadOps mem u sets attributes = pre ++ post)
    (hk : k ∈ addedKeys pre) :
    k ∈ u.keys ∧ numberBefore (addedKeys pre) k = numberBefore u.keys k := by
  rw [← addedKeys_loadOps mem u sets attributes, hops, addedKeys_append]
  exact ⟨List.mem_append_left _ hk, (numberBefore_append_of_mem hk).symm⟩

theorem wordCount_withKeyColumn (h₀ : createEmptyDB u.rows sets attributes = .ok db₀) :
    (db₀.withKeyColumn u.keyName).wordCount = ceilDivSingle u.rows 64 := by
  obtain ⟨_, _, _, -, -, -, rfl⟩ := createEmptyDB_eq_ok h₀
  rfl

/-- **A universe that lists no member past the words is loaded without one.** -/
theorem inWords_of_members (h₀ : createEmptyDB u.rows sets attributes = .ok db₀)
    (hu : u.sets.length ≤ sets → MembersInWords u) :
    InWords (db₀.withKeyColumn u.keyName) (loadOps mem u sets attributes) := by
  intro pre name k post t s d hops hpre hn hk
  obtain ⟨⟨hadded, hne⟩, rfl⟩ := ((keyOrder_load h₀ hops hpre).index k d).mp hk
  obtain ⟨hkey, hnumber⟩ := numberBefore_within hops hadded
  have hmem : Op.addToSet name k ∈ loadOps mem u sets attributes := by simp [hops]
  have hstart : Op.addToSet name k ∉ startOps mem u := by
    intro h
    rcases List.mem_cons.mp h with h | h
    · cases h
    · obtain ⟨_, -, h | h⟩ := mem_keyOps.mp h <;> cases h
  have hsets : u.sets.length ≤ sets := by
    by_contra hmany
    rw [loadOps, if_pos (Nat.not_le.mp hmany)] at hmem
    exact hstart hmem
  obtain ⟨set, hset, hlisted⟩ : ∃ set ∈ u.sets, k ∈ set.members := by
    rcases mem_loadOps hmem with h | ⟨set, hset, h⟩ | h
    · exact absurd h hstart
    · obtain h | ⟨k', hk', h⟩ := mem_setOps.mp h
      · cases h
      · obtain ⟨-, rfl⟩ := Op.addToSet.inj h
        exact ⟨set, hset, hk'⟩
    · obtain ⟨j, -, -, h | ⟨-, h⟩⟩ := mem_attributeOps h
      · cases h
      · obtain ⟨_, -, h⟩ := mem_valueOps.mp h
        cases h
  rw [wordCount_withKeyColumn h₀, hnumber]
  exact hu hsets set hset k hlisted hkey hne

/-- The operations of a load around the addition of a listed member. -/
theorem exists_loadOps_split (hsets : u.sets.length ≤ sets) (hset : set ∈ u.sets)
    (hk : k ∈ set.members) : ∃ (l : List UniverseSet) (m : List Bytes) (post : List Op),
    loadOps mem u sets attributes =
      (startOps mem u ++ l.flatMap setOps ++ .createSet set.name :: m.map (.addToSet set.name)) ++
        .addToSet set.name k :: post := by
  obtain ⟨l₁, l₂, hl⟩ := List.append_of_mem hset
  obtain ⟨m₁, m₂, hm⟩ := List.append_of_mem hk
  have hone : setOps set = .createSet set.name :: m₁.map (.addToSet set.name) ++
      .addToSet set.name k :: m₂.map (.addToSet set.name) := by
    rw [setOps, hm, List.map_append, List.map_cons, List.cons_append]
  rw [loadOps, if_neg (by omega)]
  split_ifs
  · refine ⟨l₁, m₁, m₂.map (.addToSet set.name) ++ l₂.flatMap setOps, ?_⟩
    rw [hl, List.flatMap_append, List.flatMap_cons, hone]
    simp only [List.append_assoc, List.cons_append]
  · refine ⟨l₁, m₁, m₂.map (.addToSet set.name) ++ l₂.flatMap setOps ++
      attributeOps mem u u.attributeDataNames.length 0, ?_⟩
    rw [hl, List.flatMap_append, List.flatMap_cons, hone]
    simp only [List.append_assoc, List.cons_append]

/-- **A load that returns lists no member past the words.** -/
theorem membersInWords_of_run (h₀ : createEmptyDB u.rows sets attributes = .ok db₀)
    (hsets : u.sets.length ≤ sets) (hnames : ∀ set ∈ u.sets, set.name ≠ [])
    (h : run (db₀.withKeyColumn u.keyName) (loadOps mem u sets attributes) = .ok db) :
    MembersInWords u := by
  intro set hset k hk hkey hne
  have hinv := (safe_withKeyColumn h₀ u.keyName).inv
  obtain ⟨l, m, post, hops⟩ :
      ∃ (l : List UniverseSet) (m : List Bytes) (post : List Op), loadOps mem u sets attributes = _ :=
    exists_loadOps_split hsets hset hk
  obtain ⟨t, hpre, -⟩ := foldlM_append_eq_ok.mp (hops ▸ h)
  have hadded : k ∈ addedKeys (startOps mem u ++ l.flatMap setOps ++
      .createSet set.name :: m.map (.addToSet set.name)) := by
    rw [addedKeys_append, addedKeys_append, addedKeys_startOps]
    exact List.mem_append_left _ (List.mem_append_left _ hkey)
  have hfound := ((keyOrder_load h₀ hops hpre).index k _).mpr ⟨⟨hadded, hne⟩, rfl⟩
  have hcreated : .createSet set.name ∈ calls (startOps mem u ++ l.flatMap setOps ++
      .createSet set.name :: m.map (.addToSet set.name)) :=
    mem_calls.mpr ⟨by simp [Call.op], hnames set hset⟩
  have hrefines := refines_run hinv ((refines_createEmptyDB h₀).congr rfl rfl rfl) hpre
    (keyCount_load h₀ hops hpre)
  obtain ⟨s, hs⟩ := Option.isSome_iff_exists.mp
    ((hrefines.names _).mpr (Store.mem_names_run_iff.mpr hcreated))
  have hlt := inWords_of_run hinv h _ _ _ _ _ _ _ hops hpre hs hfound
  rw [(numberBefore_within hops hadded).2, wordCount_withKeyColumn h₀] at hlt
  exact hlt

end Load

end SetQL
