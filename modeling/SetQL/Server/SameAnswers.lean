import SetQL.Server.EndToEnd
import SetQL.Spec.Equivalence

/-!
# Queries with the same answers

Equivalent expressions may be exchanged in queries: no server that has loaded a universe replies to
one otherwise than to the other. Only equivalent ones may: where two expressions read differently,
there is a universe of 64 keys, all of them in the same sets, over which one query selects all keys
and the other none. Whether two expressions are equivalent is decided by their finitely many
readings.

## Main definitions

* `SameAnswers e e'`: no server tells the expressions apart
* `SetExpr.text`: the text of an expression
* `probeUniverse leaf names`: a universe over which the names read as given

## Main results

* `messageCallbackFunc_congr`: equivalent expressions get the same reply
* `selected_probe`: an expression selects all keys of the universe, or none
* `sameAnswers_iff`: no server tells two expressions apart exactly when they denote the same sets
-/

namespace SetQL

/-- No server that has loaded a universe with the sets of both expressions replies to a query with
one otherwise than to one with the other. -/
def SameAnswers (e e' : SetExpr Bytes) : Prop :=
  ∀ mem u db, LoadedFrom mem u db → (∀ s ∈ e.leaves ++ e'.leaves, ∃ set ∈ u.sets, set.name = s) →
    ∀ un ns q q', QueryForm q ns e → QueryForm q' ns e' →
      messageCallbackFunc un db q = messageCallbackFunc un db q'

/-! ## Equivalent expressions -/

section Same

variable {mem : Memory} {un : Uninitialized} {u : Universe} {db : Database} {e e' : SetExpr Bytes}
  {b b' : Bitset} {q q' : Bytes} {ns : List Bytes}

/-- Equivalent expressions are evaluated to the same bitset. -/
theorem Evaluates.unique (hequiv : e.Equiv e') (h : Evaluates db e b) (h' : Evaluates db e' b') :
    b = b' := by
  refine Bitset.ext_bit (h.words.trans h'.words.symm) fun i hi => ?_
  rw [h.words] at hi
  rw [h.bit i hi, h'.bit i hi, hequiv]

/-- **Equivalent expressions get the same reply**, whatever the columns are. -/
theorem messageCallbackFunc_congr (hequiv : e.Equiv e') (h : LoadedFrom mem u db)
    (hsets : ∀ s ∈ e.leaves ++ e'.leaves, ∃ set ∈ u.sets, set.name = s) (hq : QueryForm q ns e)
    (hq' : QueryForm q' ns e') : messageCallbackFunc un db q = messageCallbackFunc un db q' := by
  obtain ⟨db₀, h₀, hrun⟩ := h.run
  have hknown : ∀ s ∈ e.leaves ++ e'.leaves, (stSearch db.setNamesTable s).isSome := fun s hs =>
    (h.loadable.isSome_set_iff h₀ hrun h.safe.keyCount_le).mpr (hsets s hs)
  obtain ⟨res, hres, hev⟩ := dbRunSetOperation_toSetOp h.safe.inv e fun s hs =>
    hknown s (List.mem_append_left _ hs)
  obtain ⟨res', hres', hev'⟩ := dbRunSetOperation_toSetOp h.safe.inv e' fun s hs =>
    hknown s (List.mem_append_right _ hs)
  have hrunQuery : dbRunQuery un db ⟨ns, e.toSetOp⟩ = dbRunQuery un db ⟨ns, e'.toSetOp⟩ := by
    rw [dbRunQuery, dbRunQuery, hres, hres', ok_bind, ok_bind, hev.unique hequiv hev']
  rw [messageCallbackFunc_of_queryForm hq, messageCallbackFunc_of_queryForm hq', hrunQuery]

end Same

/-! ## Texts of expressions -/

/-- The text of an expression, without white space. -/
def SetExpr.text : SetExpr Bytes → Bytes
  | name s => s
  | complement e => lit "COMPLEMENT" ++ openParen :: (e.text ++ [closeParen])
  | union l r => lit "UNION" ++ openParen :: (l.text ++ comma :: r.text ++ [closeParen])
  | intersection l r =>
    lit "INTERSECTION" ++ openParen :: (l.text ++ comma :: r.text ++ [closeParen])
  | difference l r => lit "DIFFERENCE" ++ openParen :: (l.text ++ comma :: r.text ++ [closeParen])

section Text

variable {e l r : SetExpr Bytes} {w v : Bytes} {n : Bytes}

theorem derives_binary (op : BinaryOp) (hl : Derives l w) (hr : Derives r v) :
    Derives (op.expr l r) (op.word ++ openParen :: (w ++ comma :: v ++ [closeParen])) := by
  have hk : Keyword op.word op.word := by
    cases op <;> unfold Keyword <;> decide
  simpa using Derives.binary op hk spaces_nil spaces_nil hl spaces_nil spaces_nil hr spaces_nil

/-- The text of an expression over names is one that the parser reads. -/
theorem derives_text (h : ∀ s ∈ e.leaves, IsName s) : Derives e e.text := by
  induction e with
  | name s => exact .name (h s (List.mem_singleton_self s))
  | complement e ih =>
    have hk : Keyword (lit "COMPLEMENT") (lit "COMPLEMENT") := by
      unfold Keyword
      decide
    rw [SetExpr.text]
    simpa using Derives.complement hk spaces_nil spaces_nil (ih h) spaces_nil
  | union l r ihl ihr =>
    obtain ⟨hl, hr⟩ := List.forall_mem_append.mp h
    exact derives_binary .union (ihl hl) (ihr hr)
  | intersection l r ihl ihr =>
    obtain ⟨hl, hr⟩ := List.forall_mem_append.mp h
    exact derives_binary .intersection (ihl hl) (ihr hr)
  | difference l r ihl ihr =>
    obtain ⟨hl, hr⟩ := List.forall_mem_append.mp h
    exact derives_binary .difference (ihl hl) (ihr hr)

/-- A query for one column. -/
theorem queryForm_of_derives (hn : IsName n) (h : Derives e w) :
    QueryForm (lit "SELECT " ++ (n ++ (lit " FROM " ++ (w ++ [semicolon])))) [n] e := by
  have hkeyword : Keyword (lit "SELECT") (lit "SELECT") ∧ Keyword (lit "FROM") (lit "FROM") := by
    unfold Keyword
    decide
  have hparts : lit "SELECT " = lit "SELECT" ++ lit " " ∧
      lit " FROM " = lit " " ++ (lit "FROM" ++ lit " ") := by decide
  refine ⟨[], lit "SELECT", lit " ", n, lit " ", lit "FROM", lit " ", w, [], [], ?_, spaces_nil,
    hkeyword.1, spaces_blank, by decide, .single hn, spaces_blank, by decide, hkeyword.2,
    spaces_blank, by decide, h, spaces_nil, spaces_nil⟩
  rw [hparts.1, hparts.2]
  simp

end Text

/-! ## Different expressions -/

/-- 64 different keys. -/
def probeKeys : List Bytes := (List.range 64).map fun i => [UInt8.ofNat (48 + i)]

/-- A universe of these keys. A set has all of them or none, as the reading of its name says. -/
def probeUniverse (leaf : Bytes → Bool) (names : List Bytes) : Universe where
  name := lit "U"
  keyDataTypeNames := [lit "STRING"]
  keyDataNames := [lit "k"]
  attributeDataTypeNames := []
  attributeDataNames := []
  keyValues := probeKeys.map fun k => some [k]
  attributeValues := probeKeys.map fun _ => some []
  sets := names.map fun s => ⟨s, if leaf s then probeKeys.map fun k => some [k] else []⟩

section Probe

variable {leaf : Bytes → Bool} {names : List Bytes} {e : SetExpr Bytes} {s k : Bytes}

theorem length_probeKeys : probeKeys.length = 64 := rfl

theorem rows_probe : (probeUniverse leaf names).rows = 64 := rfl

theorem keys_probe (leaf : Bytes → Bool) (names : List Bytes) :
    (probeUniverse leaf names).keys = probeKeys := rfl

theorem distinctKeys_probe (leaf : Bytes → Bool) (names : List Bytes) :
    (probeUniverse leaf names).distinctKeys = probeKeys := by
  rw [Universe.distinctKeys, keys_probe]
  decide

theorem members_probe : (⟨s, if leaf s then probeKeys.map fun k => some [k] else []⟩ :
    UniverseSet).members = if leaf s then probeKeys else [] := by
  cases leaf s <;> rfl

/-- A key is in a set exactly if the name reads true. -/
theorem lists_probe (hs : s ∈ names) (hk : k ∈ probeKeys) :
    (probeUniverse leaf names).lists s k = leaf s := by
  rw [Bool.eq_iff_iff, Universe.lists_iff]
  constructor
  · rintro ⟨set, hset, rfl, hmem⟩
    obtain ⟨s, -, rfl⟩ := List.mem_map.mp hset
    rw [members_probe] at hmem
    by_contra hfalse
    rw [if_neg hfalse] at hmem
    cases hmem
  · intro htrue
    refine ⟨_, List.mem_map_of_mem hs, rfl, ?_⟩
    rwa [members_probe, if_pos htrue]

/-- **An expression selects all keys of the universe, or none.** -/
theorem selected_probe (hnames : ∀ s ∈ e.leaves, s ∈ names) :
    (probeUniverse leaf names).selected e = if e.evalBool leaf then probeKeys else [] := by
  have hfilter : (probeUniverse leaf names).selected e = probeKeys.filter fun _ => e.evalBool leaf := by
    rw [Universe.selected, distinctKeys_probe]
    refine List.filter_congr fun k hk => ?_
    exact SetExpr.evalBool_congr e fun s hs => lists_probe (hnames s hs) hk
  rw [hfilter]
  cases e.evalBool leaf <;> simp

theorem cell_singletons {ks : List Bytes} {i : ℕ} (hi : i < ks.length) :
    ∃ b, ArrayList.cell (ks.map fun k => some [k]) i 0 = .ok b := by
  have hrow : (ks.map fun k => some [k])[i]? = some (some [ks[i]]) := by
    rw [List.getElem?_map, List.getElem?_eq_getElem hi, Option.map_some]
  refine ⟨ks[i], ?_⟩
  rw [ArrayList.cell, fetch_eq_ok.mpr hrow]
  rfl

/-- The universe is within the capacities. -/
theorem loadable_probe (leaf : Bytes → Bool) (hnodup : names.Nodup) (hne : ∀ s ∈ names, s ≠ [])
    (hle : names.length ≤ 1000) : Loadable (probeUniverse leaf names) where
  shaped := by
    refine ⟨List.cons_ne_nil _ _, rfl, fun k hk => cell_singletons (length_probeKeys ▸ hk),
      fun k hk i hi => absurd hi (Nat.not_lt_zero i), fun set hset j hj => ?_⟩
    obtain ⟨s, -, rfl⟩ := List.mem_map.mp hset
    split_ifs at hj ⊢
    · exact cell_singletons (by simpa using hj)
    · exact absurd hj (Nat.not_lt_zero j)
  keyColumn := rfl
  keyName_ne := List.cons_ne_nil _ _
  keyName_lt := by rw [show (probeUniverse leaf names).keyName = lit "k" from rfl]; decide
  rows_pos := by rw [rows_probe]; decide
  rows_le := by rw [rows_probe]; decide
  length_eq := rfl
  key := by
    have hkeys : ∀ k ∈ probeKeys, k ≠ [] ∧ NulFree k ∧ k.length ≤ dbMaxStringLength := by
      decide
    intro r hr
    exact hkeys _ (keys_probe leaf names ▸ mem_keys_iff.mpr ⟨r, hr, rfl⟩)
  names := List.nodup_singleton _
  types := fun i hi => absurd hi (Nat.not_lt_zero i)
  strings := fun i hi => absurd hi (Nat.not_lt_zero i)
  integers := fun i hi => absurd hi (Nat.not_lt_zero i)
  setNames := by simpa [probeUniverse, Function.comp_def] using hnodup
  setNames_ne := by simpa [probeUniverse] using hne
  sets_le := by simpa [probeUniverse] using hle
  attributes_le := Nat.zero_le _

/-- The query for the keys can be answered. -/
theorem answerable_probe (hnames : ∀ s ∈ e.leaves, s ∈ names) :
    Answerable (probeUniverse leaf names) [lit "k"] e where
  sets := fun s hs => ⟨_, List.mem_map_of_mem (hnames s hs), rfl⟩
  columns := by
    intro n hn
    obtain rfl := List.mem_singleton.mp hn
    exact List.mem_cons_self
  length_le := le_rfl
  texts := by
    have hkeys : ∀ k ∈ probeKeys, k.length < dbMaxStringLength ∧ IsUtf8 k := by
      unfold IsUtf8
      decide
    intro n hn _ k hk
    obtain rfl := List.mem_singleton.mp hn
    have hmem : k ∈ probeKeys := by
      rw [← distinctKeys_probe leaf names]
      exact (List.mem_filter.mp hk).1
    rw [show (probeUniverse leaf names).cell (lit "k") k = k from if_pos rfl]
    exact hkeys k hmem
  noPhantom := by
    left
    rw [distinctKeys_probe, rows_probe]
    decide
  rows_lt := by
    rw [selected_probe hnames]
    split_ifs <;> decide

end Probe

section Equivalence

variable {mem : Memory} {leaf : Bytes → Bool} {names : List Bytes} {db : Database}
  {e e' : SetExpr Bytes} {q : Bytes}

/-- What the client reads over the universe: all keys, or it divides by their number. -/
theorem exists_reply_probe (h : LoadedFrom mem (probeUniverse leaf names) db)
    (hnames : ∀ s ∈ e.leaves, s ∈ names) (hq : QueryForm q [lit "k"] e) :
    ∃ reply, messageCallbackFunc ⟨fun _ => 0, fun _ _ => 0⟩ db q = .ok (1, reply) ∧
      ((fetchResult true reply).isOk ↔ e.evalBool leaf = true) := by
  obtain ⟨reply, hreply, hfetch⟩ := h.serves ⟨fun _ => 0, fun _ _ => 0⟩ q _ e (fun _ => rfl) hq
    (answerable_probe hnames)
  refine ⟨reply, hreply, ?_⟩
  rw [hfetch, selected_probe hnames]
  cases e.evalBool leaf <;> simp [probeKeys, Except.isOk, Except.toBool]

/-- No server tells two expressions apart exactly when they are equivalent. -/
theorem sameAnswers_iff_equiv (hnames : ∀ s ∈ e.leaves ++ e'.leaves, IsName s)
    (hle : (e.leaves ++ e'.leaves).dedup.length ≤ 1000) : SameAnswers e e' ↔ e.Equiv e' := by
  constructor
  · intro hsame leaf
    -- a universe whose sets are the names of both expressions
    let names := (e.leaves ++ e'.leaves).dedup
    have hmem : ∀ s, s ∈ names ↔ s ∈ e.leaves ++ e'.leaves := fun s => List.mem_dedup
    let mem : Memory := ⟨fun _ _ => 0, fun _ _ _ => 0, fun _ _ _ => 0⟩
    obtain ⟨db₀, s, -, -, hloaded⟩ := exists_loadedFrom mem (loadable_probe leaf
      (List.nodup_dedup (e.leaves ++ e'.leaves)) (fun s hs => (hnames s ((hmem s).mp hs)).1) hle)
    have hk : IsName (lit "k") := ⟨by decide, by unfold IsNameByte IsLetter; decide +kernel⟩
    have hq := queryForm_of_derives hk (derives_text fun s hs => hnames s (List.mem_append_left _ hs))
    have hq' := queryForm_of_derives hk (derives_text fun s hs => hnames s (List.mem_append_right _ hs))
    obtain ⟨reply, hreply, hread⟩ := exists_reply_probe hloaded
      (fun s hs => (hmem s).mpr (List.mem_append_left _ hs)) hq
    obtain ⟨reply', hreply', hread'⟩ := exists_reply_probe hloaded
      (fun s hs => (hmem s).mpr (List.mem_append_right _ hs)) hq'
    have heq := hsame _ _ _ hloaded (fun s hs => ⟨_, List.mem_map_of_mem ((hmem s).mpr hs), rfl⟩)
      ⟨fun _ => 0, fun _ _ => 0⟩ _ _ _ hq hq'
    rw [hreply, hreply'] at heq
    obtain rfl := (Prod.mk.inj (Except.ok.inj heq)).2
    exact Bool.eq_iff_iff.mpr (hread.symm.trans hread')
  · intro hequiv mem u db h hsets un ns q q' hq hq'
    exact messageCallbackFunc_congr hequiv h hsets hq hq'

/-- **No server tells two expressions apart exactly when they denote the same set** over every
universe. -/
theorem sameAnswers_iff (hnames : ∀ s ∈ e.leaves ++ e'.leaves, IsName s)
    (hle : (e.leaves ++ e'.leaves).dedup.length ≤ 1000) :
    SameAnswers e e' ↔ ∀ (U : Set Bytes) (members : Bytes → Set Bytes), (∀ s, members s ⊆ U) →
      e.denote U members = e'.denote U members :=
  (sameAnswers_iff_equiv hnames hle).trans SetExpr.equiv_iff_denote

/-- In neither of two sets, in two ways. -/
def deMorgan : SetExpr Bytes × SetExpr Bytes :=
  (.complement (.union (.name (lit "A")) (.name (lit "B"))),
    .intersection (.complement (.name (lit "A"))) (.complement (.name (lit "B"))))

theorem sameAnswers_iff_deMorgan : SameAnswers deMorgan.1 deMorgan.2 := by
  have hnames : ∀ s ∈ deMorgan.1.leaves ++ deMorgan.2.leaves, IsName s := by
    unfold IsName IsNameByte IsLetter
    decide +kernel
  have hequiv : deMorgan.1.Equiv deMorgan.2 := by decide
  exact (sameAnswers_iff hnames (by decide)).mpr (SetExpr.equiv_iff_denote.mp hequiv)

end Equivalence

end SetQL
