import SetQL.Parser.Declarations
import SetQL.Parser.SetRoundTrip
import SetQL.Parser.SinglePass

/-!
# What an initialization file means

The language of initialization files without its texts: a universe is declared, rows are inserted
into it, and then sets are created and keys are inserted into them. A statement about sets is refused
when its set is there already, or is not there, or has no room. The parser accepts a file of such
statements exactly when none is refused, and gives the universe that they mean.

## Main definitions

* `SetStatement`, `Description`: the statements about sets, and what a file says
* `SetStatement.exec`, `Description.meaning`: what they mean
* `Description.Texts`, `FileOf`: texts of a description, and a file of them

## Main results

* `setSteps_iff`: the second pass of the parser executes the statements about sets
* `executes_iff`: the two passes give the meaning of the texts
* `parseInitialization_iff`: the parser gives the meaning of a file
-/

namespace SetQL

/-! ## The language -/

/-- A statement about sets. -/
inductive SetStatement
  | create (name : Bytes)
  | insert (name : Bytes) (keys : List (List Bytes))
  deriving DecidableEq, Repr

/-- What a file says: the declared columns, each a name and a type, the rows of every insertion into
the universe, and the statements about sets. -/
structure Description where
  name : Bytes
  keys : List (Bytes × Bytes)
  attributes : List (Bytes × Bytes)
  insertions : List (List (List Bytes × List Bytes))
  sets : List SetStatement
  deriving DecidableEq, Repr

/-- A set with more keys. -/
def UniverseSet.add (set : UniverseSet) (keys : List (List Bytes)) : UniverseSet :=
  { set with keyValues := set.keyValues ++ keys.map some }

/-- There is a set of a name with room for as many keys: no set has more than the universe. -/
def Universe.HasRoom (u : Universe) (name : Bytes) (keys : List (List Bytes)) : Prop :=
  ∃ set ∈ u.sets, set.name = name ∧ set.keyValues.length + keys.length ≤ u.keyValues.length

instance (u : Universe) (name : Bytes) (keys : List (List Bytes)) :
    Decidable (u.HasRoom name keys) := inferInstanceAs (Decidable (∃ set ∈ u.sets, _))

/-- The effect of a statement about sets, `none` when it is refused. -/
def SetStatement.exec (u : Universe) : SetStatement → Option Universe
  | create name =>
    if name.length < 256 ∧ name ∉ u.name :: u.setNames then
      some { u with sets := u.sets ++ [⟨name, []⟩] }
    else none
  | insert name keys =>
    if u.HasRoom name keys then
      some { u with sets := u.sets.map fun set => if set.name = name then set.add keys else set }
    else none

namespace Description

/-- The declared universe with its rows, before any set. -/
def base (d : Description) : Universe where
  name := d.name
  keyDataTypeNames := d.keys.map Prod.snd
  keyDataNames := d.keys.map Prod.fst
  attributeDataTypeNames := d.attributes.map Prod.snd
  attributeDataNames := d.attributes.map Prod.fst
  keyValues := d.insertions.flatten.map fun row => some row.1
  attributeValues := d.insertions.flatten.map fun row => some row.2
  sets := []

/-- The universe that a file means, `none` when it is refused. -/
def meaning (d : Description) : Option Universe :=
  if d.name.length < 256 then d.sets.foldlM SetStatement.exec d.base else none

end Description

/-! ## Texts -/

/-- The text of a statement about sets; one that inserts keys is read as it is written. -/
def SetStatement.Text (types : List Bytes) : SetStatement → Bytes → Prop
  | create name, t => CreateSetShape t name
  | insert name keys, t => IsName name ∧
    ∃ items, SetInsertText types name keys items t ∧ CommasSeen keys items ∧ WholeNumbers types keys

/-- The file of texts, with a semicolon behind each. There may be none behind the last one. -/
inductive FileOf : List Bytes → Bytes → Prop
  | nil : FileOf [] []
  | last {t} : FileOf [t] t
  | cons {t ts file} (h : FileOf ts file) : FileOf (t :: ts) (t ++ semicolon :: file)

/-- The texts of what a file says. The statements about sets start with a creation. -/
structure Description.Texts (d : Description) (t₁ t₂ : Bytes) (inserts sets : List Bytes) :
    Prop where
  keys : DeclarationShape (lit "UNIVERSE") t₁ d.name d.keys
  attributes : DeclarationShape (lit "ATTRIBUTES") t₂ d.name d.attributes
  ne_nil : d.insertions ≠ []
  inserts : List.Forall₂ (InsertText d.base) d.insertions inserts
  sets : List.Forall₂ (SetStatement.Text (d.keys.map Prod.snd)) d.sets sets
  starts : ∀ s ∈ d.sets.head?, ∃ name, s = .create name

section Sets

variable {u u' v : Universe} {types : List Bytes} {s : SetStatement} {ss : List SetStatement}
  {t name : Bytes} {ts : List Bytes} {keys : List (List Bytes)} {k k' m : ℕ}

/-! ## One statement about sets -/

/-- The name of the created set is unique. -/
theorem CreateSetShape.unique {name' : Bytes} (h : CreateSetShape t name)
    (h' : CreateSetShape t name') : name = name' := by
  obtain ⟨a, k, b, l, c, d, ha, hk, hb, hl, hc, hname, hd, rfl⟩ := h
  obtain ⟨a', k', b', l', c', d', ha', hk', hb', hl', hc', hname', hd', heq⟩ := h'
  have h₁ := hk.append_inj hk' (letters_of_upper upper_create) (by decide) ha ha' heq
  have h₂ := hl.append_inj hl' (letters_of_upper upper_set) (by decide) hb.2 hb'.2 h₁
  obtain ⟨-, h₃⟩ := append_inj_of_all (p := IsSpace) hc.2 hc'.2 hname.head hname'.head h₂
  exact (append_inj_of_all (p := IsNameByte) hname.2 hname'.2 hd.head hd'.head h₃).1

/-- The created set is found. -/
theorem createdSet_of_shape (h : CreateSetShape t name) : createdSet t = some name := by
  have hsome : (createdSet t).isSome := by
    obtain ⟨a, k, b, l, c, d, ha, hk, hb, hl, hc, hname, hd, hs⟩ := h
    have hparse := (parse_createSetRegex (i := 0)).mpr
      ⟨a, k, b, l, c, name, d, ha, hk, hb, hl, hc, hname, hd, hs, rfl⟩
    rw [← isCreateSet_eq, Option.isSome_iff_ne_none]
    exact fun hnone => (regexec_anchored_eq_none rfl rfl).mp hnone _ hparse
  obtain ⟨name', hname'⟩ := Option.isSome_iff_exists.mp hsome
  rw [hname', (createdSet_eq_some hname').unique h]

/-- The text is that of an insertion. -/
theorem SetInsertText.shape {items : List Bytes} (hname : IsName name)
    (h : SetInsertText types name keys items t) :
    ∃ w, KeysText types keys items w ∧ InsertShape t w name := by
  obtain ⟨a, i, b, w, c, l, d, e, ha, hi, hb, hkeys, hc, hl, hd, he, rfl⟩ := h
  exact ⟨w, hkeys, a, i, b, c, l, d, e, ha, hi, hb, hkeys.content, hc, hl, hd, hname, he, rfl⟩

/-- The keys of an insertion are found, and are read as they are written. -/
theorem SetInsertText.reads {items : List Bytes} (hname : IsName name)
    (h : SetInsertText types name keys items t) (hseen : CommasSeen keys items)
    (hwhole : WholeNumbers types keys) : ∃ w, insertion t = some (w, name) ∧
      SetRowsRead types (countDelimiterIgnoringParenthesesContent w comma + 1) w keys := by
  obtain ⟨w, hkeys, hshape⟩ := h.shape hname
  refine ⟨w, insertion_eq_of_shape hshape, ?_⟩
  rw [hkeys.count_eq_iff.mpr hseen]
  exact (hkeys.read_iff (o := []) (Or.inl rfl)).mpr hwhole

/-- An insertion is not a creation. -/
theorem isCreateSet_of_insertion {items : Bytes} (h : insertion t = some (items, name)) :
    isCreateSet parserRegex t = false := by
  rw [isCreateSet, isCreateSet_eq, Option.isSome_eq_false_iff, Option.isNone_iff_eq_none]
  by_contra hsome
  obtain ⟨name', hcreated⟩ := Option.ne_none_iff_exists'.mp hsome
  rw [insertion_eq_none_of_createdSet hcreated] at h
  cases h

/-- Whether a statement about sets is a creation is seen in its text. -/
theorem SetStatement.Text.isCreateSet (h : s.Text types t) :
    SetQL.isCreateSet parserRegex t = true ↔ ∃ name, s = .create name := by
  cases s with
  | create name =>
    rw [SetQL.isCreateSet, isCreateSet_eq, createdSet_of_shape h]
    exact iff_of_true rfl ⟨name, rfl⟩
  | insert name keys =>
    obtain ⟨hname, items, htext, hseen, hwhole⟩ := h
    obtain ⟨w, hins, -⟩ := htext.reads hname hseen hwhole
    rw [isCreateSet_of_insertion hins]
    exact iff_of_false Bool.false_ne_true (by rintro ⟨name', h⟩; cases h)

theorem pad_create (u : Universe) (m : ℕ) (name : Bytes) :
    (u.pad (m + 1)).withSet u.sets.length ⟨name, []⟩ =
      Universe.pad { u with sets := u.sets ++ [⟨name, []⟩] } m := by
  simp [Universe.pad, Universe.withSet, List.replicate_succ]

/-- **A set is created exactly when its creation is not refused.** -/
theorem parseCreateSet_pad_iff (h : CreateSetShape t name) :
    parseCreateSet parserRegex (u.pad (m + 1)) t u.sets.length = .ok (u', none) ↔
      ∃ v, (SetStatement.create name).exec u = some v ∧ u' = v.pad m := by
  have hcreated := createdSet_of_shape h
  have hnew : existsUniverseSet (u.pad (m + 1)) name = false ↔ name ∉ u.setNames := by
    rw [existsUniverseSet, universeSetPosition_pad (ne_nil_of_createdSet_name hcreated),
      ← existsUniverseSet, existsUniverseSet_eq_false]
  have hset : (u.pad (m + 1)).sets[u.sets.length]? = some ⟨[], []⟩ := by
    simp [Universe.pad]
  rw [parseCreateSet_eq_ok, SetStatement.exec]
  constructor
  · rintro ⟨name', set, hname', hlen, hexists, hne, hset', rfl⟩
    obtain rfl := Option.some.inj (hcreated.symm.trans hname')
    obtain rfl := Option.some.inj (hset.symm.trans hset')
    have hallowed : name.length < 256 ∧ name ∉ u.name :: u.setNames :=
      ⟨hlen, by rw [List.mem_cons, not_or]; exact ⟨Ne.symm hne, hnew.mp hexists⟩⟩
    exact ⟨_, if_pos hallowed, pad_create u m name⟩
  · rintro ⟨v, hv, rfl⟩
    split_ifs at hv with hallowed
    obtain ⟨hlen, hnot⟩ := hallowed
    obtain ⟨hne, hnot⟩ := not_or.mp (mt List.mem_cons.mpr hnot)
    obtain rfl := Option.some.inj hv
    exact ⟨name, _, hcreated, hlen, hnew.mpr hnot, Ne.symm hne, hset, (pad_create u m name).symm⟩

/-- Sets of different names have different places. -/
theorem setIndex_inj (hu : u.setNames.Nodup) {j : ℕ} (hj : j < u.sets.length)
    (hk : k < u.sets.length) (h : u.sets[j].name = u.sets[k].name) : j = k := by
  have hlen : u.setNames.length = u.sets.length := List.length_map _
  have hj' : j < u.setNames.length := hlen ▸ hj
  have hk' : k < u.setNames.length := hlen ▸ hk
  have hnames : u.setNames[j] = u.setNames[k] := by simpa [Universe.setNames] using h
  exact hu.getElem_inj_iff.mp hnames

/-- The only set of a name is found. -/
theorem universeSetPosition_of_name (hu : u.setNames.Nodup) {set : UniverseSet}
    (hset : u.sets[k]? = some set) : universeSetPosition u set.name = some k := by
  obtain ⟨hk, rfl⟩ := List.getElem?_eq_some_iff.mp hset
  refine List.findIdx?_eq_some_iff_getElem.mpr ⟨hk, by simp, fun j hj => ?_⟩
  rw [decide_eq_true_iff]
  exact fun hname => hj.ne (setIndex_inj hu (hj.trans hk) hk hname)

/-- The keys are added to the only set of the name. -/
theorem withSet_add (hu : u.setNames.Nodup) {set : UniverseSet} (hset : u.sets[k]? = some set) :
    u.withSet k (set.add keys) =
      { u with sets := u.sets.map fun s => if s.name = set.name then s.add keys else s } := by
  obtain ⟨hk, rfl⟩ := List.getElem?_eq_some_iff.mp hset
  have hsets : u.sets.set k (u.sets[k].add keys) =
      u.sets.map fun s => if s.name = u.sets[k].name then s.add keys else s := by
    refine List.ext_getElem (by simp) fun j hj hj' => ?_
    have hj : j < u.sets.length := by simpa using hj
    rw [List.getElem_map, List.getElem_set]
    by_cases hjk : k = j
    · subst hjk
      rw [if_pos rfl, if_pos rfl]
    · rw [if_neg hjk, if_neg fun hname => hjk (setIndex_inj hu hj hk hname).symm]
  rw [Universe.withSet, hsets]

/-- **Keys are inserted exactly when the insertion is not refused.** -/
theorem parseSetInsert_pad_iff (hu : u.setNames.Nodup)
    (h : (SetStatement.insert name keys).Text u.keyDataTypeNames t) :
    parseSetInsert parserRegex (u.pad m) t = .ok (u', none) ↔
      ∃ v, (SetStatement.insert name keys).exec u = some v ∧ u' = v.pad m := by
  obtain ⟨hname, items, htext, hseen, hwhole⟩ := h
  obtain ⟨w, hins, hread⟩ := htext.reads hname hseen hwhole
  have hinserted : ∀ {k : ℕ} {set : UniverseSet}, u.sets[k]? = some set → set.name = name →
      set.keyValues.length + keys.length ≤ u.keyValues.length →
      parseSetInsert parserRegex (u.pad m) t = .ok ((u.withSet k (set.add keys)).pad m, none) := by
    rintro k set hset rfl hle
    have hk := (List.getElem?_eq_some_iff.mp hset).1
    refine parseSetInsert_eq_ok.mpr ⟨w, set.name, k, set, keys, hins, ?_, ?_, hread, hle,
      (Universe.withSet_pad hk _).symm⟩
    · rw [universeSetPosition_pad hname.1, universeSetPosition_of_name hu hset]
    · rw [Universe.getElem?_pad hk, hset]
  rw [SetStatement.exec]
  constructor
  · intro hok
    obtain ⟨w', name', k, set, rows, hins', hposition, hset, hrows, hle, -⟩ :=
      parseSetInsert_eq_ok.mp hok
    obtain ⟨rfl, rfl⟩ := Prod.mk.inj (Option.some.inj (hins.symm.trans hins'))
    rw [universeSetPosition_pad hname.1] at hposition
    obtain ⟨set', hset', hsetName⟩ := universeSetPosition_eq_some hposition
    rw [Universe.getElem?_pad (List.getElem?_eq_some_iff.mp hset').1, hset'] at hset
    obtain rfl := Option.some.inj hset
    rw [hrows.length_eq, ← hread.length_eq] at hle
    have hroom : u.HasRoom name keys := ⟨set', List.mem_of_getElem? hset', hsetName, hle⟩
    have hsame := Except.ok.inj (hok.symm.trans (hinserted hset' hsetName hle))
    refine ⟨_, if_pos hroom, ?_⟩
    rw [(Prod.mk.inj hsame).1, withSet_add hu hset', hsetName]
  · rintro ⟨v, hv, rfl⟩
    split_ifs at hv with hroom
    obtain rfl := Option.some.inj hv
    obtain ⟨set, hmem, hsetName, hle⟩ := hroom
    obtain ⟨k, hset⟩ := List.mem_iff_getElem?.mp hmem
    rw [hinserted hset hsetName hle, withSet_add hu hset, hsetName]

/-! ## The statements about sets -/

/-- A statement about sets keeps the declared columns and the rows, and names no set twice. -/
theorem SetStatement.exec_keeps (hu : u.setNames.Nodup) (h : s.exec u = some v) :
    (v.keyDataTypeNames = u.keyDataTypeNames ∧ v.name = u.name ∧ v.keyValues = u.keyValues) ∧
      v.setNames.Nodup := by
  cases s with
  | create name =>
    rw [exec] at h
    split_ifs at h with hallowed
    obtain rfl := Option.some.inj h
    refine ⟨⟨rfl, rfl, rfl⟩, ?_⟩
    have hnot : name ∉ u.setNames := fun hmem => hallowed.2 (List.mem_cons_of_mem _ hmem)
    simpa [Universe.setNames, List.nodup_append] using ⟨hu, fun a ha hname => hnot (by
      simpa [Universe.setNames] using ⟨a, ha, hname⟩)⟩
  | insert name keys =>
    rw [exec] at h
    split_ifs at h
    obtain rfl := Option.some.inj h
    refine ⟨⟨rfl, rfl, rfl⟩, ?_⟩
    have hnames : (u.sets.map fun set => if set.name = name then set.add keys else set).map
        UniverseSet.name = u.sets.map UniverseSet.name := by
      rw [List.map_map]
      refine List.map_congr_left fun set _ => ?_
      rw [Function.comp_apply]
      split_ifs <;> rfl
    rw [Universe.setNames, hnames]
    exact hu

/-- A creation adds a set. -/
theorem length_exec_create (h : (SetStatement.create name).exec u = some v) :
    v.sets.length = u.sets.length + 1 := by
  rw [SetStatement.exec] at h
  split_ifs at h
  obtain rfl := Option.some.inj h
  rw [List.length_append, List.length_singleton]

/-- An insertion adds no set. -/
theorem length_exec_insert (h : (SetStatement.insert name keys).exec u = some v) :
    v.sets.length = u.sets.length := by
  rw [SetStatement.exec] at h
  split_ifs at h
  obtain rfl := Option.some.inj h
  rw [List.length_map]

/-- **The second pass of the parser executes the statements about sets**, each exactly when it is not
refused: the unnamed sets behind the others are as many as will be created. -/
theorem setSteps_iff (h : List.Forall₂ (SetStatement.Text types) ss ts)
    (htypes : u.keyDataTypeNames = types) (hu : u.setNames.Nodup) :
    (∃ k, SetSteps (u.pad (ts.countP (isCreateSet parserRegex))) u.sets.length ts u' k) ↔
      ss.foldlM SetStatement.exec u = some u' := by
  induction h generalizing u with
  | nil =>
    rw [List.countP_nil, Universe.pad_zero, List.foldlM_nil]
    constructor
    · rintro ⟨k, h⟩
      cases h
      rfl
    · intro h
      obtain rfl := Option.some.inj h
      exact ⟨_, .nil _ _⟩
  | @cons s t ss ts ht hts ih =>
    have hcons : ∀ v, s.exec u = some v →
        ((∃ k, SetSteps (v.pad (ts.countP (isCreateSet parserRegex))) v.sets.length ts u' k) ↔
          ss.foldlM SetStatement.exec v = some u') := by
      intro v hv
      obtain ⟨⟨hcolumns, -, -⟩, hnodup⟩ := s.exec_keeps hu hv
      exact ih (hcolumns.trans htypes) hnodup
    rw [List.foldlM_cons, Option.bind_eq_bind, Option.bind_eq_some_iff]
    cases s with
    | create name =>
      have hset : isCreateSet parserRegex t = true := ht.isCreateSet.mpr ⟨name, rfl⟩
      rw [List.countP_cons_of_pos hset]
      constructor
      · rintro ⟨k, h⟩
        cases h with
        | create _ hstep hrest =>
          obtain ⟨v, hv, rfl⟩ := (parseCreateSet_pad_iff ht).mp hstep
          exact ⟨v, hv, (hcons v hv).mp ⟨k, length_exec_create hv ▸ hrest⟩⟩
        | insert hnot => exact absurd (hset.symm.trans hnot) (by decide)
      · rintro ⟨v, hv, h⟩
        obtain ⟨k, hrest⟩ := (hcons v hv).mpr h
        exact ⟨k, .create hset ((parseCreateSet_pad_iff ht).mpr ⟨v, hv, rfl⟩)
          (length_exec_create hv ▸ hrest)⟩
    | insert name keys =>
      have hnot : isCreateSet parserRegex t = false := by
        rw [Bool.eq_false_iff, Ne, ht.isCreateSet]
        rintro ⟨name', h⟩
        cases h
      rw [List.countP_cons_of_neg (by simp [hnot])]
      have hinsert : ∀ m u', parseSetInsert parserRegex (u.pad m) t = .ok (u', none) ↔
          ∃ v, (SetStatement.insert name keys).exec u = some v ∧ u' = v.pad m :=
        fun m u' => parseSetInsert_pad_iff hu (htypes ▸ ht)
      constructor
      · rintro ⟨k, h⟩
        cases h with
        | create hset => exact absurd (hset.symm.trans hnot) (by decide)
        | insert _ hstep hrest =>
          obtain ⟨v, hv, rfl⟩ := (hinsert _ _).mp hstep
          exact ⟨v, hv, (hcons v hv).mp ⟨k, length_exec_insert hv ▸ hrest⟩⟩
      · rintro ⟨v, hv, h⟩
        obtain ⟨k, hrest⟩ := (hcons v hv).mpr h
        exact ⟨k, .insert hnot ((hinsert _ _).mpr ⟨v, hv, rfl⟩) (length_exec_insert hv ▸ hrest)⟩

end Sets

/-! ## Files -/

section Files

variable {d : Description} {u u' : Universe} {t t₁ t₂ i file : Bytes} {inserts sets : List Bytes}
  {rows : List (List Bytes × List Bytes)} {insertions : List (List (List Bytes × List Bytes))}
  {p : Progress}

/-- The text is that of an insertion. -/
theorem InsertText.shape (hname : IsName u.name) (h : InsertText u rows t) :
    ∃ items, RowsText u.keyDataTypeNames u.attributeDataTypeNames rows items ∧
      InsertShape t items u.name := by
  obtain ⟨a, k, b, items, c, l, e, f, ha, hk, hb, hrows, hc, hl, he, hf, rfl⟩ := h
  exact ⟨items, hrows, a, k, b, c, l, e, f, ha, hk, hb, hrows.content, hc, hl, he, hname, hf, rfl⟩

/-- The rows of an insertion are found. -/
theorem InsertText.reads (hname : IsName u.name) (h : InsertText u rows t) :
    ∃ items, insertion t = some (items, u.name) ∧
      UniverseRowsRead u.keyDataTypeNames u.attributeDataTypeNames (countDelimiter items colon)
        items rows := by
  obtain ⟨items, hrows, hshape⟩ := h.shape hname
  refine ⟨items, insertion_eq_of_shape hshape, ?_⟩
  rw [hrows.delimits.countDelimiter]
  exact hrows.read (Or.inl rfl)

/-- The universe with the rows of insertions behind its rows. -/
def Universe.addRows (u : Universe) (rows : List (List Bytes × List Bytes)) : Universe :=
  u.withRows (u.keyValues ++ rows.map fun row => some row.1)
    (u.attributeValues ++ rows.map fun row => some row.2)

@[simp] theorem Universe.addRows_nil (u : Universe) : u.addRows [] = u := by
  simp [addRows, withRows]

theorem Universe.addRows_append (u : Universe) (rows rows' : List (List Bytes × List Bytes)) :
    u.addRows (rows ++ rows') = (u.addRows rows).addRows rows' := by
  simp [addRows, withRows]

/-- **Insertions into the universe append all their rows.** -/
theorem inserts_iff (h : List.Forall₂ (InsertText u) insertions inserts) (hu : u.Declared)
    (hname : IsName u.name) (hlen : u.keyValues.length = u.attributeValues.length) :
    Inserts u inserts u' ↔ u' = u.addRows insertions.flatten := by
  induction inserts generalizing u insertions with
  | nil =>
    cases h
    rw [List.flatten_nil, Universe.addRows_nil]
    constructor
    · intro h
      cases h
      rfl
    · rintro rfl
      exact .nil _
  | cons t ts ih =>
    cases h with
    | @cons rows _ insertions _ ht hts =>
    obtain ⟨items, hins, hread⟩ := ht.reads hname
    have hstep : parseUniverseInsert parserRegex u t = .ok (u.addRows rows, none) :=
      (parseUniverseInsert_eq_ok hu).mpr ⟨items, hins, hlen, rows, hread, rfl⟩
    have hrest := ih (u := u.addRows rows) hts (hu.withRows _ _) hname
      (by simp [Universe.addRows, Universe.withRows, hlen])
    rw [List.flatten_cons, Universe.addRows_append, ← hrest]
    constructor
    · intro h
      cases h with
      | cons hfirst h =>
        obtain rfl := (Prod.mk.inj (Except.ok.inj (hfirst.symm.trans hstep))).1
        exact h
    · exact .cons hstep

/-- The declared universe, before any row. -/
def Description.declared (d : Description) : Universe :=
  { d.base with keyValues := [], attributeValues := [] }

theorem Description.declared_addRows (d : Description) :
    d.declared.addRows d.insertions.flatten = d.base := rfl

/-- The name of a declared universe is a name. -/
theorem Description.Texts.isName (h : d.Texts t₁ t₂ inserts sets) : IsName d.name := by
  obtain ⟨columns, -, a, k, b, l, c, e, f, g, -, -, -, -, -, hname, -⟩ := h.keys
  exact hname

/-- **The two declarations give the declared universe**, if its name is not too long. -/
theorem Description.Texts.definitions_iff (h : d.Texts t₁ t₂ inserts sets) :
    (∃ u₁, parseUniverseDefinition parserRegex createEmptyUniverse t₁ = .ok (u₁, none) ∧
      parseAttributesDefinition parserRegex u₁ t₂ = .ok (u', none)) ↔
      d.name.length < 256 ∧ u' = d.declared := by
  obtain ⟨keys, hkeys, hdefinition⟩ := h.keys
  obtain ⟨attributes, hattributes, hdefinition'⟩ := h.attributes
  replace hdefinition := definition_eq_of_shape upper_universe (by decide) hdefinition
  replace hdefinition' := definition_eq_of_shape upper_attributes (by decide) hdefinition'
  replace hkeys := parseValueType_eq hkeys
  replace hattributes := parseValueType_eq hattributes
  constructor
  · rintro ⟨u₁, hfirst, hsecond⟩
    obtain ⟨name, columns, types, names, hd, hlen, hcolumns, rfl⟩ :=
      parseUniverseDefinition_eq_ok.mp hfirst
    obtain ⟨columns', types', names', hd', hcolumns', rfl⟩ :=
      parseAttributesDefinition_eq_ok.mp hsecond
    obtain ⟨rfl, rfl⟩ := Prod.mk.inj (Option.some.inj (hdefinition.symm.trans hd))
    obtain ⟨-, rfl⟩ := Prod.mk.inj (Option.some.inj (hdefinition'.symm.trans hd'))
    simp only [hkeys, hattributes, Except.ok.injEq, Prod.mk.injEq, and_true] at hcolumns hcolumns'
    obtain ⟨rfl, rfl⟩ := hcolumns
    obtain ⟨rfl, rfl⟩ := hcolumns'
    exact ⟨hlen, rfl⟩
  · rintro ⟨hlen, rfl⟩
    exact ⟨_, parseUniverseDefinition_eq_ok.mpr ⟨_, _, _, _, hdefinition, hlen, hkeys, rfl⟩,
      parseAttributesDefinition_eq_ok.mpr ⟨_, _, _, hdefinition', hattributes, rfl⟩⟩

/-- What holds of every related element holds of all of them. -/
theorem forall_mem_of_forall₂ {α β : Type*} {R : α → β → Prop} {q : β → Prop} {l : List α}
    {l' : List β} (h : List.Forall₂ R l l') (hq : ∀ a b, R a b → q b) : ∀ b ∈ l', q b := by
  induction h with
  | nil => simp
  | cons hab _ ih => exact List.forall_mem_cons.mpr ⟨hq _ _ hab, ih⟩

/-- The texts are not empty. -/
theorem Description.Texts.forall_ne_nil (h : d.Texts t₁ t₂ inserts sets) :
    ∀ t ∈ t₁ :: t₂ :: (inserts ++ sets), t ≠ [] := by
  obtain ⟨keys, -, hkeys⟩ := h.keys
  obtain ⟨attributes, -, hattributes⟩ := h.attributes
  have hdefinition := definition_eq_of_shape upper_universe (by decide) hkeys
  have hdefinition' := definition_eq_of_shape upper_attributes (by decide) hattributes
  simp only [List.forall_mem_cons, List.forall_mem_append]
  refine ⟨List.ne_nil_of_mem (openParen_mem_of_definition upper_universe hdefinition),
    List.ne_nil_of_mem (openParen_mem_of_definition upper_attributes hdefinition'),
    forall_mem_of_forall₂ h.inserts ?_, forall_mem_of_forall₂ h.sets ?_⟩
  · intro rows t hrows
    obtain ⟨items, hins, -⟩ := hrows.reads h.isName
    exact ne_nil_of_insertion hins
  · intro s t hs
    cases s with
    | create name => exact ne_nil_of_createdSet (createdSet_of_shape hs)
    | insert name keys =>
      obtain ⟨hname, items, htext, hseen, hwhole⟩ := hs
      obtain ⟨w, hins, -⟩ := htext.reads hname hseen hwhole
      exact ne_nil_of_insertion hins

theorem Keyword.not_mem {word w : Bytes} (h : Keyword word w) (hw : ∀ b ∈ word, 65 ≤ b ∧ b ≤ 90)
    {x : UInt8} (hx : IsPunctuation x) : x ∉ w :=
  fun hm => not_isNameByte_of_isPunctuation hx (h.letters (letters_of_upper hw) _ hm).isNameByte

/-- A declaration has no semicolon. -/
theorem DeclarationShape.semicolon_not_mem {word name : Bytes} {pairs : List (Bytes × Bytes)}
    (h : DeclarationShape word t name pairs) (hw : ∀ b ∈ word, 65 ≤ b ∧ b ≤ 90) :
    semicolon ∉ t := by
  have hx := isPunctuation_semicolon
  have htail : ∀ {ps : List (Bytes × Bytes)} {v : Bytes}, ValueTypeTail ps v → semicolon ∉ v := by
    intro ps v hv
    induction hv with
    | nil => exact List.not_mem_nil
    | cons ha hn hb ht hc _ ih =>
      simp [ha.not_mem hx, hn.not_mem hx, hb.2.not_mem hx, ht.not_mem hx, hc.not_mem hx, ih,
        show semicolon ≠ comma by decide]
  obtain ⟨columns, ⟨n, b', t', c', ps, v, -, hn, hb', ht', hc', hv, rfl⟩,
    a, k, b, l, c, d, e, f, ha, hk, hb, hl, hc, hname, hd, he, -, hf, rfl⟩ := h
  simp [ha.not_mem hx, hk.not_mem upper_create hx, hb.2.not_mem hx, hl.not_mem hw hx,
    hc.2.not_mem hx, hname.not_mem hx, hd.not_mem hx, he.not_mem hx, hf.not_mem hx, hn.not_mem hx,
    hb'.2.not_mem hx, ht'.not_mem hx, hc'.not_mem hx, htail hv,
    show semicolon ≠ openParen by decide, show semicolon ≠ closeParen by decide]

/-- An insertion has no semicolon. -/
theorem InsertShape.semicolon_not_mem {items name : Bytes} (h : InsertShape t items name) :
    semicolon ∉ t := by
  have hx := isPunctuation_semicolon
  obtain ⟨a, k, b, c, l, d, e, ha, hk, hb, hitems, hc, hl, hd, hname, he, rfl⟩ := h
  simp [ha.not_mem hx, hk.not_mem upper_insert hx, hb.not_mem hx, hitems.2, hc.not_mem hx,
    hl.not_mem upper_into hx, hd.2.not_mem hx, hname.not_mem hx, he.not_mem hx,
    show semicolon ≠ openBrace by decide, show semicolon ≠ closeBrace by decide]

theorem CreateSetShape.semicolon_not_mem {name : Bytes} (h : CreateSetShape t name) :
    semicolon ∉ t := by
  have hx := isPunctuation_semicolon
  obtain ⟨a, k, b, l, c, d, ha, hk, hb, hl, hc, hname, hd, rfl⟩ := h
  simp [ha.not_mem hx, hk.not_mem upper_create hx, hb.2.not_mem hx, hl.not_mem upper_set hx,
    hc.2.not_mem hx, hname.not_mem hx, hd.not_mem hx]

/-- The texts have no semicolons. -/
theorem Description.Texts.semicolon_not_mem (h : d.Texts t₁ t₂ inserts sets) :
    ∀ t ∈ t₁ :: t₂ :: (inserts ++ sets), semicolon ∉ t := by
  simp only [List.forall_mem_cons, List.forall_mem_append]
  refine ⟨h.keys.semicolon_not_mem upper_universe, h.attributes.semicolon_not_mem upper_attributes,
    forall_mem_of_forall₂ h.inserts ?_, forall_mem_of_forall₂ h.sets ?_⟩
  · intro rows t hrows
    obtain ⟨items, -, hshape⟩ := hrows.shape h.isName
    exact hshape.semicolon_not_mem
  · intro s t hs
    cases s with
    | create name => exact CreateSetShape.semicolon_not_mem hs
    | insert name keys =>
      obtain ⟨hname, items, htext, -⟩ := hs
      obtain ⟨w, -, hshape⟩ := htext.shape hname
      exact hshape.semicolon_not_mem

/-- The first of the statements about sets creates one. -/
theorem Description.Texts.isCreateSet_of_head (h : d.Texts t₁ t₂ inserts sets) :
    ∀ t ∈ sets.head?, isCreateSet parserRegex t = true := by
  intro t ht
  have hsets := h.sets
  have hstarts := h.starts
  generalize d.sets = ss at hsets hstarts
  cases hsets with
  | nil => cases ht
  | cons hs _ =>
    obtain rfl := Option.some.inj ht
    exact hs.isCreateSet.mpr (hstarts _ rfl)

/-- No insertion into the universe creates a set. -/
theorem Description.Texts.isCreateSet_of_insert (h : d.Texts t₁ t₂ inserts sets) :
    ∀ t ∈ inserts, isCreateSet parserRegex t = false := by
  refine forall_mem_of_forall₂ h.inserts fun rows t hrows => ?_
  obtain ⟨items, hins, -⟩ := hrows.reads h.isName
  exact isCreateSet_of_insertion hins

/-- In an execution the first creation of a set ends the insertions. -/
theorem Executes.isCreateSet_eq (h : Executes u t₁ t₂ i inserts sets u') :
    (∀ t ∈ inserts, isCreateSet parserRegex t = false) ∧
      ∀ t ∈ sets.head?, isCreateSet parserRegex t = true := by
  obtain ⟨⟨u₁, u₂, u₃, u₄, k, -, -, -, hinserts, -⟩, hstarts⟩ := h
  exact ⟨hinserts.isCreateSet_eq_false, hstarts⟩

/-- **The two passes give the meaning of the texts.** -/
theorem executes_iff (h : d.Texts t₁ t₂ (i :: inserts) sets) :
    Executes createEmptyUniverse t₁ t₂ i inserts sets u ↔ d.meaning = some u := by
  have hinserts : ∀ {u'}, Inserts d.declared (i :: inserts) u' ↔ u' = d.base := by
    intro u'
    rw [inserts_iff (u := d.declared) h.inserts ⟨by simp [Description.declared, Description.base], by simp [Description.declared, Description.base]⟩
      h.isName rfl, d.declared_addRows]
  have hsets : (∃ k, SetSteps (d.base.pad (sets.countP (isCreateSet parserRegex))) d.base.sets.length
      sets u k) ↔ d.sets.foldlM SetStatement.exec d.base = some u :=
    setSteps_iff h.sets rfl List.nodup_nil
  rw [Description.meaning]
  constructor
  · rintro ⟨⟨u₁, u₂, u₃, u₄, k, hd, ha, hi, hrest, hsteps⟩, -⟩
    obtain ⟨hlen, rfl⟩ := h.definitions_iff.mp ⟨u₁, hd, ha⟩
    obtain rfl := hinserts.mp (.cons hi hrest)
    rw [if_pos hlen, ← hsets]
    exact ⟨k, hsteps⟩
  · intro hmeaning
    split_ifs at hmeaning with hlen
    obtain ⟨u₁, hd, ha⟩ := h.definitions_iff.mpr ⟨hlen, rfl⟩
    obtain ⟨k, hsteps⟩ := hsets.mpr hmeaning
    cases hinserts.mpr rfl with
    | cons hi hrest => exact ⟨⟨u₁, _, _, _, k, hd, ha, hi, hrest, hsteps⟩, h.isCreateSet_of_head⟩

/-- The statements of a file are its texts. -/
theorem FileOf.statements_eq {ts : List Bytes} (h : FileOf ts file)
    (hts : ∀ t ∈ ts, t ≠ [] ∧ semicolon ∉ t) : statements file = ts := by
  induction h with
  | nil => rfl
  | last =>
    obtain ⟨hne, hnot⟩ := hts _ (List.mem_singleton_self _)
    exact statements_of_not_mem hnot hne
  | cons h ih =>
    obtain ⟨⟨-, hnot⟩, hts⟩ := List.forall_mem_cons.mp hts
    rw [statements_append_semicolon hnot, ih hts]

/-- A file of the texts has them as its statements. -/
theorem Description.Texts.statements_eq (h : d.Texts t₁ t₂ inserts sets)
    (hfile : FileOf (t₁ :: t₂ :: (inserts ++ sets)) file) :
    statements file = t₁ :: t₂ :: (inserts ++ sets) :=
  hfile.statements_eq fun t ht => ⟨h.forall_ne_nil t ht, h.semicolon_not_mem t ht⟩

/-- A file of the texts is accepted exactly when they are executed. -/
theorem Description.Texts.parse_eq_ok (h : d.Texts t₁ t₂ inserts sets)
    (hfile : statements file = t₁ :: t₂ :: (inserts ++ sets)) (hnul : NulFree file)
    (hsized : ∀ s ∈ statements file, s.length < bufferSize) :
    parseInitialization createEmptyUniverse file = .ok (p, none) ↔
      d.meaning = some p.u ∧ p.executed = statements file := by
  have hne : ∀ s ∈ statements file, s ≠ [] := hfile ▸ h.forall_ne_nil
  cases inserts with
  | nil => exact absurd (List.forall₂_nil_right_iff.mp h.inserts) h.ne_nil
  | cons i inserts =>
  have hregular : Regular (statements file) :=
    ⟨by simp [hfile], fun s hs => hne s (List.mem_of_mem_take hs)⟩
  have hreadable : ∀ s ∈ readable (statements file), s.length < bufferSize :=
    fun s hs => hsized s (List.takeWhile_subset _ hs)
  have htexts : padded (texts (statements file)) = statements file := by
    have hcstr : (statements file).map cstr = statements file :=
      (List.map_congr_left fun s hs => cstr_of_nulFree (nulFree_iff.mp hnul s hs)).trans
        (List.map_id _)
    rw [texts_eq_map hne, hcstr, padded_of_three (by simp [hfile])]
  rw [SetQL.parse_eq_ok rfl, htexts, ← executes_iff h]
  constructor
  · rintro ⟨-, t₁', t₂', i', inserts', sets', hsplit, hexecutes, hexecuted⟩
    obtain ⟨rfl, rfl, rfl, hcut⟩ : t₁ = t₁' ∧ t₂ = t₂' ∧ i = i' ∧
        inserts ++ sets = inserts' ++ sets' := by
      simpa using hfile.symm.trans hsplit
    -- the first creation of a set ends the insertions
    obtain ⟨hinserts', hstarts'⟩ := hexecutes.isCreateSet_eq
    obtain ⟨rfl, rfl⟩ := append_inj_of_all (p := (isCreateSet parserRegex · = false))
      (List.forall_mem_cons.mp h.isCreateSet_of_insert).2 hinserts'
      (by simpa using h.isCreateSet_of_head) (by simpa using hstarts') hcut
    exact ⟨hexecutes, hexecuted⟩
  · rintro ⟨hexecutes, hexecuted⟩
    exact ⟨⟨hregular, hreadable⟩, t₁, t₂, i, inserts, sets, hfile, hexecutes, hexecuted⟩

/-- **The parser gives the meaning of a file**: the file is accepted exactly when no statement is
refused. -/
theorem parseInitialization_iff (h : d.Texts t₁ t₂ inserts sets)
    (hfile : FileOf (t₁ :: t₂ :: (inserts ++ sets)) file) (hnul : NulFree file)
    (hsized : ∀ t ∈ t₁ :: t₂ :: (inserts ++ sets), t.length < bufferSize) :
    parseInitialization createEmptyUniverse file = .ok (p, none) ↔
      d.meaning = some p.u ∧ p.executed = t₁ :: t₂ :: (inserts ++ sets) := by
  have hstatements := h.statements_eq hfile
  rw [h.parse_eq_ok hstatements hnul (hstatements ▸ hsized), hstatements]

/-- A description of one row and one set. -/
def animalDescription : Description where
  name := lit "Animal"
  keys := [(lit "name", lit "STRING")]
  attributes := [(lit "legs", lit "INTEGER")]
  insertions := [[([lit "Crow"], [lit "2"])]]
  sets := [.create (lit "Bird"), .insert (lit "Bird") [[lit "Crow"]]]

/-- The texts of `animalFile`. -/
def animalTexts : List Bytes :=
  [lit "CREATE UNIVERSE Animal(name STRING)", lit "CREATE ATTRIBUTES Animal(legs INTEGER)",
    lit "INSERT \x7b\"Crow\" : 2\x7d INTO Animal", lit "CREATE SET Bird",
    lit "INSERT \x7b\"Crow\"\x7d INTO Bird"]

theorem animalFile_fileOf : FileOf animalTexts animalFile := by
  have hfile : animalFile = animalTexts[0] ++ semicolon :: (animalTexts[1] ++ semicolon ::
      (animalTexts[2] ++ semicolon :: (animalTexts[3] ++ semicolon :: animalTexts[4]))) := by
    decide +kernel
  rw [hfile]
  exact .cons (.cons (.cons (.cons .last)))

theorem animalDescription_texts : animalDescription.Texts animalTexts[0] animalTexts[1]
    [animalTexts[2]] [animalTexts[3], animalTexts[4]] := by
  have hspaces : lit " " ≠ [] ∧ Spaces (lit " ") := by
    unfold Spaces
    decide +kernel
  have hname : ∀ w ∈ [lit "Animal", lit "Bird", lit "name", lit "legs", lit "STRING", lit "INTEGER"],
      IsName w := by
    unfold IsName IsNameByte IsLetter
    decide +kernel
  have hkeyword : ∀ w ∈ [lit "CREATE", lit "UNIVERSE", lit "ATTRIBUTES", lit "SET", lit "INSERT",
      lit "INTO"], Keyword w w := by
    unfold Keyword
    decide
  simp only [List.forall_mem_cons, List.not_mem_nil, IsEmpty.forall_iff, implies_true, and_true]
    at hname hkeyword
  obtain ⟨hanimal, hbird, hkey, hlegs, hstring, hinteger⟩ := hname
  obtain ⟨hcreate, huniverse, hattributes, hset, hinsert, hinto⟩ := hkeyword
  have hcolumns : ∀ {n t : Bytes}, IsName n → IsName t → ValueTypeList [(n, t)] (n ++ (lit " " ++ t)) :=
    fun hn ht => ⟨_, lit " ", _, [], [], [], rfl, hn, hspaces, ht, spaces_nil, .nil, by simp⟩
  have hcrow : lit "Crow" ≠ [] ∧ quote ∉ lit "Crow" ∧ backslash ∉ lit "Crow" ∧
      semicolon ∉ lit "Crow" := by decide
  refine ⟨?_, ?_, List.cons_ne_nil _ _, .cons ?_ .nil, .cons ?_ (.cons ?_ .nil), ?_⟩
  · exact ⟨_, hcolumns hkey hstring, [], _, lit " ", _, lit " ", [], [], [], spaces_nil, hcreate,
      hspaces, huniverse, hspaces, hanimal, spaces_nil, spaces_nil,
      columnsText_iff.mpr ⟨_, hcolumns hkey hstring⟩, spaces_nil, by decide⟩
  · exact ⟨_, hcolumns hlegs hinteger, [], _, lit " ", _, lit " ", [], [], [], spaces_nil, hcreate,
      hspaces, hattributes, hspaces, hanimal, spaces_nil, spaces_nil,
      columnsText_iff.mpr ⟨_, hcolumns hlegs hinteger⟩, spaces_nil, by decide⟩
  · have hlegs : ItemText [lit "INTEGER"] [lit "2"] (lit "2") :=
      .bare (Or.inr ⟨by decide, ⟨_, ⟨by decide, by decide +kernel⟩, Or.inl rfl⟩, rfl⟩)
    have hrow : RowText [lit "STRING"] [lit "INTEGER"] ([lit "Crow"], [lit "2"])
        (lit "\"Crow\" : 2") :=
      ⟨[], _, lit " ", lit " ", _, [], spaces_nil, .bare (Or.inl ⟨by decide, hcrow, rfl⟩),
        hspaces.2, hspaces.2, hlegs, spaces_nil, by decide⟩
    exact ⟨[], _, lit " ", _, lit " ", _, lit " ", [], spaces_nil, hinsert, hspaces.2, .single hrow,
      hspaces.2, hinto, hspaces, spaces_nil, by decide⟩
  · exact ⟨[], _, lit " ", _, lit " ", [], spaces_nil, hcreate, hspaces, hset, hspaces, hbird,
      spaces_nil, by decide⟩
  · have hcrow : KeyText [lit "STRING"] [lit "Crow"] (lit "\"Crow\"") :=
      ⟨_, .cons (Or.inl ⟨by decide, hcrow, rfl⟩) .nil, .bare⟩
    refine ⟨hbird, [lit "\"Crow\""], ⟨[], _, lit " ", _, lit " ", _, lit " ", [], spaces_nil, hinsert,
      hspaces.2, .single spaces_nil hcrow spaces_nil, hspaces.2, hinto, hspaces, spaces_nil,
      by decide⟩, ?_, ?_⟩
    · unfold CommasSeen
      decide
    · unfold WholeNumbers
      decide
  · rintro s hs
    obtain rfl := Option.some.inj hs
    exact ⟨_, rfl⟩

theorem nulFree_animalFile : NulFree animalFile := by decide +kernel

/-- A file is accepted as its description. -/
theorem parseInitialization_iff_animal : parseInitialization createEmptyUniverse animalFile =
    .ok (⟨animalSetUniverse, animalTexts⟩, none) := by
  have hmeaning : animalDescription.meaning = some animalSetUniverse := by decide
  have hsized : ∀ t ∈ animalTexts, t.length < 64 := by decide
  exact (parseInitialization_iff animalDescription_texts animalFile_fileOf nulFree_animalFile
    fun t ht => (hsized t ht).trans (by decide)).mpr ⟨hmeaning, rfl⟩

end Files

end SetQL
