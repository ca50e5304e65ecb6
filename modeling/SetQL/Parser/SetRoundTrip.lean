import SetQL.Parser.Parentheses
import SetQL.Parser.RoundTrip

/-!
# Insertions of keys into sets

The texts that insert keys into a set: items of the key types with commas between them. The parser
counts the commas outside of parentheses and reads as many keys, so it appends exactly the keys
written if it sees the commas between the keys and not those within. Parentheses within strings
decide what it sees. A number of type `FLOAT` is read up to its fraction.

## Main definitions

* `WrittenKey typeName v t`: the text `t` is the value `v` of a type, numbers with fractions included
* `KeysText types keys items w`: the text is keys, written as items, with commas between them
* `SetInsertText types name keys items str`: the text inserts the keys into the set of a name
* `CommasSeen keys items`: parentheses within strings hide no comma and show none
* `WholeNumbers types keys`: no `FLOAT` value is written with a fraction

## Main results

* `KeysText.count_eq_iff`: when as many keys are counted as are written
* `KeysText.read_iff`: when the keys are read as they are written
* `parseSetInsert_keys_iff`: when an insertion into a set appends the keys written
-/

namespace SetQL

/-- The text is a number with the end `x`: its value, or its value behind a plus sign. -/
def NumberText (x v t : Bytes) : Prop :=
  ∃ d, IsDigits d ∧ ((v = chr '-' :: (d ++ x) ∧ t = v) ∨ (v = d ++ x ∧ (t = v ∨ t = chr '+' :: v)))

/-- A fraction. -/
def IsFraction (x : Bytes) : Prop := ∃ f, IsDigits f ∧ x = chr '.' :: f

/-- The text is the value: of a string type without quotation marks, backslashes and semicolons, in
quotes; of an integer type digits with a sign or none; of a float type the same, perhaps with a
fraction. -/
def WrittenKey (typeName v t : Bytes) : Prop :=
  (typeName2dataType typeName = some .string ∧
    (v ≠ [] ∧ quote ∉ v ∧ backslash ∉ v ∧ semicolon ∉ v) ∧ t = quote :: (v ++ [quote])) ∨
  (typeName2dataType typeName = some .integer ∧ NumberText [] v t) ∨
  (typeName2dataType typeName = some .float ∧ ∃ x, (x = [] ∨ IsFraction x) ∧ NumberText x v t)

/-- The text of a key: an item of its values. -/
def KeyText (types key : List Bytes) (k : Bytes) : Prop :=
  ∃ texts, Written WrittenKey types key texts ∧ ItemOf texts k

/-- The text of keys, as items, with commas between them. -/
inductive KeysText (types : List Bytes) : List (List Bytes) → List Bytes → Bytes → Prop
  | single {key k a b} (ha : Spaces a) (hk : KeyText types key k) (hb : Spaces b) :
    KeysText types [key] [k] (a ++ (k ++ b))
  | cons {key k a b keys items w} (ha : Spaces a) (hk : KeyText types key k) (hb : Spaces b)
    (h : KeysText types keys items w) :
    KeysText types (key :: keys) (k :: items) (a ++ (k ++ (b ++ comma :: w)))

/-- The text `INSERT { keys } INTO name` for keys and the name of a set. -/
def SetInsertText (types : List Bytes) (name : Bytes) (keys : List (List Bytes)) (items : List Bytes)
    (str : Bytes) : Prop :=
  ∃ a k b w c l d e, Spaces a ∧ Keyword (lit "INSERT") k ∧ Spaces b ∧ KeysText types keys items w ∧
    Spaces c ∧ Keyword (lit "INTO") l ∧ (d ≠ [] ∧ Spaces d) ∧ Spaces e ∧
    str = a ++ (k ++ (b ++ openBrace :: (w ++ closeBrace :: (c ++ (l ++ (d ++ (name ++ e)))))))

/-- In front of a comma within a key no value has a closing parenthesis as its last one, and in front
of a comma between keys no item has an opening one. -/
def CommasSeen (keys : List (List Bytes)) (items : List Bytes) : Prop :=
  (∀ key ∈ keys, ∀ v ∈ key.dropLast, lastParenthesis v ≠ some closeParen) ∧
    ∀ k ∈ items.dropLast, lastParenthesis k ≠ some openParen

/-- No value of a float type has a fraction. -/
def WholeNumbers (types : List Bytes) (keys : List (List Bytes)) : Prop :=
  ∀ key ∈ keys, ∀ p ∈ types.zip key, typeName2dataType p.1 = some .float → chr '.' ∉ p.2

/-! ## Values -/

section Values

variable {typeName x v t w k : Bytes} {types key texts : List Bytes} {q : Bool}

/-- A byte of a number. -/
def IsNumberByte (b : UInt8) : Prop := IsDigit b ∨ b = chr '-' ∨ b = chr '+' ∨ b = chr '.'

theorem IsNumberByte.ne {b : UInt8} : IsNumberByte b → IsBareByte b ∧ b ≠ quote ∧ b ≠ backslash ∧
    b ≠ comma ∧ b ≠ semicolon ∧ b ≠ openParen ∧ b ≠ closeParen := by
  rintro (h | rfl | rfl | rfl)
  · refine ⟨isBareByte_of_digit h, ?_⟩
    refine ⟨?_, ?_, ?_, ?_, ?_, ?_⟩ <;> rintro rfl <;> exact absurd h (by decide)
  · decide
  · decide
  · decide

/-- The bytes of a number. -/
theorem NumberText.bytes (h : NumberText x v t) (hx : x = [] ∨ IsFraction x) :
    t ≠ [] ∧ (∀ b ∈ t, IsNumberByte b) ∧ ∀ b ∈ v, IsNumberByte b := by
  have hend : ∀ b ∈ x, IsNumberByte b := by
    rcases hx with rfl | ⟨f, hf, rfl⟩
    · exact nofun
    · exact List.forall_mem_cons.mpr ⟨Or.inr (Or.inr (Or.inr rfl)), fun b hb => Or.inl (hf.2 b hb)⟩
  obtain ⟨d, hd, h⟩ := h
  have hdigits : ∀ b ∈ d ++ x, IsNumberByte b :=
    List.forall_mem_append.mpr ⟨fun b hb => Or.inl (hd.2 b hb), hend⟩
  have hne : d ++ x ≠ [] := fun h => hd.1 (List.append_eq_nil_iff.mp h).1
  rcases h with ⟨rfl, rfl⟩ | ⟨rfl, rfl | rfl⟩
  · have hminus := List.forall_mem_cons.mpr ⟨show IsNumberByte (chr '-') from Or.inr (Or.inl rfl), hdigits⟩
    exact ⟨List.cons_ne_nil _ _, hminus, hminus⟩
  · exact ⟨hne, hdigits, hdigits⟩
  · exact ⟨List.cons_ne_nil _ _, List.forall_mem_cons.mpr ⟨Or.inr (Or.inr (Or.inl rfl)), hdigits⟩,
      hdigits⟩

/-- The text of a value is quoted, or a number. -/
theorem WrittenKey.cases (h : WrittenKey typeName v t) :
    ((v ≠ [] ∧ quote ∉ v ∧ backslash ∉ v ∧ semicolon ∉ v) ∧ t = quote :: (v ++ [quote])) ∨
      t ≠ [] ∧ (∀ b ∈ t, IsNumberByte b) ∧ ∀ b ∈ v, IsNumberByte b := by
  rcases h with ⟨-, h⟩ | ⟨-, h⟩ | ⟨-, x, hx, h⟩
  · exact Or.inl h
  · exact Or.inr (h.bytes (Or.inl rfl))
  · exact Or.inr (h.bytes hx)

theorem WrittenKey.anyText (h : WrittenKey typeName v t) : AnyText t := by
  rcases h.cases with ⟨⟨hne, hq, hb, -⟩, rfl⟩ | ⟨hne, ht, -⟩
  · exact .quoted hne (bodyText_of_not_mem hq hb)
  · exact .bare hne fun b hb => (ht b hb).ne.1

theorem WrittenKey.delimits (h : WrittenKey typeName v t) : Delimits comma t 0 := by
  rcases h.cases with ⟨⟨-, hq, hb, -⟩, rfl⟩ | ⟨-, ht, -⟩
  · exact delimits_quoted hq hb
  · apply delimits_of_forall
    intro b hb
    obtain ⟨-, hquote, hbackslash, hcomma, -⟩ := (ht b hb).ne
    exact ⟨hquote, hbackslash, hcomma⟩

theorem WrittenKey.scans (h : WrittenKey typeName v t) (q : Bool) : Scans q t 0 := by
  rcases h.cases with ⟨⟨-, hq, hb, -⟩, rfl⟩ | ⟨-, ht, -⟩
  · exact scans_quoted hq hb
  · apply scans_of_forall
    intro b hb
    obtain ⟨-, hquote, hbackslash, hcomma, -⟩ := (ht b hb).ne
    exact ⟨hquote, hbackslash, hcomma⟩

theorem WrittenKey.semicolon_not_mem (h : WrittenKey typeName v t) : semicolon ∉ t := by
  rcases h.cases with ⟨⟨-, -, -, hsemicolon⟩, rfl⟩ | ⟨-, ht, -⟩
  · simpa [show semicolon ≠ quote by decide] using hsemicolon
  · exact fun hmem => (ht _ hmem).ne.2.2.2.2.1 rfl

/-- A text has the parentheses of its value. -/
theorem WrittenKey.openBehind (h : WrittenKey typeName v t) :
    SetQL.openBehind q t = SetQL.openBehind q v := by
  have hquote : ∀ q, SetQL.openBehind q [quote] = q := fun _ => rfl
  rcases h.cases with ⟨-, rfl⟩ | ⟨-, ht, hv⟩
  · rw [← List.singleton_append, openBehind_append, openBehind_append, hquote, hquote]
  · rw [openBehind_of_forall fun b hb => (ht b hb).ne.2.2.2.2.2,
      openBehind_of_forall fun b hb => (hv b hb).ne.2.2.2.2.2]

/-- The integer at the start of a number. -/
theorem NumberText.integerIn (h : NumberText x v t) (hx : x = [] ∨ IsFraction x) :
    integerIn t = some v ↔ chr '.' ∉ v := by
  have hhead : ∀ b ∈ x.head?, ¬IsDigit b := by
    rcases hx with rfl | ⟨f, -, rfl⟩
    · exact nofun
    · rintro b ⟨⟩
      decide
  have hminus : chr '-' ∉ x := by
    rcases hx with rfl | ⟨f, hf, rfl⟩
    · exact List.not_mem_nil
    · intro hmem
      rcases List.mem_cons.mp hmem with hmem | hmem
      · exact absurd hmem (by decide)
      · exact absurd (hf.2 _ hmem) (by decide)
  obtain ⟨d, hd, h⟩ := h
  have hpoint : chr '.' ∉ d := fun hmem => absurd (hd.2 _ hmem) (by decide)
  have hend : d = d ++ x ↔ chr '.' ∉ d ++ x := by
    rcases hx with rfl | ⟨f, -, rfl⟩
    · simpa using hpoint
    · simp
  rcases h with ⟨rfl, rfl⟩ | ⟨rfl, rfl | rfl⟩
  · rw [integerIn_minus hd hhead, Option.some_inj, List.cons_inj_right, hend]
    simp [show chr '.' ≠ chr '-' by decide]
  · have := integerIn_plus (o := []) (Or.inl rfl) hd hhead hminus
    rw [List.nil_append] at this
    rw [this, Option.some_inj, hend]
  · have := integerIn_plus (o := [chr '+']) (Or.inr rfl) hd hhead hminus
    rw [List.singleton_append] at this
    rw [this, Option.some_inj, hend]

/-- A number without an end is read as a whole. -/
theorem integerIn_of_numberText (h : NumberText [] v t) : integerIn t = some v := by
  apply (h.integerIn (Or.inl rfl)).mpr
  obtain ⟨d, hd, h⟩ := h
  have hpoint : chr '.' ∉ d := fun hmem => absurd (hd.2 _ hmem) (by decide)
  rcases h with ⟨rfl, -⟩ | ⟨rfl, -⟩
  · simpa [show chr '.' ≠ chr '-' by decide] using hpoint
  · simpa using hpoint

/-- **A text is parsed as its value** exactly if the value has no fraction. -/
theorem WrittenKey.valueOf_iff (h : WrittenKey typeName v t) : ∃ ty,
    typeName2dataType typeName = some ty ∧
      (valueOf t ty = some v ↔ (typeName2dataType typeName = some .float → chr '.' ∉ v)) := by
  rcases h with ⟨hty, ⟨hne, hq, hb, -⟩, rfl⟩ | ⟨hty, h⟩ | ⟨hty, x, hx, h⟩
  · refine ⟨.string, hty, iff_of_true (found_str1 hne hq hb) ?_⟩
    rw [hty]
    exact nofun
  · refine ⟨.integer, hty, iff_of_true (integerIn_of_numberText h) ?_⟩
    rw [hty]
    exact nofun
  · refine ⟨.float, hty, (h.integerIn hx).trans ?_⟩
    rw [hty]
    exact ⟨fun h _ => h, fun h => h rfl⟩

/-- The texts of a key are parsed as the key exactly if no value has a fraction. -/
theorem parsesAs_iff_whole (h : Written WrittenKey types key texts) : ParsesAs texts types key ↔
    ∀ p ∈ types.zip key, typeName2dataType p.1 = some .float → chr '.' ∉ p.2 := by
  induction h with
  | nil => exact iff_of_true (.nil []) nofun
  | cons ht _ ih =>
    obtain ⟨ty, hty, hv⟩ := ht.valueOf_iff
    rw [List.zip_cons_cons, List.forall_mem_cons, ← ih, ← hv]
    constructor
    · intro h
      cases h with
      | cons hty' hv' hrest =>
        obtain rfl := Option.some.inj (hty.symm.trans hty')
        exact ⟨hv', hrest⟩
    · rintro ⟨hv, hrest⟩
      exact .cons hty hv hrest

end Values

/-! ## Keys -/

section Keys

variable {types key : List Bytes} {keys : List (List Bytes)} {items : List Bytes} {k w o x : Bytes}
  {n : ℕ} {q : Bool}

theorem KeyText.item (h : KeyText types key k) : AnyText k ∨ TupleText k := by
  obtain ⟨texts, hkey, hitem⟩ := h
  exact hitem.text (hkey.forall_texts fun _ _ _ ht => ht.anyText)

theorem KeyText.semicolon_not_mem (h : KeyText types key k) : semicolon ∉ k := by
  obtain ⟨texts, hkey, hitem⟩ := h
  exact hitem.not_mem (by decide) (by decide) (hkey.forall_texts fun _ _ _ ht => ht.semicolon_not_mem)

/-- **A key is read** exactly if no value of it has a fraction. -/
theorem KeyText.rowReads_iff (h : KeyText types key k) : RowReads types k key ↔
    ∀ p ∈ types.zip key, typeName2dataType p.1 = some .float → chr '.' ∉ p.2 := by
  obtain ⟨texts, hkey, hitem⟩ := h
  rw [hitem.rowReads_iff (hkey.forall_texts fun _ _ _ ht => ht.anyText)
    (hkey.forall_texts fun _ _ _ ht => ht.delimits) hkey.length_eq.1]
  exact parsesAs_iff_whole hkey

/-! ### Counting -/

/-- The commas that are seen between texts are those between their values. -/
theorem seenBetween_written {texts : List Bytes} (h : Written WrittenKey types key texts) :
    seenBetween q texts = seenBetween q key := by
  have hbefore : ∀ {types key texts : List Bytes}, Written WrittenKey types key texts → ∀ q,
      seenBefore q texts = seenBefore q key := by
    intro types key texts h
    induction h with
    | nil => exact fun _ => rfl
    | cons ht _ ih =>
      intro q
      rw [seenBefore, seenBefore, ht.openBehind, ih]
  cases h with
  | nil => rfl
  | cons ht h => rw [seenBetween, seenBetween, ht.openBehind, hbefore h]

theorem KeyText.scans (h : KeyText types key k) : Scans q k (seenBetween true key) := by
  obtain ⟨texts, hkey, hitem⟩ := h
  rw [← seenBetween_written hkey]
  exact hitem.scans (hkey.forall_texts fun _ _ _ ht q => ht.scans q)

/-- **The commas that are seen in a text of keys**: those within the keys, and those between them. -/
theorem KeysText.scans (h : KeysText types keys items w) :
    Scans q w ((keys.map (seenBetween true)).sum + seenBetween q items) := by
  induction h generalizing q with
  | @single key k a b ha hk hb =>
    have := (scans_spaces ha).append (openBehind_spaces (q := q) ha)
      (hk.scans.append rfl (scans_spaces hb))
    simpa [seenBetween, seenBefore] using this
  | @cons key k a b keys items w ha hk hb h ih =>
    -- the comma between two keys counts iff the key leaves no parenthesis open
    have hcomma := scans_byte (q := openBehind q k) (b := comma) (by decide) (by decide)
    have := (scans_spaces ha).append (openBehind_spaces (q := q) ha) (hk.scans.append rfl
      ((scans_spaces hb).append (openBehind_spaces hb) (hcomma.append rfl ih)))
    have hitems : seenBetween q (k :: items) =
        (if openBehind q k = false then 1 else 0) + seenBetween (openBehind q k) items := by
      cases h <;> cases hopen : openBehind q k <;> simp [seenBetween, seenBefore, hopen]
    rw [List.map_cons, List.sum_cons, hitems]
    convert this using 1
    · simp
    · simp only [and_true]
      show _ = 0 + (_ + (0 + (_ + (_ + seenBetween (openBehind q k) items))))
      omega

theorem KeysText.length_eq (h : KeysText types keys items w) :
    keys.length = items.length ∧ keys ≠ [] := by
  induction h with
  | single => exact ⟨rfl, List.cons_ne_nil _ _⟩
  | cons _ _ _ _ ih => exact ⟨congrArg Nat.succ ih.1, List.cons_ne_nil _ _⟩

/-- Items of more or fewer than one value are in parentheses that close. -/
theorem KeysText.openBehind_items (h : KeysText types keys items w) (hlen : types.length ≠ 1) :
    ∀ k ∈ items, openBehind false k = false := by
  have hkey : ∀ {key k}, KeyText types key k → openBehind false k = false := by
    rintro key k ⟨texts, hkey, hitem⟩
    exact hitem.openBehind_tuple (hkey.length_eq.1 ▸ hlen)
  induction h with
  | single _ hk => exact List.forall_mem_singleton.mpr (hkey hk)
  | cons _ hk _ _ ih => exact List.forall_mem_cons.mpr ⟨hkey hk, ih⟩

theorem KeysText.length_key (h : KeysText types keys items w) :
    ∀ key ∈ keys, key.length = types.length := by
  have hkey : ∀ {key k}, KeyText types key k → key.length = types.length := by
    rintro key k ⟨texts, hkey, -⟩
    exact hkey.length_eq.2.trans hkey.length_eq.1.symm
  induction h with
  | single _ hk => exact List.forall_mem_singleton.mpr (hkey hk)
  | cons _ hk _ _ ih => exact List.forall_mem_cons.mpr ⟨hkey hk, ih⟩

/-- **When as many keys are counted as are written.** -/
theorem KeysText.count_eq_iff (h : KeysText types keys items w) :
    countDelimiterIgnoringParenthesesContent w comma + 1 = keys.length ↔ CommasSeen keys items := by
  obtain ⟨last, -, -, hcount⟩ := h.scans (q := false) 0 (by decide)
  rw [countDelimiterIgnoringParenthesesContent, countDelimiterIgnoringFrom_eq, hcount]
  obtain ⟨hlen, hne⟩ := h.length_eq
  have hpos : 0 < keys.length := List.length_pos_iff.mpr hne
  have hwithin : (keys.map (seenBetween true)).sum = 0 ↔
      ∀ key ∈ keys, ∀ v ∈ key.dropLast, lastParenthesis v ≠ some closeParen := by
    rw [List.sum_eq_zero_iff_forall_eq_nat, List.forall_mem_map]
    exact forall₂_congr fun key _ => seenBetween_eq_zero
  rw [CommasSeen, ← hwithin, ← seenBetween_eq_length, ← hlen]
  by_cases harity : types.length = 1
  · have hnone : (keys.map (seenBetween true)).sum = 0 := by
      rw [hwithin]
      intro key hkey v hv
      obtain ⟨v', rfl⟩ := List.length_eq_one_iff.mp ((h.length_key key hkey).trans harity)
      exact absurd hv List.not_mem_nil
    omega
  · have hall : seenBetween false items = keys.length - 1 := by
      rw [hlen, seenBetween_eq_length]
      intro k hk
      exact openBehind_false_iff.mp (h.openBehind_items harity k (List.dropLast_subset _ hk))
    omega

/-! ### Reading -/

theorem setRowsRead_cons_iff {offset : ℕ} (hitem : SetQL.item x = some (k, offset)) :
    SetRowsRead types (n + 1) x (key :: keys) ↔
      RowReads types k key ∧ SetRowsRead types n (x.drop offset) keys := by
  constructor
  · intro h
    cases h with
    | cons hkeys hkey hrows =>
      obtain ⟨rfl, rfl⟩ := Prod.mk.inj (Option.some.inj (hitem.symm.trans hkeys))
      exact ⟨hkey, hrows⟩
  · rintro ⟨hkey, hrows⟩
    exact .cons hitem hkey hrows

/-- **When keys are read as they are written**, from a cursor in front of them or of the comma before
them. -/
theorem KeysText.read_iff (h : KeysText types keys items w) (ho : o = [] ∨ o = [comma]) :
    SetRowsRead types keys.length (o ++ w) keys ↔ WholeNumbers types keys := by
  have hcursor : ∀ {key k a b x}, Spaces a → KeyText types key k → Spaces b → Stops x → ∀ o,
      (o = [] ∨ o = [comma]) → ∀ n keys,
      SetRowsRead types (n + 1) (o ++ (a ++ (k ++ (b ++ x)))) (key :: keys) ↔
        RowReads types k key ∧ SetRowsRead types n x keys := by
    intro key k a b x ha hk hb hx o ho n keys
    have hitem := item_eq (l := o ++ a) ⟨o, a, ho, ha, rfl⟩ hk.item hb hx
    rw [← List.append_assoc, setRowsRead_cons_iff hitem,
      show (o ++ a) ++ (k ++ (b ++ x)) = ((o ++ a) ++ (k ++ b)) ++ x by simp, List.drop_left]
  induction h generalizing o with
  | @single key k a b ha hk hb =>
    have hread := hcursor ha hk hb (x := []) nofun o ho 0 []
    rw [List.append_nil] at hread
    rw [List.length_singleton, hread, hk.rowReads_iff, WholeNumbers, List.forall_mem_singleton]
    exact and_iff_left (.nil [])
  | @cons key k a b keys items w ha hk hb h ih =>
    rw [List.length_cons, hcursor ha hk hb (stops_comma w) o ho, hk.rowReads_iff, WholeNumbers,
      List.forall_mem_cons, ← WholeNumbers]
    exact and_congr_right fun _ => ih (o := [comma]) (Or.inr rfl)

/-- Keys have no semicolon, and there is a byte in them. -/
theorem KeysText.content (h : KeysText types keys items w) : w ≠ [] ∧ semicolon ∉ w := by
  have hx := isPunctuation_semicolon
  have hne : ∀ {key k}, KeyText types key k → k ≠ [] := by
    intro key k hk
    rcases hk.item with hk | ⟨t, v, -, -, rfl⟩
    · obtain ⟨b, s, rfl, -⟩ := hk.start
      exact List.cons_ne_nil _ _
    · exact List.cons_ne_nil _ _
  induction h with
  | single ha hk hb =>
    simp [ha.not_mem hx, hk.semicolon_not_mem, hb.not_mem hx, hne hk]
  | cons ha hk hb _ ih =>
    simp [ha.not_mem hx, hk.semicolon_not_mem, hb.not_mem hx, ih.2,
      show semicolon ≠ comma by decide]

end Keys

/-! ## Insertions -/

section Insertions

variable {u : Universe} {name str : Bytes} {keys : List (List Bytes)} {items : List Bytes} {k : ℕ}
  {set : UniverseSet}

/-- **When an insertion into a set appends the keys written**, and keeps all else: exactly if
parentheses within strings hide no comma and show none, and no number has a fraction. -/
theorem parseSetInsert_keys_iff (hname : IsName name) (hposition : universeSetPosition u name = some k)
    (hset : u.sets[k]? = some set) (hroom : set.keyValues.length + keys.length ≤ u.keyValues.length)
    (h : SetInsertText u.keyDataTypeNames name keys items str) :
    parseSetInsert parserRegex u str =
        .ok (u.withSet k { set with keyValues := set.keyValues ++ keys.map some }, none) ↔
      CommasSeen keys items ∧ WholeNumbers u.keyDataTypeNames keys := by
  obtain ⟨a, i, b, w, c, l, d, e, ha, hi, hb, hkeys, hc, hl, hd, he, rfl⟩ := h
  have hins := insertion_eq_of_shape
    ⟨a, i, b, c, l, d, e, ha, hi, hb, hkeys.content, hc, hl, hd, hname, he, rfl⟩
  rw [← hkeys.count_eq_iff, ← hkeys.read_iff (o := []) (Or.inl rfl), List.nil_append,
    parseSetInsert_eq_ok]
  constructor
  · rintro ⟨_, _, _, set', rows, hins', hposition', hset', hread, -, hu⟩
    obtain ⟨rfl, rfl⟩ := Prod.mk.inj (Option.some.inj (hins.symm.trans hins'))
    obtain rfl := Option.some.inj (hposition.symm.trans hposition')
    obtain rfl := Option.some.inj (hset.symm.trans hset')
    have hget := congrArg (fun u : Universe => u.sets[k]?) hu
    obtain ⟨hk, -⟩ := List.getElem?_eq_some_iff.mp hset
    rw [Universe.sets_withSet hk, Universe.sets_withSet hk] at hget
    have hrows := List.append_cancel_left (congrArg UniverseSet.keyValues (Option.some.inj hget))
    obtain rfl := List.map_injective_iff.mpr (Option.some_injective _) hrows
    refine ⟨hread.length_eq.symm, ?_⟩
    rwa [← hread.length_eq] at hread
  · rintro ⟨hcount, hread⟩
    exact ⟨w, name, k, set, keys, hins, hposition, hset, hcount ▸ hread, hroom, rfl⟩

/-- A universe of three strings with a set of one of them. -/
def stringUniverse : Universe :=
  { createEmptyUniverse with
    name := lit "U"
    keyDataNames := [lit "s"]
    keyDataTypeNames := [lit "STRING"]
    keyValues := [some [lit "a"], some [lit "(a)"], some [lit "("]]
    attributeValues := [some [], some [], some []]
    sets := [⟨lit "S", [some [lit "a"]]⟩] }

/-- Two strings without white space around them are inserted by a text. -/
theorem setInsertText_two (v v' : Bytes)
    (hv : v ≠ [] ∧ quote ∉ v ∧ backslash ∉ v ∧ semicolon ∉ v)
    (hv' : v' ≠ [] ∧ quote ∉ v' ∧ backslash ∉ v' ∧ semicolon ∉ v') :
    SetInsertText [lit "STRING"] (lit "S") [[v], [v']]
      [quote :: (v ++ [quote]), quote :: (v' ++ [quote])]
      (lit "INSERT \x7b" ++ (quote :: (v ++ [quote]) ++
        comma :: (quote :: (v' ++ [quote]) ++ lit "\x7d INTO S"))) := by
  have hspace : Spaces (lit " ") := by
    unfold Spaces
    decide +kernel
  have hkeyword : Keyword (lit "INSERT") (lit "INSERT") ∧ Keyword (lit "INTO") (lit "INTO") := by
    unfold Keyword
    decide
  have hstring : typeName2dataType (lit "STRING") = some .string := by decide
  have hkey : ∀ {v : Bytes}, v ≠ [] ∧ quote ∉ v ∧ backslash ∉ v ∧ semicolon ∉ v →
      KeyText [lit "STRING"] [v] (quote :: (v ++ [quote])) :=
    fun hv => ⟨_, .cons (Or.inl ⟨hstring, hv, rfl⟩) .nil, .bare⟩
  have hkeys := KeysText.cons spaces_nil (hkey hv) spaces_nil
    (.single spaces_nil (hkey hv') spaces_nil)
  refine ⟨[], lit "INSERT", lit " ", _, lit " ", lit "INTO", lit " ", [], spaces_nil, hkeyword.1,
    hspace, hkeys, hspace, hkeyword.2, ⟨by decide, hspace⟩, spaces_nil, ?_⟩
  simp only [List.nil_append, List.append_nil, List.append_assoc]
  have hopen : lit "INSERT \x7b" = lit "INSERT" ++ (lit " " ++ [openBrace]) := by decide
  have hclose : lit "\x7d INTO S" =
      closeBrace :: (lit " " ++ (lit "INTO" ++ (lit " " ++ lit "S"))) := by
    decide
  rw [hopen, hclose]
  simp

theorem parseSetInsert_keys_string :
    parseSetInsert parserRegex stringUniverse (lit "INSERT \x7b\"(a)\",\"(\"\x7d INTO S") =
      .ok (stringUniverse.withSet 0 ⟨lit "S", [some [lit "a"], some [lit "(a)"], some [lit "("]]⟩,
        none) := by
  have htext := setInsertText_two (lit "(a)") (lit "(") (by decide) (by decide)
  have hname : IsName (lit "S") := ⟨by decide +kernel, by unfold IsNameByte IsLetter; decide +kernel⟩
  have hseen : CommasSeen [[lit "(a)"], [lit "("]]
      [quote :: (lit "(a)" ++ [quote]), quote :: (lit "(" ++ [quote])] := by
    unfold CommasSeen
    decide
  have hwhole : WholeNumbers [lit "STRING"] [[lit "(a)"], [lit "("]] := by
    unfold WholeNumbers
    decide
  have hset : stringUniverse.sets[0]? = some ⟨lit "S", [some [lit "a"]]⟩ := rfl
  exact (parseSetInsert_keys_iff hname rfl hset (by decide) htext).mpr ⟨hseen, hwhole⟩

/-- An opening parenthesis in the first key hides the comma behind it, and the second key is lost. -/
theorem parseSetInsert_keys_lost :
    SetInsertText [lit "STRING"] (lit "S") [[lit "("], [lit "a"]] [lit "\"(\"", lit "\"a\""]
        (lit "INSERT \x7b\"(\",\"a\"\x7d INTO S") ∧
      parseSetInsert parserRegex stringUniverse (lit "INSERT \x7b\"(\",\"a\"\x7d INTO S") =
        .ok (stringUniverse.withSet 0 ⟨lit "S", [some [lit "a"], some [lit "("]]⟩, none) := by
  refine ⟨setInsertText_two (lit "(") (lit "a") (by decide) (by decide), ?_⟩
  decide

end Insertions

end SetQL
