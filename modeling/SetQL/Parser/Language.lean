import SetQL.Parser.Accepts

/-!
# The parser accepts the query language

The parser of queries accepts exactly the query language, with the columns and the tree of the
query. The column names are read a second time, one after the other, from the part that the
expression of a query has matched, and this cannot fail.

## Main definitions

* `Columns ns w`: the text of the names, and white space
* `QueryParts s ns c`: the parts of a string that matches the expression of a query

## Main results

* `columnNamesFrom_eq`: the names of a list of columns are read in order
* `finds_query`: a string matches the expression of a query exactly when it has its parts
* `parseEntireQuery_eq_ok`: the accepted strings are the queries
* `parseQuery_iff`: the same for the whole parser, and no column name is missing
-/

namespace SetQL

/-! ## Where names and spaces end -/

section Heads

variable {x t r w : Bytes} {ns : List Bytes}

theorem ColumnTail.head_append (ht : ColumnTail ns t) (hr : ∀ z ∈ r.head?, ¬ IsNameByte z) :
    ∀ z ∈ (t ++ r).head?, ¬ IsNameByte z := by
  cases ht with
  | nil => exact hr
  | cons =>
    rintro z hz
    obtain rfl : comma = z := by simpa using hz
    decide

/-- A name, perhaps behind white space, starts with no comma. -/
theorem Spaces.head_ne_comma {n v : Bytes} (hx : Spaces x) (hn : IsName n) :
    ∀ z ∈ (x ++ (n ++ v)).head?, z ≠ comma := by
  rintro z hz rfl
  cases x with
  | nil =>
    obtain ⟨y, n, rfl⟩ := List.exists_cons_of_ne_nil hn.1
    obtain rfl : y = comma := by simpa using hz
    exact absurd (hn.2 comma List.mem_cons_self) (by decide)
  | cons y x =>
    obtain rfl : y = comma := by simpa using hz
    exact absurd (hx comma List.mem_cons_self) (by decide)

theorem eq_comma_of_mem {o : Bytes} (ho : o = [] ∨ o = [comma]) : ∀ z ∈ o, z = comma := by
  rcases ho with rfl | rfl
  · exact nofun
  · exact fun z hz => List.mem_singleton.mp hz

theorem Derives.head {e : SetExpr Bytes} (h : Derives e w) (v : Bytes) :
    ∀ z ∈ (w ++ v).head?, ¬ IsSpace z := by
  have hopen : ∀ r : Bytes, ∀ z ∈ (openParen :: r).head?, ¬ IsSpace z := by
    rintro r z hz
    obtain rfl : openParen = z := by simpa using hz
    decide
  cases h with
  | name hn => exact hn.head
  | parens => exact hopen _
  | complementName hk ha ha' hn =>
    rw [List.append_assoc, List.append_assoc]
    exact (hk.isName letters_complement (by decide)).head
  | complement hk =>
    rw [List.append_assoc, List.append_assoc]
    exact (hk.isName letters_complement (by decide)).head
  | binary op hk =>
    rw [List.append_assoc, List.append_assoc]
    exact (hk.isName op.letters op.word_ne_nil).head

/-- A comma in the text of names stands before each of them. -/
theorem ColumnTail.count (ht : ColumnTail ns t) : t.count comma = ns.length := by
  have hx := isPunctuation_comma
  induction ht with
  | nil => rfl
  | cons ha hn hb hw ih =>
    simp only [List.count_cons_self, List.count_append, ih, List.length_cons,
      List.count_eq_zero.mpr (ha.not_mem hx), List.count_eq_zero.mpr (hn.not_mem hx),
      List.count_eq_zero.mpr (hb.not_mem hx), Nat.zero_add]

end Heads

/-! ## Column names -/

section Columns

variable {o a n b t : Bytes} {ns : List Bytes}

/-- The parts of a text that the expression of column names has matched. -/
theorem parse_columnNames {s : Bytes} {cs : List Capture}
    (h : Parse queryRegex.columnNames.body 0 s cs) : ∃ o a u b t c d ms,
      s = o ++ (a ++ (u ++ (b ++ (t ++ c)))) ∧ (o = [] ∨ o = [comma]) ∧ Spaces a ∧ IsName u ∧
      Spaces b ∧ ColumnTail ms t ∧ Spaces c ∧ (∀ x ∈ d, x.group = 3) ∧
      cs = ⟨1, (o ++ a).length, (o ++ a).length + u.length⟩ ::
        (d ++ [⟨2, (o ++ (a ++ (u ++ b))).length, (o ++ (a ++ (u ++ b))).length + t.length⟩]) := by
  obtain ⟨o, v, c₁, d₁, rfl, rfl, ho, h⟩ := parse_seq.mp h
  obtain ⟨a, v, rfl, ha, h⟩ := parse_spacesThen.mp h
  obtain ⟨u, v, d₂, rfl, rfl, ⟨hne, hu⟩, h⟩ := parse_groupThen.mp h
  obtain ⟨b, v, rfl, hb, h⟩ := parse_spacesThen.mp h
  obtain ⟨t, c, d₃, d₄, rfl, rfl, hgroup, htail⟩ := parse_seq.mp h
  obtain ⟨hc, rfl⟩ := parse_spaces.mp htail
  obtain ⟨d, rfl, hd⟩ := parse_group.mp hgroup
  obtain ⟨ms, ht⟩ := hd.columnTail
  obtain ⟨hcomma, rfl⟩ := parse_optComma.mp ho
  refine ⟨o, a, u, b, t, c, d, ms, rfl, hcomma, ha,
    ⟨hne, fun x hx => (contains_nameSet x).mp (hu x hx)⟩, hb, ht, hc, fun x hx => ?_, ?_⟩
  · simpa [columnTailRegex, Regex.groups, charThen, spacesThen, Regex.plus] using
      hd.mem_groups x hx
  · simp [Nat.add_assoc]

theorem exists_parse_columnNames (ho : o = [] ∨ o = [comma]) (ha : Spaces a) (hn : IsName n)
    (hb : Spaces b) (ht : ColumnTail ns t) :
    ∃ cs, Parse queryRegex.columnNames.body 0 (o ++ (a ++ (n ++ (b ++ t)))) cs := by
  obtain ⟨d, hd⟩ := ht.parse (n := 3) (i := 0 + o.length + a.length + n.length + b.length)
  have htail := parse_seq.mpr ⟨t, [], _, [], (List.append_nil t).symm, rfl, .group 2 hd,
    parse_spaces.mpr ⟨spaces_nil, rfl⟩⟩
  have hname := (parse_groupThen (n := 1)).mpr ⟨n, b ++ t, _, rfl, rfl,
    ⟨hn.1, fun x hx => (contains_nameSet x).mpr (hn.2 x hx)⟩,
    parse_spacesThen.mpr ⟨b, t, rfl, hb, htail⟩⟩
  exact ⟨_, .seq (parse_optComma.mpr ⟨ho, rfl⟩) (parse_spacesThen.mpr ⟨a, _, rfl, ha, hname⟩)⟩

/-- One name is read, and the cursor moves to the comma before the next one. -/
theorem columnNames_step (ho : o = [] ∨ o = [comma]) (ha : Spaces a) (hn : IsName n)
    (hb : Spaces b) (ht : ColumnTail ns t) : ∃ m offset stop,
      regexec queryRegex.columnNames (o ++ (a ++ (n ++ (b ++ t)))) = some m ∧
      copyGroup (o ++ (a ++ (n ++ (b ++ t)))) m 1 = .ok (some n) ∧
      m.group 2 = some (offset, stop) ∧
      (ns ≠ [] → (o ++ (a ++ (n ++ (b ++ t)))).drop offset = t) := by
  have hcomma : ∀ v : Bytes, ∀ z ∈ (comma :: v).head?, ¬ IsSpace z ∧ ¬ IsNameByte z := by
    rintro v z hz
    obtain rfl : comma = z := by simpa using hz
    decide
  cases hm : regexec queryRegex.columnNames (o ++ (a ++ (n ++ (b ++ t)))) with
  | none =>
    obtain ⟨cs, hcs⟩ := exists_parse_columnNames ho ha hn hb ht
    exact absurd hcs ((regexec_anchored_eq_none rfl rfl).mp hm cs)
  | some m =>
    obtain ⟨o', a', u, b', t', c, d, ms, hs, ho', ha', hu, hb', ht', hc, hd, hcs⟩ :=
      parse_columnNames (regexec_anchored_eq_some rfl rfl hm)
    -- what follows the comma and the spaces is neither of both, so the match is the only one
    obtain ⟨rfl, h₁⟩ := append_inj_of_all (p := (· = comma)) (eq_comma_of_mem ho)
      (eq_comma_of_mem ho') (ha.head_ne_comma hn) (ha'.head_ne_comma hu) hs
    obtain ⟨rfl, h₂⟩ := append_inj_of_all (p := IsSpace) ha ha' hn.head hu.head h₁
    have hend := hb.head_append (r := t) (by simpa using ht.head_append (r := []) (by simp))
    have hend' := hb'.head_append (ht'.head_append (r := c)
      (by simpa using hc.head_append (r := []) (by simp)))
    obtain ⟨rfl, h₃⟩ := append_inj_of_all (p := IsNameByte) hn.2 hu.2 hend hend' h₂
    have hfind : d.reverse.find? (fun x => x.group = 1) = none :=
      List.find?_eq_none.mpr fun x hx => by simp [hd x (List.mem_reverse.mp hx)]
    refine ⟨m, (o ++ (a ++ (n ++ b'))).length, (o ++ (a ++ (n ++ b'))).length + t'.length, rfl, ?_,
      ?_, fun hne => ?_⟩
    · have hgroup : m.group 1 = some ((o ++ a).length, (o ++ a).length + n.length) := by
        simp [RegMatch.group, hcs, hfind]
      rw [copyGroup, hgroup]
      simp only
      rw [← List.append_assoc o a, strCopyIdx_append, map_ok]
    · simp [RegMatch.group, hcs]
    · cases ht with
      | nil => exact absurd rfl hne
      | cons ha₂ hn₂ hb₂ hw₂ =>
        cases ht' with
        | nil =>
          have hmem : comma ∈ b' ++ c := by
            rw [← List.nil_append c, ← h₃]
            simp
          exact absurd ((hb'.append hc) comma hmem) (by decide)
        | cons =>
          obtain ⟨rfl, -⟩ := append_inj_of_all (p := IsSpace) hb hb'
            (fun z hz => (hcomma _ z hz).1) (fun z hz => (hcomma _ z hz).1) h₃
          have hassoc : ∀ v, o ++ (a ++ (n ++ (b ++ v))) = (o ++ (a ++ (n ++ b))) ++ v := by simp
          rw [hassoc, List.drop_left]

/-- **The names of a list of columns are read in order.** -/
theorem columnNamesFrom_eq (ho : o = [] ∨ o = [comma]) (ha : Spaces a) (hn : IsName n)
    (hb : Spaces b) (ht : ColumnTail ns t) :
    columnNamesFrom queryRegex (ns.length + 1) (o ++ (a ++ (n ++ (b ++ t)))) =
      .ok ((n :: ns).map some, false) := by
  induction ht generalizing o a n b with
  | nil =>
    obtain ⟨m, offset, stop, hm, hcopy, hgroup, -⟩ := columnNames_step ho ha hn hb .nil
    rw [columnNamesFrom, hm]
    simp only [hcopy, hgroup, ok_bind, strCopy]
    rfl
  | cons ha₂ hn₂ hb₂ hw₂ ih =>
    obtain ⟨m, offset, stop, hm, hcopy, hgroup, hdrop⟩ :=
      columnNames_step ho ha hn hb (.cons ha₂ hn₂ hb₂ hw₂)
    have hrest := ih (o := [comma]) (Or.inr rfl) ha₂ hn₂ hb₂
    rw [columnNamesFrom, hm]
    simp only [hcopy, hgroup, ok_bind, strCopy, hdrop (List.cons_ne_nil _ _), List.length_cons]
    rw [List.singleton_append] at hrest
    rw [hrest]
    rfl

theorem copyStringArray_map_some (ns : List Bytes) : copyStringArray (ns.map some) = .ok ns := by
  induction ns with
  | nil => rfl
  | cons n ns ih =>
    rw [copyStringArray, List.map_cons, List.mapM_cons, strCopy, ok_bind]
    rw [copyStringArray] at ih
    rw [ih, ok_bind, pure_eq_ok]

/-- **No column name is missing.** -/
theorem parseColumnNames_eq (hn : IsName n) (hb : Spaces b) (ht : ColumnTail ns t) :
    parseColumnNames queryRegex (n ++ (b ++ t)) = .ok (n :: ns, false) := by
  have hx := isPunctuation_comma
  have hcount : countChars (n ++ (b ++ t)) (chr ',') = ns.length := by
    rw [countChars, show chr ',' = comma from rfl, List.count_append, List.count_append,
      List.count_eq_zero.mpr (hn.not_mem hx), List.count_eq_zero.mpr (hb.not_mem hx), ht.count,
      Nat.zero_add, Nat.zero_add]
  have hnames := columnNamesFrom_eq (o := []) (a := []) (Or.inl rfl) spaces_nil hn hb ht
  rw [List.nil_append, List.nil_append] at hnames
  rw [parseColumnNames, hcount, hnames]
  simp only [ok_bind, copyStringArray_map_some, pure_eq_ok]

end Columns

/-! ## Queries -/

/-- The text of the names `ns`, and white space. -/
def Columns (ns : List Bytes) (w : Bytes) : Prop :=
  ∃ n b t ms, ns = n :: ms ∧ IsName n ∧ Spaces b ∧ ColumnTail ms t ∧ w = n ++ (b ++ t)

/-- The string asks for the columns `ns` of a set whose text is `c`. -/
def QueryParts (s : Bytes) (ns : List Bytes) (c : Bytes) : Prop :=
  ∃ a k₁ b names x k₂ d f, Spaces a ∧ Keyword (lit "SELECT") k₁ ∧ (b ≠ [] ∧ Spaces b) ∧
    Columns ns names ∧ (x ≠ [] ∧ Spaces x) ∧ Keyword (lit "FROM") k₂ ∧ (d ≠ [] ∧ Spaces d) ∧
    (c ≠ [] ∧ semicolon ∉ c) ∧ Spaces f ∧
    s = a ++ (k₁ ++ (b ++ (names ++ (x ++ (k₂ ++ (d ++ (c ++ semicolon :: f)))))))

section Queries

variable {s c c' u v w r r' x x' : Bytes} {ns ns' : List Bytes} {e : SetExpr Bytes}

theorem upper_select : ∀ b ∈ lit "SELECT", 65 ≤ b ∧ b ≤ 90 := by decide +kernel

theorem upper_from : ∀ b ∈ lit "FROM", 65 ≤ b ∧ b ≤ 90 := by decide +kernel

theorem letters_select : ∀ b ∈ lit "SELECT", IsLetter b := by decide +kernel

theorem letters_from : ∀ b ∈ lit "FROM", IsLetter b := by decide +kernel

theorem ColumnList.columns (h : ColumnList ns w) : Columns ns w := by
  induction h with
  | single hn => exact ⟨_, [], [], [], rfl, hn, spaces_nil, .nil, by simp⟩
  | cons hn ha hb _ ih =>
    obtain ⟨n, b, t, ms, rfl, hn', hb', ht, rfl⟩ := ih
    exact ⟨_, _, _, _, rfl, hn, ha, .cons hb hn' hb' ht, by simp⟩

/-- White space at the end of the names is no part of the last one. -/
theorem Columns.columnList (h : Columns ns w) :
    ∃ names x, ColumnList ns names ∧ Spaces x ∧ w = names ++ x := by
  obtain ⟨n, b, t, ms, rfl, hn, hb, ht, rfl⟩ := h
  induction ht generalizing n b with
  | nil => exact ⟨n, b, .single hn, hb, by simp⟩
  | cons ha hn' hb' _ ih =>
    obtain ⟨names, x, hnames, hx, heq⟩ := ih _ _ hn' hb'
    exact ⟨_, x, .cons hn hb ha hnames, hx, by simp [heq]⟩

/-- The names of a list of columns are determined. -/
theorem ColumnTail.unique {b b' t t' : Bytes} (ht : ColumnTail ns t) (ht' : ColumnTail ns' t')
    (hb : Spaces b) (hb' : Spaces b') (hx : x ≠ [] ∧ Spaces x) (hx' : x' ≠ [] ∧ Spaces x')
    (hr : ∀ z ∈ r.head?, IsLetter z) (hr' : ∀ z ∈ r'.head?, IsLetter z)
    (h : b ++ (t ++ (x ++ r)) = b' ++ (t' ++ (x' ++ r'))) : ns = ns' ∧ r = r' := by
  have hcomma : ∀ v : Bytes, ∀ z ∈ (comma :: v).head?, ¬ IsSpace z := by
    rintro v z hz
    obtain rfl : comma = z := by simpa using hz
    decide
  have hletter : ∀ {r : Bytes}, (∀ z ∈ r.head?, IsLetter z) → ∀ z ∈ r.head?, ¬ IsSpace z :=
    fun hr z hz => (hr z hz).isNameByte.not_isSpace
  have hmixed : ∀ {b x r b' v : Bytes}, Spaces b → Spaces x → Spaces b' →
      (∀ z ∈ r.head?, IsLetter z) → b ++ (x ++ r) ≠ b' ++ comma :: v := by
    intro b x r b' v hb hx hb' hr h
    rw [← List.append_assoc] at h
    obtain ⟨-, h'⟩ := append_inj_of_all (p := IsSpace) (hb.append hx) hb' (hletter hr) (hcomma v) h
    exact absurd (hr comma (by rw [h']; rfl)) (by decide)
  induction ht generalizing b b' ns' t' with
  | nil =>
    cases ht' with
    | nil =>
      rw [List.nil_append, List.nil_append, ← List.append_assoc, ← List.append_assoc] at h
      obtain ⟨-, h'⟩ := append_inj_of_all (p := IsSpace) (hb.append hx.2) (hb'.append hx'.2)
        (hletter hr) (hletter hr') h
      exact ⟨rfl, h'⟩
    | cons =>
      rw [List.nil_append] at h
      exact absurd h (hmixed hb hx.2 hb' hr)
  | cons ha₁ hn₁ hb₁ hw₁ ih =>
    cases ht' with
    | nil =>
      rw [List.nil_append] at h
      exact absurd h.symm (hmixed hb' hx'.2 hb hr')
    | cons ha₂ hn₂ hb₂ hw₂ =>
      simp only [List.cons_append, List.append_assoc] at h
      obtain ⟨-, h₁⟩ := append_inj_of_all (p := IsSpace) hb hb' (hcomma _) (hcomma _) h
      obtain ⟨-, h₂⟩ := append_inj_of_all (p := IsSpace) ha₁ ha₂ hn₁.head hn₂.head
        (List.cons.inj h₁).2
      obtain ⟨rfl, h₃⟩ := append_inj_of_all (p := IsNameByte) hn₁.2 hn₂.2
        (hb₁.head_append (hw₁.head_append (hx.2.head_of_ne_nil hx.1)))
        (hb₂.head_append (hw₂.head_append (hx'.2.head_of_ne_nil hx'.1))) h₂
      obtain ⟨rfl, hrest⟩ := ih hw₂ hb₁ hb₂ h₃
      exact ⟨rfl, hrest⟩

theorem Keyword.head {word k : Bytes} (hk : Keyword word k) (hw : ∀ b ∈ word, IsLetter b)
    (hne : word ≠ []) : ∀ z ∈ (k ++ r).head?, IsLetter z := by
  obtain ⟨y, k, rfl⟩ := List.exists_cons_of_ne_nil (hk.isName hw hne).1
  rintro z hz
  obtain rfl : y = z := by simpa using hz
  exact hk.letters hw y List.mem_cons_self

/-- **The parts of a query are determined**, but for white space before the set. -/
theorem QueryParts.unique (h : QueryParts s ns c) (h' : QueryParts s ns' c') :
    ns = ns' ∧ ∃ d d', Spaces d ∧ Spaces d' ∧ d ++ c = d' ++ c' := by
  obtain ⟨a, k₁, b, _, x, k₂, d, f, ha, hk₁, hb, ⟨n, y, t, ms, rfl, hn, hy, ht, rfl⟩, hx, hk₂, hd, hc,
    hf, rfl⟩ := h
  obtain ⟨a', l₁, b', _, x', l₂, d', f', ha', hl₁, hb', ⟨n', y', t', ms', rfl, hn', hy', ht', rfl⟩,
    hx', hl₂, hd', hc', hf', heq⟩ := h'
  simp only [List.append_assoc] at heq
  have h₁ := hk₁.append_inj hl₁ letters_select (by decide) ha ha' heq
  obtain ⟨-, h₂⟩ := append_inj_of_all (p := IsSpace) hb.2 hb'.2 hn.head hn'.head h₁
  obtain ⟨rfl, h₃⟩ := append_inj_of_all (p := IsNameByte) hn.2 hn'.2
    (hy.head_append (ht.head_append (hx.2.head_of_ne_nil hx.1)))
    (hy'.head_append (ht'.head_append (hx'.2.head_of_ne_nil hx'.1))) h₂
  obtain ⟨rfl, h₄⟩ := ht.unique ht' hy hy' hx hx' (hk₂.head letters_from (by decide))
    (hl₂.head letters_from (by decide)) h₃
  obtain ⟨-, h₅⟩ := List.append_inj h₄ (hk₂.length.trans hl₂.length.symm)
  have hsemi : ∀ {d c : Bytes}, Spaces d → semicolon ∉ c → ∀ b ∈ d ++ c, b ≠ semicolon := by
    intro d c hd hc b hb hbs
    subst hbs
    rcases List.mem_append.mp hb with hb | hb
    · exact absurd (hd _ hb) (by decide)
    · exact hc hb
  rw [← List.append_assoc, ← List.append_assoc] at h₅
  obtain ⟨h₆, -⟩ := append_inj_of_all (p := (· ≠ semicolon)) (hsemi hd.2 hc.2) (hsemi hd'.2 hc'.2)
    (by simp) (by simp) h₅
  exact ⟨rfl, d, d', hd.2, hd'.2, h₆⟩

/-- White space before a padded expression is part of the padding. -/
theorem Padded.of_append {d : Bytes} (hd : Spaces d) (he : Derives e u) (h : Padded (d ++ c) u) :
    Padded c u := by
  obtain ⟨a, b, ha, hb, heq⟩ := h
  rw [List.append_assoc, List.append_eq_append_iff] at heq
  rcases heq with ⟨y, rfl, rfl⟩ | ⟨y, rfl, heq⟩
  · exact ⟨y, b, (spaces_append_iff.mp ha).2, hb, by simp⟩
  · cases y with
    | nil => exact ⟨[], b, spaces_nil, hb, by simpa using heq.symm⟩
    | cons z y =>
      have hz := he.head b z (by rw [heq]; rfl)
      exact absurd (hd z (by simp)) hz

theorem Padded.append_left {d : Bytes} (hd : Spaces d) (h : Padded c u) : Padded (d ++ c) u := by
  obtain ⟨a, b, ha, hb, rfl⟩ := h
  exact ⟨d ++ a, b, hd.append ha, hb, by simp⟩

/-- A query has the parts of one, and a set expression for its set. -/
theorem queryForm_iff : QueryForm s ns e ↔
    ∃ c u, QueryParts s ns c ∧ Padded c u ∧ Derives e u := by
  constructor
  · rintro ⟨a, k₁, b, names, x, k₂, d, u, f, g, rfl, ha, hk₁, hb, hb', hnames, hx, hx', hk₂, hd, hd',
      he, hf, hg⟩
    have hsemi : semicolon ∉ u ++ f := by
      simp [he.not_mem, hf.not_mem isPunctuation_semicolon]
    exact ⟨u ++ f, u, ⟨a, k₁, b, names, x, k₂, d, g, ha, hk₁, ⟨hb', hb⟩, hnames.columns, ⟨hx', hx⟩,
      hk₂, ⟨hd', hd⟩, ⟨by simp [he.ne_nil], hsemi⟩, hg, by simp⟩, ⟨[], f, spaces_nil, hf, by simp⟩, he⟩
  · rintro ⟨_, u, ⟨a, k₁, b, _, x, k₂, d, g, ha, hk₁, hb, hcols, hx, hk₂, hd, -, hg, rfl⟩,
      ⟨y, f, hy, hf, rfl⟩, he⟩
    obtain ⟨names, z, hnames, hz, rfl⟩ := hcols.columnList
    exact ⟨a, k₁, b, names, z ++ x, k₂, d ++ y, u, f, g, by simp, ha, hk₁, hb.2, hb.1, hnames,
      hz.append hx.2, by simp [hx.1], hk₂, hd.2.append hy, by simp [hd.1], he, hf, hg⟩

/-- With the parts of a query given, only its set expression is left. -/
theorem QueryParts.queryForm_iff (h : QueryParts s ns c) :
    QueryForm s ns' e ↔ ns' = ns ∧ ∃ u, Padded c u ∧ Derives e u := by
  rw [SetQL.queryForm_iff]
  constructor
  · rintro ⟨c', u, h', hu, he⟩
    obtain ⟨rfl, d, d', hd, hd', heq⟩ := h.unique h'
    exact ⟨rfl, u, Padded.of_append hd he (heq ▸ hu.append_left hd'), he⟩
  · rintro ⟨rfl, u, hu, he⟩
    exact ⟨c, u, h, hu, he⟩

/-- A group of the names, and then a match. -/
theorem parse_columnsThen {q : Regex} {i : ℕ} {cs : List Capture} :
    Parse (.seq (.group 1 (.seq (.plus (.set nameSet)) (spacesThen (columnTailRegex 2)))) q) i w cs →
      ∃ names v d d', w = names ++ v ∧ (∃ ns, Columns ns names) ∧ (∀ x ∈ d, x.group = 2) ∧
        cs = d ++ ⟨1, i, i + names.length⟩ :: d' ∧ Parse q (i + names.length) v d' := by
  intro h
  obtain ⟨names, v, c₁, d', rfl, rfl, hgroup, hq⟩ := parse_seq.mp h
  obtain ⟨c, rfl, hnames⟩ := parse_group.mp hgroup
  obtain ⟨n, y, c₂, d, rfl, rfl, hname, htail⟩ := parse_seq.mp hnames
  obtain ⟨hne, hn, rfl⟩ := parse_plus_set.mp hname
  obtain ⟨b, t, rfl, hb, ht⟩ := parse_spacesThen.mp htail
  obtain ⟨ms, hms⟩ := ht.columnTail
  refine ⟨_, v, d, d', rfl, ⟨n :: ms, n, b, t, ms, rfl,
    ⟨hne, fun x hx => (contains_nameSet x).mp (hn x hx)⟩, hb, hms, rfl⟩, fun x hx => ?_, by simp, hq⟩
  simpa [columnTailRegex, Regex.groups, charThen, spacesThen, Regex.plus] using ht.mem_groups x hx

theorem Columns.parse {q : Regex} {i : ℕ} {cs : List Capture} (h : Columns ns w)
    (hq : Parse q (i + w.length) v cs) : ∃ ds,
      Parse (.seq (.group 1 (.seq (.plus (.set nameSet)) (spacesThen (columnTailRegex 2)))) q) i
        (w ++ v) ds := by
  obtain ⟨n, b, t, ms, rfl, hn, hb, ht, rfl⟩ := h
  obtain ⟨d, hd⟩ := ht.parse (n := 2) (i := i + n.length + b.length)
  have hplus : Parse (.plus (.set nameSet)) i n [] :=
    parse_plus_set.mpr ⟨hn.1, fun x hx => (contains_nameSet x).mpr (hn.2 x hx), rfl⟩
  exact ⟨_, .seq (.group 1 (.seq hplus (parse_spacesThen.mpr ⟨b, t, rfl, hb, hd⟩))) hq⟩

/-- The part of a query after its names is matched. -/
theorem exists_parse_from {x k₂ d f : Bytes} (hx : x ≠ [] ∧ Spaces x)
    (hk₂ : Keyword (lit "FROM") k₂) (hd : d ≠ [] ∧ Spaces d) (hc : c ≠ [] ∧ semicolon ∉ c)
    (hf : Spaces f) (i : ℕ) : ∃ cs,
      Parse (spaces1Then (.word true (lit "FROM") (spaces1Then
        (.seq (.group 3 (.plus (.set contentSet))) (charThen ';' (.star (.set (spaceSet true)))))))) i
        (x ++ (k₂ ++ (d ++ (c ++ semicolon :: f)))) cs :=
  ⟨_, parse_spaces1Then.mpr ⟨x, _, rfl, hx, (parse_keyword upper_from).mpr ⟨k₂, _, rfl, hk₂,
    parse_spaces1Then.mpr ⟨d, _, rfl, hd, parse_groupThen.mpr ⟨c, _, [], rfl, rfl,
      ⟨hc.1, fun z hz => (contains_contentSet z).mpr fun h => hc.2 (h ▸ hz)⟩,
      parse_semicolonThen.mpr ⟨f, rfl, parse_spaces.mpr ⟨hf, rfl⟩⟩⟩⟩⟩⟩⟩

/-- **A string matches the expression of a query exactly when it has its parts**, and the groups are
the names and the text of the set. -/
theorem finds_query (s : Bytes) :
    (∃ m ns names c, regexec queryRegex.query s = some m ∧ copyGroup s m 1 = .ok (some names) ∧
      copyGroup s m 3 = .ok (some c) ∧ Columns ns names ∧ QueryParts s ns c) ∨
    (regexec queryRegex.query s = none ∧ ∀ ns c, ¬ QueryParts s ns c) := by
  have hcopy : ∀ {m : RegMatch} {g : ℕ} {u c v : Bytes}, g ≠ 0 →
      m.captures.reverse.find? (fun x => x.group = g) = some ⟨g, u.length, u.length + c.length⟩ →
      copyGroup (u ++ (c ++ v)) m g = .ok (some c) := by
    intro m g u c v hg hfind
    have hgroup : m.group g = some (u.length, u.length + c.length) := by
      simp [RegMatch.group, hg, hfind]
    rw [copyGroup, hgroup]
    simp only [strCopyIdx_append, map_ok]
  cases hm : regexec queryRegex.query s with
  | none =>
    refine Or.inr ⟨rfl, fun ns c => ?_⟩
    -- a text of this form has a parse, so the search would have found it
    rintro ⟨a, k₁, b, names, x, k₂, d, f, ha, hk₁, hb, hnames, hx, hk₂, hd, hc, hf, rfl⟩
    obtain ⟨cs, hcs⟩ := exists_parse_from hx hk₂ hd hc hf
      (0 + a.length + k₁.length + b.length + names.length)
    obtain ⟨ds, hds⟩ := hnames.parse hcs
    exact (regexec_anchored_eq_none rfl rfl).mp hm _ (parse_spacesThen.mpr ⟨a, _, rfl, ha,
      (parse_keyword upper_select).mpr ⟨k₁, _, rfl, hk₁, parse_spaces1Then.mpr ⟨b, _, rfl, hb, hds⟩⟩⟩)
  | some m =>
    have h := regexec_anchored_eq_some rfl rfl hm
    generalize hcaps : m.captures = cs at h
    obtain ⟨a, v, rfl, ha, h⟩ := parse_spacesThen.mp h
    obtain ⟨k₁, v, rfl, hk₁, h⟩ := (parse_keyword upper_select).mp h
    obtain ⟨b, v, rfl, hb, h⟩ := parse_spaces1Then.mp h
    obtain ⟨names, v, e, d', rfl, ⟨ns, hnames⟩, he, rfl, hfrom⟩ := parse_columnsThen h
    obtain ⟨x, v, rfl, hx, hfrom⟩ := parse_spaces1Then.mp hfrom
    obtain ⟨k₂, v, rfl, hk₂, hfrom⟩ := (parse_keyword upper_from).mp hfrom
    obtain ⟨d, v, rfl, hd, hfrom⟩ := parse_spaces1Then.mp hfrom
    obtain ⟨c, v, d'', rfl, rfl, ⟨hne, hc⟩, hend⟩ := parse_groupThen.mp hfrom
    obtain ⟨f, rfl, hlast⟩ := parse_semicolonThen.mp hend
    obtain ⟨hf, rfl⟩ := parse_spaces.mp hlast
    have hc : c ≠ [] ∧ semicolon ∉ c :=
      ⟨hne, fun hmem => (contains_contentSet _).mp (hc semicolon hmem) rfl⟩
    refine Or.inl ⟨m, ns, names, c, rfl, ?_, ?_, hnames, a, k₁, b, names, x, k₂, d, f, ha, hk₁, hb,
      hnames, hx, hk₂, hd, hc, hf, rfl⟩
    · have hfirst : ∀ v, a ++ (k₁ ++ (b ++ (names ++ v))) = (a ++ (k₁ ++ b)) ++ (names ++ v) := by
        simp
      rw [hfirst]
      apply hcopy (by decide)
      simp [hcaps, Nat.add_assoc]
    · have hthird : ∀ v, a ++ (k₁ ++ (b ++ (names ++ (x ++ (k₂ ++ (d ++ (c ++ v))))))) =
          (a ++ (k₁ ++ (b ++ (names ++ (x ++ (k₂ ++ d)))))) ++ (c ++ v) := by
        simp
      rw [hthird]
      apply hcopy (by decide)
      simp [hcaps, Nat.add_assoc]

theorem toSetOp_ne_null (e : SetExpr Bytes) : e.toSetOp ≠ .null := by
  cases e <;> exact fun h => SetOp.noConfusion h

/-- **The accepted strings are the queries.** -/
theorem parseEntireQuery_eq_ok {q : Query} : parseEntireQuery queryRegex s = .ok (.ok q) ↔
    ∃ ns e, QueryForm s ns e ∧ q = ⟨ns, e.toSetOp⟩ := by
  rcases finds_query s with ⟨m, ns, names, c, hm, hnames, hset, hcols, hparts⟩ | ⟨hm, hparts⟩
  · simp only [hparts.queryForm_iff]
    obtain ⟨n, b, t, ms, rfl, hn, hb, ht, rfl⟩ := hcols
    have hop : ∀ op, parseSetOperation queryRegex (c.length + 1) c = .ok (.ok op) ↔
        ∃ e u, Padded c u ∧ Derives e u ∧ op = e.toSetOp :=
      fun op => parseSetOperation_eq_ok (Nat.lt_succ_self _)
    rw [parseEntireQuery, hm]
    simp only [hnames, hset, ok_bind, strCopy, parseColumnNames_eq hn hb ht]
    rw [bind_eq_ok]
    constructor
    · rintro ⟨r, hr, h⟩
      cases r with
      | error message => cases h
      | ok op =>
        obtain ⟨e, u, hu, he, rfl⟩ := (hop op).mp hr
        simp only [toSetOp_ne_null, if_false, Bool.false_eq_true, pure_eq_ok] at h
        exact ⟨_, e, ⟨rfl, u, hu, he⟩, (Except.ok.inj (Except.ok.inj h)).symm⟩
    · rintro ⟨_, e, ⟨rfl, u, hu, he⟩, rfl⟩
      refine ⟨_, (hop _).mpr ⟨e, u, hu, he, rfl⟩, ?_⟩
      simp only [toSetOp_ne_null, if_false, Bool.false_eq_true, pure_eq_ok]
  · rw [parseEntireQuery, hm]
    constructor
    · intro h
      obtain ⟨message, -, h⟩ := map_eq_ok.mp h
      cases h
    · rintro ⟨ns, e, hform, -⟩
      obtain ⟨c, u, h, -⟩ := queryForm_iff.mp hform
      exact absurd h (hparts ns c)

theorem parseQuery_eq (s : Bytes) : parseQuery s = parseEntireQuery queryRegex s := by
  rw [parseQuery, initializeRegex_eq, ok_bind]

/-- **The parser accepts exactly the query language** and builds the intended query; the names that
it reads a second time are all there. -/
theorem parseQuery_iff (s : Bytes) :
    (∀ q, parseQuery s = .ok (.ok q) ↔ ∃ ns e, QueryForm s ns e ∧ q = ⟨ns, e.toSetOp⟩) ∧
      ∀ m, regexec queryRegex.query s = some m → ∃ names ns,
        copyGroup s m 1 = .ok (some names) ∧ parseColumnNames queryRegex names = .ok (ns, false) := by
  refine ⟨fun q => ?_, fun m hm => ?_⟩
  · rw [parseQuery_eq]
    exact parseEntireQuery_eq_ok
  · rcases finds_query s with ⟨m', ns, names, c, hm', hnames, -, hcols, -⟩ | ⟨hnone, -⟩
    · obtain rfl := Option.some.inj (hm.symm.trans hm')
      obtain ⟨n, b, t, ms, rfl, hn, hb, ht, rfl⟩ := hcols
      exact ⟨_, _, hnames, parseColumnNames_eq hn hb ht⟩
    · rw [hm] at hnone
      cases hnone

end Queries

end SetQL
