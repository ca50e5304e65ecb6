import SetQL.Parser.Counting
import SetQL.Parser.Language
import SetQL.Parser.ValueReadings
import SetQL.Parser.WholeStatements

/-!
# The declaration lists

The list of a definition, `CREATE UNIVERSE` or `CREATE ATTRIBUTES`, is found by the expression of
the statement, counted by its commas, and read by an expression that is not anchored, from a cursor
that moves to the next comma. All three agree on how many pairs there are and where they are, so the
list is read completely and no missing name is copied.

## Main definitions

* `ValueTypeList pairs w`: the text lists the pairs of a name and a type
* `DeclarationShape word t name pairs`: the statement declares the pairs
* `ReadsCompletely`: a parser of declaration lists reads them completely

## Main results

* `columnsText_iff`: the expression of a list matches exactly the lists of pairs
* `column_eq`: one pair is read, and the cursor moves to the comma behind it
* `definition_eq_of_shape`: the list that a statement declares is found
* `declarations_readCompletely`: both parsers read every list, and never fail
-/

namespace SetQL

/-- The text of further pairs, each a comma, a name and a type. -/
inductive ValueTypeTail : List (Bytes × Bytes) → Bytes → Prop
  | nil : ValueTypeTail [] []
  | cons {a n b t c ps w} (ha : Spaces a) (hn : IsName n) (hb : b ≠ [] ∧ Spaces b) (ht : IsName t)
    (hc : Spaces c) (hw : ValueTypeTail ps w) :
    ValueTypeTail ((n, t) :: ps) (comma :: (a ++ (n ++ (b ++ (t ++ (c ++ w))))))

/-- The text lists the pairs of a name and a type, with commas between them. -/
def ValueTypeList (pairs : List (Bytes × Bytes)) (w : Bytes) : Prop :=
  ∃ n b t c ps v, pairs = (n, t) :: ps ∧ IsName n ∧ (b ≠ [] ∧ Spaces b) ∧ IsName t ∧ Spaces c ∧
    ValueTypeTail ps v ∧ w = n ++ (b ++ (t ++ (c ++ v)))

/-- The statement is `CREATE word name(pairs)`. -/
def DeclarationShape (word t name : Bytes) (pairs : List (Bytes × Bytes)) : Prop :=
  ∃ columns, ValueTypeList pairs columns ∧ DefinitionShape word t name columns

/-! ## Matches -/

section Matches

variable {r : Regex} {i n : ℕ} {w v x : Bytes} {cs : List Capture} {ps : List (Bytes × Bytes)}

/-- A name and then a match. -/
theorem parse_plusNameThen : Parse (.seq (.plus (.set nameSet)) r) i w cs ↔
    ∃ u v, w = u ++ v ∧ IsName u ∧ Parse r (i + u.length) v cs := by
  rw [parse_seq]
  simp only [parse_plus_set, contains_nameSet]
  constructor
  · rintro ⟨u, v, _, d, rfl, rfl, ⟨hne, hu, rfl⟩, hr⟩
    exact ⟨u, v, rfl, ⟨hne, hu⟩, hr⟩
  · rintro ⟨u, v, rfl, ⟨hne, hu⟩, hr⟩
    exact ⟨u, v, [], cs, rfl, rfl, ⟨hne, hu, rfl⟩, hr⟩

/-- A name and a type, and then a match. -/
theorem parse_columnThen : Parse (columnThen r) i w cs ↔ ∃ u b t v, w = u ++ (b ++ (t ++ v)) ∧
    IsName u ∧ (b ≠ [] ∧ Spaces b) ∧ IsName t ∧
      Parse r (i + u.length + b.length + t.length) v cs := by
  rw [columnThen, parse_plusNameThen]
  simp only [parse_spaces1Then, parse_plusNameThen]
  constructor
  · rintro ⟨u, _, rfl, hu, b, _, rfl, hb, t, v, rfl, ht, hr⟩
    exact ⟨u, b, t, v, rfl, hu, hb, ht, hr⟩
  · rintro ⟨u, b, t, v, rfl, hu, hb, ht, hr⟩
    exact ⟨u, _, rfl, hu, b, _, rfl, hb, t, v, rfl, ht, hr⟩

/-- **The further pairs of a list** are matched exactly. -/
theorem parse_columnsTail :
    (∃ cs, Parse (columnsTailRegex n) i w cs) ↔ ∃ ps, ValueTypeTail ps w := by
  constructor
  · rintro ⟨cs, h⟩
    refine h.star_induction (P := fun w => ∃ ps, ValueTypeTail ps w) ⟨[], .nil⟩ ?_
    rintro i u c v hr ⟨ps, hps⟩
    obtain ⟨_, -, hcomma⟩ := parse_group.mp hr
    obtain ⟨_, rfl, hspaces⟩ := parse_commaThen.mp hcomma
    obtain ⟨a, _, rfl, ha, hcolumn⟩ := parse_spacesThen.mp hspaces
    obtain ⟨name, b, t, e, rfl, hname, hb, ht, hend⟩ := parse_columnThen.mp hcolumn
    obtain ⟨he, -⟩ := parse_spaces.mp hend
    exact ⟨(name, t) :: ps, by simpa using ValueTypeTail.cons ha hname hb ht he hps⟩
  · rintro ⟨ps, h⟩
    induction h generalizing i with
    | nil => exact ⟨[], .starNil _ i⟩
    | @cons a name b t c ps w ha hname hb ht hc _ ih =>
      obtain ⟨d, hd⟩ := ih (i := i + (comma :: (a ++ (name ++ (b ++ (t ++ c))))).length)
      have hcolumn := Parse.group n ((parse_commaThen (i := i)).mpr ⟨_, rfl,
        parse_spacesThen.mpr ⟨a, _, rfl, ha, parse_columnThen.mpr ⟨name, b, t, c, rfl, hname, hb,
          ht, parse_spaces.mpr ⟨hc, rfl⟩⟩⟩⟩)
      exact ⟨_, by simpa [columnsTailRegex] using Parse.starCons (List.cons_ne_nil _ _) hcolumn hd⟩

/-- **The expression of a list matches exactly the lists of pairs.** -/
theorem columnsText_iff : ColumnsText w ↔ ∃ pairs, ValueTypeList pairs w := by
  constructor
  · rintro ⟨i, cs, h⟩
    obtain ⟨name, b, t, _, rfl, hname, hb, ht, hspaces⟩ := parse_columnThen.mp h
    obtain ⟨c, v, rfl, hc, htail⟩ := parse_spacesThen.mp hspaces
    obtain ⟨ps, hps⟩ := parse_columnsTail.mp ⟨cs, htail⟩
    exact ⟨(name, t) :: ps, name, b, t, c, ps, v, rfl, hname, hb, ht, hc, hps, rfl⟩
  · rintro ⟨_, name, b, t, c, ps, v, rfl, hname, hb, ht, hc, hps, rfl⟩
    obtain ⟨cs, hcs⟩ := parse_columnsTail.mpr ⟨ps, hps⟩
    exact ⟨0, cs, parse_columnThen.mpr ⟨name, b, t, _, rfl, hname, hb, ht,
      parse_spacesThen.mpr ⟨c, v, rfl, hc, hcs⟩⟩⟩

/-! ## One pair -/

/-- What the expression of a pair matches, and where its groups are. -/
theorem parse_valueType (h : Parse parserRegex.valueType.body i w cs) : ∃ o a u b t c v d ps,
    w = o ++ (a ++ (u ++ (b ++ (t ++ (c ++ v))))) ∧ (o = [] ∨ o = [comma]) ∧ Spaces a ∧ IsName u ∧
      (b ≠ [] ∧ Spaces b) ∧ IsName t ∧ Spaces c ∧ ValueTypeTail ps v ∧ (∀ x ∈ d, x.group = 4) ∧
      cs = ⟨1, i + (o ++ a).length, i + (o ++ a).length + u.length⟩ ::
        ⟨2, i + (o ++ (a ++ (u ++ b))).length, i + (o ++ (a ++ (u ++ b))).length + t.length⟩ ::
        (d ++ [⟨3, i + (o ++ (a ++ (u ++ (b ++ (t ++ c))))).length,
          i + (o ++ (a ++ (u ++ (b ++ (t ++ c))))).length + v.length⟩]) := by
  obtain ⟨o, _, c₁, _, rfl, rfl, ho, h⟩ := parse_seq.mp h
  obtain ⟨a, _, rfl, ha, h⟩ := parse_spacesThen.mp h
  obtain ⟨u, _, _, rfl, rfl, hu, h⟩ := parse_nameThen.mp h
  obtain ⟨b, _, rfl, hb, h⟩ := parse_spaces1Then.mp h
  obtain ⟨t, _, _, rfl, rfl, ht, h⟩ := parse_nameThen.mp h
  obtain ⟨c, v, rfl, hc, h⟩ := parse_spacesThen.mp h
  obtain ⟨d, rfl, hd⟩ := parse_group.mp h
  obtain ⟨ps, hps⟩ := parse_columnsTail.mp ⟨d, hd⟩
  obtain ⟨hcomma, rfl⟩ := parse_optComma.mp ho
  refine ⟨o, a, u, b, t, c, v, d, ps, rfl, hcomma, ha, hu, hb, ht, hc, hps, fun x hx => ?_, ?_⟩
  · have hgroups : (columnsTailRegex 4).groups = [4] := by decide
    exact List.mem_singleton.mp (hgroups ▸ hd.mem_groups x hx)
  · simp [Nat.add_assoc]

end Matches

/-! ## Lists -/

section Lists

variable {o a n b t c v w : Bytes} {ps pairs : List (Bytes × Bytes)}

/-- The further pairs start with a comma, if there are any. -/
theorem ValueTypeTail.head (h : ValueTypeTail ps v) :
    ∀ z ∈ v.head?, ¬IsSpace z ∧ ¬IsNameByte z := by
  cases h with
  | nil => exact nofun
  | cons =>
    rintro z ⟨⟩
    decide

theorem exists_parse_valueType (ho : o = [] ∨ o = [comma]) (ha : Spaces a) (hn : IsName n)
    (hb : b ≠ [] ∧ Spaces b) (ht : IsName t) (hc : Spaces c) (hv : ValueTypeTail ps v) :
    ∃ cs, Parse parserRegex.valueType.body 0 (o ++ (a ++ (n ++ (b ++ (t ++ (c ++ v)))))) cs := by
  obtain ⟨d, hd⟩ := (parse_columnsTail (n := 4)
    (i := 0 + o.length + a.length + n.length + b.length + t.length + c.length)).mpr ⟨ps, hv⟩
  have htype := (parse_nameThen (n := 2)).mpr ⟨t, c ++ v, _, rfl, rfl, ht,
    parse_spacesThen.mpr ⟨c, v, rfl, hc, .group 3 hd⟩⟩
  have hname := (parse_nameThen (n := 1)).mpr ⟨n, b ++ (t ++ (c ++ v)), _, rfl, rfl, hn,
    parse_spaces1Then.mpr ⟨b, _, rfl, hb, htype⟩⟩
  exact ⟨_, .seq (parse_optComma.mpr ⟨ho, rfl⟩) (parse_spacesThen.mpr ⟨a, _, rfl, ha, hname⟩)⟩

/-- **One pair is read**, and the cursor moves to the comma behind it. -/
theorem column_eq (ho : o = [] ∨ o = [comma]) (ha : Spaces a) (hn : IsName n)
    (hb : b ≠ [] ∧ Spaces b) (ht : IsName t) (hc : Spaces c) (hv : ValueTypeTail ps v) :
    column (o ++ (a ++ (n ++ (b ++ (t ++ (c ++ v)))))) = some (n, t, v) := by
  obtain ⟨cs, hcs⟩ := exists_parse_valueType ho ha hn hb ht hc hv
  obtain ⟨m, hm, hparse⟩ := regexec_whole rfl hcs
  obtain ⟨o', a', n', b', t', c', v', d, ps', heq, ho', ha', hn', hb', ht', hc', hv', hd, hcaps⟩ :=
    parse_valueType hparse
  -- each part ends where a byte of another kind starts, so the match is the only one
  obtain ⟨rfl, h₁⟩ := append_inj_of_all (p := (· = comma)) (eq_comma_of_mem ho)
    (eq_comma_of_mem ho') (ha.head_ne_comma hn) (ha'.head_ne_comma hn') heq
  obtain ⟨rfl, h₂⟩ := append_inj_of_all (p := IsSpace) ha ha' hn.head hn'.head h₁
  obtain ⟨rfl, h₃⟩ := append_inj_of_all (p := IsNameByte) hn.2 hn'.2 (hb.2.head_of_ne_nil hb.1)
    (hb'.2.head_of_ne_nil hb'.1) h₂
  obtain ⟨rfl, h₄⟩ := append_inj_of_all (p := IsSpace) hb.2 hb'.2 ht.head ht'.head h₃
  obtain ⟨rfl, h₅⟩ := append_inj_of_all (p := IsNameByte) ht.2 ht'.2
    (hc.head_append fun z hz => (hv.head z hz).2) (hc'.head_append fun z hz => (hv'.head z hz).2) h₄
  obtain ⟨rfl, rfl⟩ := append_inj_of_all (p := IsSpace) hc hc' (fun z hz => (hv.head z hz).1)
    (fun z hz => (hv'.head z hz).1) h₅
  have hfind : ∀ g, g ≠ 4 → d.reverse.find? (fun x => x.group = g) = none := fun g hg =>
    List.find?_eq_none.mpr fun x hx => by simp [hd x (List.mem_reverse.mp hx), Ne.symm hg]
  have hname : m.group 1 = some ((o ++ a).length, (o ++ a).length + n.length) := by
    simp [RegMatch.group, hcaps, hfind]
  have htype : m.group 2 = some ((o ++ (a ++ (n ++ b))).length,
      (o ++ (a ++ (n ++ b))).length + t.length) := by
    simp [RegMatch.group, hcaps, hfind]
  have htail : m.group 3 = some ((o ++ (a ++ (n ++ (b ++ (t ++ c))))).length,
      (o ++ (a ++ (n ++ (b ++ (t ++ c))))).length + v.length) := by
    simp [RegMatch.group, hcaps]
  have hslice₁ := slice_append (o ++ a) n (b ++ (t ++ (c ++ v)))
  have hslice₂ := slice_append (o ++ (a ++ (n ++ b))) t (c ++ v)
  have hdrop : (o ++ (a ++ (n ++ (b ++ (t ++ c)))) ++ v).drop
      (o ++ (a ++ (n ++ (b ++ (t ++ c))))).length = v := List.drop_left
  simp only [List.append_assoc] at hslice₁ hslice₂ hdrop
  rw [column, hm]
  simp only [Option.bind_eq_bind, Option.bind_some, hname, htype, htail, hslice₁, hslice₂, hdrop]
  rfl

/-- **The pairs of a list are read in order.** -/
theorem columnsFrom_eq (ho : o = [] ∨ o = [comma]) (ha : Spaces a) (hn : IsName n)
    (hb : b ≠ [] ∧ Spaces b) (ht : IsName t) (hc : Spaces c) (hv : ValueTypeTail ps v) :
    columnsFrom parserRegex (ps.length + 1) (o ++ (a ++ (n ++ (b ++ (t ++ (c ++ v)))))) =
      .ok (((n, t) :: ps).map fun p => some p.1, ((n, t) :: ps).map fun p => some p.2, false) := by
  induction hv generalizing o a n b t c with
  | nil =>
    rw [columnsFrom, nextColumn_eq, column_eq ho ha hn hb ht hc .nil]
    rfl
  | cons ha₂ hn₂ hb₂ ht₂ hc₂ hw₂ ih =>
    have hrest := ih (o := [comma]) (Or.inr rfl) ha₂ hn₂ hb₂ ht₂ hc₂
    rw [List.singleton_append] at hrest
    rw [columnsFrom, nextColumn_eq, column_eq ho ha hn hb ht hc (.cons ha₂ hn₂ hb₂ ht₂ hc₂ hw₂),
      ok_bind]
    show (columnsFrom parserRegex (_ + 1) _ >>= _) = _
    rw [hrest]
    rfl

/-- A name has no delimiters. -/
theorem IsName.delimits (hn : IsName n) : Delimits comma n 0 :=
  delimits_of_bytes (by decide) (by decide) (by decide) hn.2

/-- A comma in the text of further pairs stands before each of them. -/
theorem ValueTypeTail.delimits (h : ValueTypeTail ps v) : Delimits comma v ps.length := by
  have hspaces : ∀ {w : Bytes}, Spaces w → Delimits comma w 0 := delimits_spaces (by decide)
  induction h with
  | nil => exact delimits_nil comma
  | @cons _ _ _ _ _ ps _ ha hn hb ht hc _ ih =>
    have hcomma : Delimits comma [comma] 1 := delimits_byte (by decide) (by decide)
    have hpair := hcomma.append ((hspaces ha).append (hn.delimits.append ((hspaces hb.2).append
      (ht.delimits.append ((hspaces hc).append ih)))))
    have hlength : 1 + (0 + (0 + (0 + (0 + (0 + ps.length))))) = ps.length + 1 := by omega
    rw [hlength] at hpair
    exact hpair

/-- **A list of pairs is read completely.** -/
theorem parseValueType_eq (h : ValueTypeList pairs w) :
    parseValueType parserRegex w = .ok (pairs.map Prod.snd, pairs.map Prod.fst, false) := by
  obtain ⟨n, b, t, c, ps, v, rfl, hn, hb, ht, hc, hv, rfl⟩ := h
  have hspaces : ∀ {w : Bytes}, Spaces w → Delimits comma w 0 := delimits_spaces (by decide)
  have hcount : countDelimiter (n ++ (b ++ (t ++ (c ++ v)))) comma = ps.length := by
    have hlist := hn.delimits.append ((hspaces hb.2).append (ht.delimits.append
      ((hspaces hc).append hv.delimits)))
    simpa using hlist.countDelimiter
  have hcolumns := columnsFrom_eq (o := []) (a := []) (Or.inl rfl) spaces_nil hn hb ht hc hv
  have hcopy : ∀ f : Bytes × Bytes → Bytes,
      copyStringArray (((n, t) :: ps).map fun p => some (f p)) = .ok (((n, t) :: ps).map f) := by
    intro f
    rw [← copyStringArray_map_some (((n, t) :: ps).map f), List.map_map]
    rfl
  rw [List.nil_append, List.nil_append] at hcolumns
  rw [parseValueType, hcount, hcolumns, ok_bind]
  show (copyStringArray (((n, t) :: ps).map fun p => some p.2) >>= _) = _
  rw [hcopy Prod.snd, ok_bind, hcopy Prod.fst, ok_bind]
  rfl

end Lists

/-! ## Statements -/

section Statements

variable {word t name name' columns columns' : Bytes} {pairs : List (Bytes × Bytes)}

theorem ColumnsText.head (h : ColumnsText columns) (x : Bytes) :
    ∀ z ∈ (columns ++ x).head?, ¬IsSpace z := by
  obtain ⟨_, n, b, u, c, ps, v, -, hn, -, -, -, -, rfl⟩ := columnsText_iff.mp h
  rw [List.append_assoc]
  exact hn.head

/-- The parts of a definition are unique: the columns end at the last closing parenthesis. -/
theorem DefinitionShape.unique (hword : ∀ b ∈ word, 65 ≤ b ∧ b ≤ 90) (hne : word ≠ [])
    (h : DefinitionShape word t name columns) (h' : DefinitionShape word t name' columns') :
    name = name' ∧ columns = columns' := by
  obtain ⟨a, k, b, l, c, d, e, f, ha, hk, hb, hl, hc, hname, hd, he, hcolumns, hf, rfl⟩ := h
  obtain ⟨a', k', b', l', c', d', e', f', ha', hk', hb', hl', hc', hname', hd', he', hcolumns', hf',
    heq⟩ := h'
  have h₁ := hk.append_inj hk' (letters_of_upper upper_create) (by decide) ha ha' heq
  have h₂ := hl.append_inj hl' (letters_of_upper hword) hne hb.2 hb'.2 h₁
  obtain ⟨-, h₃⟩ := append_inj_of_all (p := IsSpace) hc.2 hc'.2 hname.head hname'.head h₂
  have hparen : ∀ x : Bytes, ∀ z ∈ (openParen :: x).head?, ¬IsSpace z ∧ ¬IsNameByte z := by
    rintro x z ⟨⟩
    decide
  obtain ⟨rfl, h₄⟩ := append_inj_of_all (p := IsNameByte) hname.2 hname'.2
    (hd.head_append fun z hz => (hparen _ z hz).2)
    (hd'.head_append fun z hz => (hparen _ z hz).2) h₃
  obtain ⟨-, h₅⟩ := append_inj_of_all (p := IsSpace) hd hd' (fun z hz => (hparen _ z hz).1)
    (fun z hz => (hparen _ z hz).1) h₄
  obtain ⟨-, h₆⟩ := append_inj_of_all (p := IsSpace) he he' (hcolumns.head _) (hcolumns'.head _)
    (List.cons.inj h₅).2
  have hbehind : ∀ {w : Bytes}, Spaces w → ∀ x ∈ w, x ≠ closeParen := by
    rintro w hw x hx rfl
    exact absurd (hw _ hx) (by decide)
  exact ⟨rfl, (append_inj_of_all_right (p := fun x => x ≠ closeParen) (not_not.mpr rfl) (hbehind hf)
    (hbehind hf') h₆).1⟩

/-- **The list that a statement declares is found.** -/
theorem definition_eq_of_shape (hword : ∀ b ∈ word, 65 ≤ b ∧ b ≤ 90) (hne : word ≠ [])
    (h : DefinitionShape word t name columns) :
    definition ⟨false, definitionRegex word, false⟩ t = some (name, columns) := by
  obtain ⟨cs, hcs⟩ := h.exists_parse hword
  obtain ⟨m, hm, -⟩ := regexec_whole (p := ⟨false, definitionRegex word, false⟩) rfl hcs
  have hspans := spans_of_parse (p := ⟨false, definitionRegex word, false⟩) rfl hcs
  obtain ⟨pre, w, post, name', columns', ht, hpre, hw, hshape, hdefinition⟩ :=
    definition_of_regexec hword hm
  rw [hspans.eq hm ht hpre hw] at hshape
  obtain ⟨rfl, rfl⟩ := h.unique hword hne hshape
  exact hdefinition

/-- A statement that the expression matches in full declares a list. -/
theorem exists_declarationShape {cs : List Capture} (hword : ∀ b ∈ word, 65 ≤ b ∧ b ≤ 90)
    (h : Parse (definitionRegex word) 0 t cs) : ∃ name pairs, DeclarationShape word t name pairs := by
  obtain ⟨a, k, b, l, c, name, d, e, columns, f, cs', ha, hk, hb, hl, hc, hname, hd, he, hcolumns,
    hf, ht, -⟩ := (parse_definitionRegex hword).mp h
  have htext : ColumnsText columns := ⟨_, cs', hcolumns⟩
  obtain ⟨pairs, hpairs⟩ := columnsText_iff.mp htext
  exact ⟨name, pairs, columns, hpairs, a, k, b, l, c, d, e, f, ha, hk, hb, hl, hc, hname, hd, he,
    htext, hf, ht⟩

end Statements

/-! ## Both parsers -/

/-- **A parser of declaration lists reads them completely.** A text that the expression matches in
full declares a list of pairs, and the parser returns 0 for the columns found in it, with the pairs
stored. Every text of columns that is found anywhere is such a list, so the definition parser never
fails to read one: it copies no missing name and does not report that. -/
structure ReadsCompletely (p : Pattern) (word : Bytes)
    (stored : Universe → List (Bytes × Bytes) → Universe)
    (parseTypes parseDefinition : Universe → Bytes → C Parsed) (failure : Bytes) : Prop where
  declared : ∀ t cs, Parse p.body 0 t cs → ∃ name pairs, DeclarationShape word t name pairs
  read : ∀ u t name pairs, DeclarationShape word t name pairs →
    ∃ columns, definition p t = some (name, columns) ∧
      parseTypes u columns = .ok (stored u pairs, none)
  found : ∀ u t name columns, definition p t = some (name, columns) →
    ∃ pairs, ValueTypeList pairs columns ∧ parseTypes u columns = .ok (stored u pairs, none)
  never_fails : ∀ u t, (∀ e, parseDefinition u t ≠ .error e) ∧
    ∀ u', parseDefinition u t ≠ .ok (u', some failure)

section Both

variable {word failure t name columns w : Bytes} {pairs : List (Bytes × Bytes)} {u u' : Universe}
  {stored : Universe → List (Bytes × Bytes) → Universe}
  {parseTypes parseDefinition : Universe → Bytes → C Parsed}

/-- Every text of columns that is found is a list of pairs. -/
theorem exists_valueTypeList (hword : ∀ b ∈ word, 65 ≤ b ∧ b ≤ 90)
    (h : definition ⟨false, definitionRegex word, false⟩ t = some (name, columns)) :
    ∃ pairs, ValueTypeList pairs columns := by
  obtain ⟨_, _, _, -, _, _, _, _, _, _, _, _, -, -, -, -, -, -, -, -, htext, -, -⟩ :=
    definition_eq_some hword h
  exact columnsText_iff.mp htext

theorem readsCompletely_of (hword : ∀ b ∈ word, 65 ≤ b ∧ b ≤ 90) (hne : word ≠ [])
    (hread : ∀ u pairs w, ValueTypeList pairs w → parseTypes u w = .ok (stored u pairs, none))
    (hfails : ∀ u t, (∀ e, parseDefinition u t ≠ .error e) ∧
      ∀ u', parseDefinition u t ≠ .ok (u', some failure)) :
    ReadsCompletely ⟨false, definitionRegex word, false⟩ word stored parseTypes parseDefinition
      failure where
  declared _ _ h := exists_declarationShape hword h
  read := by
    rintro u t name pairs ⟨columns, hpairs, hshape⟩
    exact ⟨columns, definition_eq_of_shape hword hne hshape, hread u pairs columns hpairs⟩
  found := by
    intro u t name columns h
    obtain ⟨pairs, hpairs⟩ := exists_valueTypeList hword h
    exact ⟨pairs, hpairs, hread u pairs columns hpairs⟩
  never_fails := hfails

theorem parseUniverseValueType_eq (u : Universe) (h : ValueTypeList pairs w) :
    parseUniverseValueType parserRegex u w =
      .ok ({ u with keyDataTypeNames := pairs.map Prod.snd, keyDataNames := pairs.map Prod.fst },
        none) := by
  rw [parseUniverseValueType, parseValueType_eq h]
  rfl

theorem parseAttributesValueType_eq (u : Universe) (h : ValueTypeList pairs w) :
    parseAttributesValueType parserRegex u w =
      .ok ({ u with
        attributeDataTypeNames := pairs.map Prod.snd, attributeDataNames := pairs.map Prod.fst },
        none) := by
  rw [parseAttributesValueType, parseValueType_eq h]
  rfl

/-- The parser of the definition of a universe returns 0 or one of two texts. -/
theorem parseUniverseDefinition_cases (u : Universe) (t : Bytes) : ∃ u' failed,
    parseUniverseDefinition parserRegex u t = .ok (u', failed) ∧ (failed = none ∨
      failed = some (lit "Error parsing the universe definition. Usage: CREATE UNIVERSE <universe_name>(<value_name_1> <data_type_1>);") ∨
      failed = some (lit "Error parsing the universe definition: <universe_name> too long (max 256).")) := by
  rw [parseUniverseDefinition_eq]
  cases hdefinition : definition parserRegex.universeDefinition t with
  | none => exact ⟨u, _, rfl, Or.inr (Or.inl rfl)⟩
  | some d =>
    obtain ⟨name, columns⟩ := d
    obtain ⟨pairs, hpairs⟩ := exists_valueTypeList upper_universe hdefinition
    dsimp only
    split_ifs
    · exact ⟨u, _, rfl, Or.inr (Or.inr rfl)⟩
    · exact ⟨_, none, parseUniverseValueType_eq _ hpairs, Or.inl rfl⟩

/-- The parser of the definition of attributes returns 0 or one of two texts. -/
theorem parseAttributesDefinition_cases (u : Universe) (t : Bytes) : ∃ u' failed,
    parseAttributesDefinition parserRegex u t = .ok (u', failed) ∧ (failed = none ∨
      failed = some (lit "Error parsing the attributes definition. Usage: CREATE ATTRIBUTES <universe_name>(<value_name_1> <data_type_1>);") ∨
      failed = some (lit "Error parsing the attributes definition: Incorrect <universe_name>")) := by
  rw [parseAttributesDefinition_eq]
  cases hdefinition : definition parserRegex.attributesDefinition t with
  | none => exact ⟨u, _, rfl, Or.inr (Or.inl rfl)⟩
  | some d =>
    obtain ⟨name, columns⟩ := d
    obtain ⟨pairs, hpairs⟩ := exists_valueTypeList upper_attributes hdefinition
    dsimp only
    split_ifs
    · exact ⟨u, _, rfl, Or.inr (Or.inr rfl)⟩
    · exact ⟨_, none, parseAttributesValueType_eq _ hpairs, Or.inl rfl⟩

/-- A parser that returns 0 or one of two texts does not return another one. -/
theorem never_fails_of {r : C Parsed} {text₁ text₂ : Bytes}
    (h : ∃ u' failed, r = .ok (u', failed) ∧
      (failed = none ∨ failed = some text₁ ∨ failed = some text₂))
    (h₁ : text₁ ≠ failure) (h₂ : text₂ ≠ failure) :
    (∀ e, r ≠ .error e) ∧ ∀ u', r ≠ .ok (u', some failure) := by
  obtain ⟨u', failed, rfl, hfailed⟩ := h
  refine ⟨nofun, ?_⟩
  rintro _ ⟨⟩
  rcases hfailed with hnone | htext | htext
  · exact nomatch hnone
  · exact h₁ (Option.some.inj htext).symm
  · exact h₂ (Option.some.inj htext).symm

end Both

/-- **Declaration lists are read completely**, those of `CREATE UNIVERSE` and those of
`CREATE ATTRIBUTES`. -/
theorem declarations_readCompletely :
    ReadsCompletely parserRegex.universeDefinition (lit "UNIVERSE")
      (fun u pairs =>
        { u with keyDataTypeNames := pairs.map Prod.snd, keyDataNames := pairs.map Prod.fst })
      (parseUniverseValueType parserRegex) (parseUniverseDefinition parserRegex)
      (lit "Error parsing the universe definition. Usage: CREATE UNIVERSE <universe_name>(<value_name_1> <data_type_1>, <value_name_2> <data_type_2>);") ∧
    ReadsCompletely parserRegex.attributesDefinition (lit "ATTRIBUTES")
      (fun u pairs =>
        { u with
          attributeDataTypeNames := pairs.map Prod.snd, attributeDataNames := pairs.map Prod.fst })
      (parseAttributesValueType parserRegex) (parseAttributesDefinition parserRegex)
      (lit "Error parsing the attribute values in the attribute definition. Usage: CREATE ATTRIBUTES <universe_name>(<value_name_1> <data_type_1>, <value_name_2> <data_type_2>);") := by
  constructor
  · refine readsCompletely_of upper_universe (by decide)
      (fun u pairs w h => parseUniverseValueType_eq u h) fun u t => ?_
    exact never_fails_of (parseUniverseDefinition_cases u t) (by decide +kernel) (by decide +kernel)
  · refine readsCompletely_of upper_attributes (by decide)
      (fun u pairs w h => parseAttributesValueType_eq u h) fun u t => ?_
    exact never_fails_of (parseAttributesDefinition_cases u t) (by decide +kernel)
      (by decide +kernel)

end SetQL
