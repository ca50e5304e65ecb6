import SetQL.Parser.Shapes
import SetQL.Parser.Readings

/-!
# The shapes of statements

The matches of the expressions of insertions and of `CREATE SET`. The expression of insertions is
not anchored: it finds a statement within any text. The expression of `CREATE SET` matches the
whole text, so a text is not both.

## Main definitions

* `InsertShape w items name`: the text is `INSERT { items } INTO name`
* `CreateSetShape w name`: the text is `CREATE SET name`
* `DefinitionShape word w name columns`: the text is `CREATE word name(columns)`

## Main results

* `insertion_eq_some`: an insertion is found within the text
* `createdSet_eq_some`: a set is created by the whole text
* `definition_eq_some`: a definition is found within the text
* `insertion_eq_none_of_createdSet`: a text is not both
-/

namespace SetQL

/-- An opening brace. -/
def openBrace : UInt8 := 123

/-- A closing brace. -/
def closeBrace : UInt8 := 125

/-- The text is `INSERT { items } INTO name`. -/
def InsertShape (w items name : Bytes) : Prop :=
  ∃ a k b c l d e, Spaces a ∧ Keyword (lit "INSERT") k ∧ Spaces b ∧
    (items ≠ [] ∧ semicolon ∉ items) ∧ Spaces c ∧ Keyword (lit "INTO") l ∧ (d ≠ [] ∧ Spaces d) ∧
    IsName name ∧ Spaces e ∧
    w = a ++ (k ++ (b ++ openBrace :: (items ++ closeBrace :: (c ++ (l ++ (d ++ (name ++ e)))))))

/-- The text is `CREATE SET name`. -/
def CreateSetShape (w name : Bytes) : Prop :=
  ∃ a k b l c d, Spaces a ∧ Keyword (lit "CREATE") k ∧ (b ≠ [] ∧ Spaces b) ∧
    Keyword (lit "SET") l ∧ (c ≠ [] ∧ Spaces c) ∧ IsName name ∧ Spaces d ∧
    w = a ++ (k ++ (b ++ (l ++ (c ++ (name ++ d)))))

/-- The text of columns, each a name and a type, with commas between them. -/
def ColumnsText (w : Bytes) : Prop :=
  ∃ i cs, Parse (columnThen (spacesThen (columnsTailRegex 3))) i w cs

/-- The text is `CREATE word name(columns)`. -/
def DefinitionShape (word w name columns : Bytes) : Prop :=
  ∃ a k b l c d e f, Spaces a ∧ Keyword (lit "CREATE") k ∧ (b ≠ [] ∧ Spaces b) ∧ Keyword word l ∧
    (c ≠ [] ∧ Spaces c) ∧ IsName name ∧ Spaces d ∧ Spaces e ∧ ColumnsText columns ∧ Spaces f ∧
    w = a ++ (k ++ (b ++ (l ++ (c ++ (name ++ (d ++ openParen :: (e ++ (columns ++ closeParen :: f))))))))

/-! ## Bytes -/

theorem upper_insert : ∀ b ∈ lit "INSERT", 65 ≤ b ∧ b ≤ 90 := by decide +kernel

theorem upper_into : ∀ b ∈ lit "INTO", 65 ≤ b ∧ b ≤ 90 := by decide +kernel

theorem upper_create : ∀ b ∈ lit "CREATE", 65 ≤ b ∧ b ≤ 90 := by decide +kernel

theorem upper_set : ∀ b ∈ lit "SET", 65 ≤ b ∧ b ≤ 90 := by decide +kernel

theorem letters_of_upper {word : Bytes} (h : ∀ b ∈ word, 65 ≤ b ∧ b ≤ 90) :
    ∀ b ∈ word, IsLetter b := fun b hb => Or.inr (h b hb)

theorem contains_openBrace (b : UInt8) :
    (literal true openBrace).contains b = true ↔ b = openBrace :=
  contains_literal_iff (by decide) true b

theorem contains_closeBrace (b : UInt8) :
    (literal true closeBrace).contains b = true ↔ b = closeBrace :=
  contains_literal_iff (by decide) true b

theorem not_isSpace_openBrace : ¬ IsSpace openBrace := by decide

theorem not_isNameByte_openBrace : ¬ IsNameByte openBrace := by decide

/-! ## Pieces -/

section Pieces

variable {r : Regex} {i n : ℕ} {w : Bytes} {cs : List Capture}

/-- A byte that is matched by one set only, and then a match. -/
theorem parse_byteThen {x : ByteSet} {c : UInt8} (hx : ∀ b, x.contains b = true ↔ b = c) :
    Parse (.seq (.set x) r) i w cs ↔ ∃ v, w = c :: v ∧ Parse r (i + 1) v cs := by
  rw [parse_seq]
  simp only [parse_set, hx]
  constructor
  · rintro ⟨u, v, c', d, rfl, rfl, ⟨b, rfl, rfl, rfl⟩, hr⟩
    exact ⟨v, rfl, hr⟩
  · rintro ⟨v, rfl, hr⟩
    exact ⟨[c], v, [], cs, rfl, rfl, ⟨_, rfl, rfl, rfl⟩, hr⟩

/-- A group of a name, and then a match. -/
theorem parse_nameThen : Parse (.seq (.group n (.plus (.set nameSet))) r) i w cs ↔
    ∃ u v d, w = u ++ v ∧ cs = ⟨n, i, i + u.length⟩ :: d ∧ IsName u ∧ Parse r (i + u.length) v d := by
  rw [parse_groupThen]
  simp only [contains_nameSet]
  rfl

/-- A group without a semicolon, and then a match. -/
theorem parse_contentThen : Parse (.seq (.group n (.plus (.set contentSet))) r) i w cs ↔
    ∃ u v d, w = u ++ v ∧ cs = ⟨n, i, i + u.length⟩ :: d ∧ (u ≠ [] ∧ semicolon ∉ u) ∧
      Parse r (i + u.length) v d := by
  have hcontent : ∀ c : Bytes, (∀ b ∈ c, b ≠ semicolon) ↔ semicolon ∉ c := fun c =>
    ⟨fun h hm => h _ hm rfl, fun h b hb heq => h (heq ▸ hb)⟩
  rw [parse_groupThen]
  simp only [contains_contentSet, hcontent]

/-- The matches of an insertion, and where its groups are. -/
theorem parse_insertRegex : Parse insertRegex i w cs ↔
    ∃ a k b items c l d name e, Spaces a ∧ Keyword (lit "INSERT") k ∧ Spaces b ∧
      (items ≠ [] ∧ semicolon ∉ items) ∧ Spaces c ∧ Keyword (lit "INTO") l ∧ (d ≠ [] ∧ Spaces d) ∧
      IsName name ∧ Spaces e ∧
      w = a ++ (k ++ (b ++ openBrace :: (items ++ closeBrace :: (c ++ (l ++ (d ++ (name ++ e))))))) ∧
      cs = [⟨1, i + a.length + k.length + b.length + 1,
              i + a.length + k.length + b.length + 1 + items.length⟩,
            ⟨2, i + a.length + k.length + b.length + 1 + items.length + 1 + c.length + l.length +
                d.length,
              i + a.length + k.length + b.length + 1 + items.length + 1 + c.length + l.length +
                d.length + name.length⟩] := by
  rw [insertRegex, parse_spacesThen]
  simp only [parse_keyword upper_insert, parse_keyword upper_into, parse_spacesThen,
    parse_byteThen (x := literal true 123) contains_openBrace,
    parse_byteThen (x := literal true 125) contains_closeBrace,
    parse_contentThen, parse_nameThen, parse_spaces1Then, parse_spaces]
  constructor
  · rintro ⟨a, _, rfl, ha, k, _, rfl, hk, b, _, rfl, hb, _, rfl, items, _, _, rfl, rfl, hitems, _,
      rfl, c, _, rfl, hc, l, _, rfl, hl, d, _, rfl, hd, name, e, _, rfl, rfl, hname, he, rfl⟩
    exact ⟨a, k, b, items, c, l, d, name, e, ha, hk, hb, hitems, hc, hl, hd, hname, he, rfl, rfl⟩
  · rintro ⟨a, k, b, items, c, l, d, name, e, ha, hk, hb, hitems, hc, hl, hd, hname, he, rfl, rfl⟩
    exact ⟨a, _, rfl, ha, k, _, rfl, hk, b, _, rfl, hb, _, rfl, items, _, _, rfl, rfl, hitems, _,
      rfl, c, _, rfl, hc, l, _, rfl, hl, d, _, rfl, hd, name, e, _, rfl, rfl, hname, he, rfl⟩

/-- The matches of the creation of a set, and where its group is. -/
theorem parse_createSetRegex : Parse parserRegex.createSet.body i w cs ↔
    ∃ a k b l c name d, Spaces a ∧ Keyword (lit "CREATE") k ∧ (b ≠ [] ∧ Spaces b) ∧
      Keyword (lit "SET") l ∧ (c ≠ [] ∧ Spaces c) ∧ IsName name ∧ Spaces d ∧
      w = a ++ (k ++ (b ++ (l ++ (c ++ (name ++ d))))) ∧
      cs = [⟨1, i + a.length + k.length + b.length + l.length + c.length,
              i + a.length + k.length + b.length + l.length + c.length + name.length⟩] := by
  show Parse (spacesThen _) i w cs ↔ _
  simp only [parse_keyword upper_create, parse_keyword upper_set, parse_spacesThen,
    parse_nameThen, parse_spaces1Then, parse_spaces]
  constructor
  · rintro ⟨a, _, rfl, ha, k, _, rfl, hk, b, _, rfl, hb, l, _, rfl, hl, c, _, rfl, hc, name, d, _,
      rfl, rfl, hname, hd, rfl⟩
    exact ⟨a, k, b, l, c, name, d, ha, hk, hb, hl, hc, hname, hd, rfl, rfl⟩
  · rintro ⟨a, k, b, l, c, name, d, ha, hk, hb, hl, hc, hname, hd, rfl, rfl⟩
    exact ⟨a, _, rfl, ha, k, _, rfl, hk, b, _, rfl, hb, l, _, rfl, hl, c, _, rfl, hc, name, d, _,
      rfl, rfl, hname, hd, rfl⟩

/-- A group of any expression, and then a match. -/
theorem parse_regexThen {q : Regex} : Parse (.seq (.group n q) r) i w cs ↔
    ∃ u v c d, w = u ++ v ∧ cs = c ++ ⟨n, i, i + u.length⟩ :: d ∧ Parse q i u c ∧
      Parse r (i + u.length) v d := by
  rw [parse_seq]
  simp only [parse_group]
  constructor
  · rintro ⟨u, v, _, d, rfl, rfl, ⟨c, rfl, hq⟩, hr⟩
    exact ⟨u, v, c, d, rfl, by simp, hq, hr⟩
  · rintro ⟨u, v, c, d, rfl, rfl, hq, hr⟩
    exact ⟨u, v, c ++ [⟨n, i, i + u.length⟩], d, rfl, by simp, ⟨c, rfl, hq⟩, hr⟩

/-- The matches of a definition, and where its groups are. -/
theorem parse_definitionRegex {word : Bytes} (hword : ∀ b ∈ word, 65 ≤ b ∧ b ≤ 90) :
    Parse (definitionRegex word) i w cs ↔
    ∃ a k b l c name d e columns f cs', Spaces a ∧ Keyword (lit "CREATE") k ∧ (b ≠ [] ∧ Spaces b) ∧
      Keyword word l ∧ (c ≠ [] ∧ Spaces c) ∧ IsName name ∧ Spaces d ∧ Spaces e ∧
      Parse (columnThen (spacesThen (columnsTailRegex 3))) (i + a.length + k.length + b.length +
        l.length + c.length + name.length + d.length + 1 + e.length) columns cs' ∧ Spaces f ∧
      w = a ++ (k ++ (b ++ (l ++ (c ++ (name ++ (d ++ openParen :: (e ++ (columns ++ closeParen :: f)))))))) ∧
      cs = ⟨1, i + a.length + k.length + b.length + l.length + c.length,
              i + a.length + k.length + b.length + l.length + c.length + name.length⟩ ::
        (cs' ++ [⟨2, i + a.length + k.length + b.length + l.length + c.length + name.length +
            d.length + 1 + e.length, i + a.length + k.length + b.length + l.length + c.length +
            name.length + d.length + 1 + e.length + columns.length⟩]) := by
  rw [definitionRegex, parse_spacesThen]
  simp only [parse_keyword upper_create, parse_keyword hword, parse_spacesThen, parse_nameThen,
    parse_spaces1Then, parse_charThen (c := '(') isPunctuation_openParen, parse_regexThen (n := 2),
    parse_charThen (c := ')') isPunctuation_closeParen, parse_spaces]
  constructor
  · rintro ⟨a, _, rfl, ha, k, _, rfl, hk, b, _, rfl, hb, l, _, rfl, hl, c, _, rfl, hc, name, _, _,
      rfl, rfl, hname, d, _, rfl, hd, _, rfl, e, _, rfl, he, columns, _, cs', _, rfl, rfl, hcolumns,
      f, rfl, hf, rfl⟩
    exact ⟨a, k, b, l, c, name, d, e, columns, f, cs', ha, hk, hb, hl, hc, hname, hd, he, hcolumns,
      hf, rfl, rfl⟩
  · rintro ⟨a, k, b, l, c, name, d, e, columns, f, cs', ha, hk, hb, hl, hc, hname, hd, he, hcolumns,
      hf, rfl, rfl⟩
    exact ⟨a, _, rfl, ha, k, _, rfl, hk, b, _, rfl, hb, l, _, rfl, hl, c, _, rfl, hc, name, _, _,
      rfl, rfl, hname, d, _, rfl, hd, _, rfl, e, _, rfl, he, columns, _, cs', _, rfl, rfl, hcolumns,
      f, rfl, hf, rfl⟩

end Pieces

/-! ## Statements -/

section Statements

variable {p : Pattern} {s u c v items name : Bytes} {m : RegMatch} {g : ℕ}

theorem slice_append (u c v : Bytes) : slice (u ++ (c ++ v)) (u.length, u.length + c.length) = c := by
  rw [slice, ← List.append_assoc, ← List.length_append, List.take_left, List.drop_left]

/-- The part of the text that a match records as a group. -/
theorem found_of_capture (h : regexec p s = some m) (hg : g ≠ 0)
    (hcs : m.captures.reverse.find? (fun x => x.group = g) = some ⟨g, u.length, u.length + c.length⟩)
    (hs : s = u ++ (c ++ v)) : found p s g = some c := by
  rw [found_of_regexec h, RegMatch.group, if_neg hg, hcs, hs]
  exact congrArg some (slice_append u c v)

/-- A match is a part of the text. -/
theorem exists_parse_of_regexec (h : regexec p s = some m) : ∃ pre w post, s = pre ++ (w ++ post) ∧
    pre.length = m.start ∧ w.length = m.stop - m.start ∧ Parse p.body pre.length w m.captures := by
  obtain ⟨-, hle, hstop, -, hparse⟩ := regexec_eq_some h
  have hlen : (s.take m.start).length = m.start := by
    rw [List.length_take]
    omega
  refine ⟨s.take m.start, (s.drop m.start).take (m.stop - m.start),
    (s.drop m.start).drop (m.stop - m.start), ?_, hlen, ?_, ?_⟩
  · rw [List.take_append_drop, List.take_append_drop]
  · rw [List.length_take, List.length_drop]
    omega
  · rw [hlen]
    exact hparse

/-- The insertion that a match reads is the text matched. -/
theorem insertion_of_regexec (hm : regexec parserRegex.universeInsert s = some m) :
    ∃ pre w post items name, s = pre ++ (w ++ post) ∧ pre.length = m.start ∧
      w.length = m.stop - m.start ∧ InsertShape w items name ∧ insertion s = some (items, name) := by
  obtain ⟨pre, w, post, hs, hstart, hstop, hparse⟩ := exists_parse_of_regexec hm
  obtain ⟨a, k, b, items, c, l, d, name, e, ha, hk, hb, hitems, hc, hl, hd, hname, he, hw, hcs⟩ :=
    parse_insertRegex.mp hparse
  have h₁ : found parserRegex.universeInsert s 1 = some items := by
    refine found_of_capture (u := pre ++ (a ++ (k ++ (b ++ [openBrace]))))
      (v := closeBrace :: (c ++ (l ++ (d ++ (name ++ e)))) ++ post) hm (by decide) ?_ ?_
    · simp [hcs, Nat.add_assoc]
    · simp [hs, hw]
  have h₂ : found parserRegex.universeInsert s 2 = some name := by
    refine found_of_capture
      (u := pre ++ (a ++ (k ++ (b ++ (openBrace :: (items ++ (closeBrace :: (c ++ (l ++ d)))))))))
      (v := e ++ post) hm (by decide) ?_ ?_
    · simp [hcs, Nat.add_assoc, Nat.add_comm, Nat.add_left_comm]
    · simp [hs, hw]
  refine ⟨pre, w, post, items, name, hs, hstart, hstop,
    ⟨a, k, b, c, l, d, e, ha, hk, hb, hitems, hc, hl, hd, hname, he, hw⟩, ?_⟩
  rw [insertion, h₁, h₂]
  rfl

/-- **An insertion is found within the text.** -/
theorem insertion_eq_some (h : insertion s = some (items, name)) :
    ∃ pre w post, s = pre ++ (w ++ post) ∧ InsertShape w items name := by
  cases hm : regexec parserRegex.universeInsert s with
  | none => rw [insertion, found_of_eq_none hm] at h; cases h
  | some m =>
    obtain ⟨pre, w, post, items', name', hs, -, -, hshape, hins⟩ := insertion_of_regexec hm
    obtain ⟨rfl, rfl⟩ := Prod.mk.inj (Option.some.inj (hins.symm.trans h))
    exact ⟨pre, w, post, hs, hshape⟩

/-- **A set is created by the whole text.** -/
theorem createdSet_eq_some (h : createdSet s = some name) : CreateSetShape s name := by
  cases hm : regexec parserRegex.createSet s with
  | none => rw [createdSet, found_of_eq_none hm] at h; cases h
  | some m =>
    obtain ⟨a, k, b, l, c, name', d, ha, hk, hb, hl, hc, hname, hd, hs, hcs⟩ :=
      parse_createSetRegex.mp (regexec_anchored_eq_some rfl rfl hm)
    have h₁ : found parserRegex.createSet s 1 = some name' := by
      refine found_of_capture (u := a ++ (k ++ (b ++ (l ++ c)))) (v := d) hm (by decide) ?_
        (by simp [hs])
      simp [hcs, Nat.add_assoc]
    obtain rfl := Option.some.inj (h₁.symm.trans h)
    exact ⟨a, k, b, l, c, d, ha, hk, hb, hl, hc, hname, hd, hs⟩

/-- The definition that a match reads is the text matched. -/
theorem definition_of_regexec {word : Bytes} (hword : ∀ b ∈ word, 65 ≤ b ∧ b ≤ 90)
    (hm : regexec ⟨false, definitionRegex word, false⟩ s = some m) :
    ∃ pre w post name columns, s = pre ++ (w ++ post) ∧ pre.length = m.start ∧
      w.length = m.stop - m.start ∧ DefinitionShape word w name columns ∧
      definition ⟨false, definitionRegex word, false⟩ s = some (name, columns) := by
  obtain ⟨pre, w, post, hs, hstart, hstop, hparse⟩ := exists_parse_of_regexec hm
  obtain ⟨a, k, b, l, c, name, d, e, columns, f, cs', ha, hk, hb, hl, hc, hname, hd, he, hcolumns,
    hf, hw, hcs⟩ := (parse_definitionRegex hword).mp hparse
  have h₁ : found ⟨false, definitionRegex word, false⟩ s 1 = some name := by
    refine found_of_capture (u := pre ++ (a ++ (k ++ (b ++ (l ++ c)))))
      (v := d ++ openParen :: (e ++ (columns ++ closeParen :: f)) ++ post) hm (by decide) ?_ ?_
    · have hother : cs'.reverse.find? (fun x => x.group = 1) = none := by
        refine List.find?_eq_none.mpr fun x hx => ?_
        have hgroup := hcolumns.mem_groups x (List.mem_reverse.mp hx)
        have : (columnThen (spacesThen (columnsTailRegex 3))).groups = [3] := by decide
        rw [this, List.mem_singleton] at hgroup
        simp [hgroup]
      rw [hcs]
      simp [hother, Nat.add_assoc]
    · simp [hs, hw]
  have h₂ : found ⟨false, definitionRegex word, false⟩ s 2 = some columns := by
    refine found_of_capture
      (u := pre ++ (a ++ (k ++ (b ++ (l ++ (c ++ (name ++ (d ++ (openParen :: e)))))))))
      (v := closeParen :: f ++ post) hm (by decide) ?_ ?_
    · rw [hcs]
      simp [Nat.add_assoc, Nat.add_comm, Nat.add_left_comm]
    · simp [hs, hw]
  refine ⟨pre, w, post, name, columns, hs, hstart, hstop, ⟨a, k, b, l, c, d, e, f, ha, hk, hb, hl,
    hc, hname, hd, he, ⟨_, cs', hcolumns⟩, hf, hw⟩, ?_⟩
  rw [definition, h₁, h₂]
  rfl

/-- **A definition is found within the text.** -/
theorem definition_eq_some {word columns : Bytes} (hword : ∀ b ∈ word, 65 ≤ b ∧ b ≤ 90)
    (h : definition ⟨false, definitionRegex word, false⟩ s = some (name, columns)) :
    ∃ pre w post, s = pre ++ (w ++ post) ∧ DefinitionShape word w name columns := by
  cases hm : regexec ⟨false, definitionRegex word, false⟩ s with
  | none => rw [definition, found_of_eq_none hm] at h; cases h
  | some m =>
    obtain ⟨pre, w, post, name', columns', hs, -, -, hshape, hdefinition⟩ :=
      definition_of_regexec hword hm
    obtain ⟨rfl, rfl⟩ := Prod.mk.inj (Option.some.inj (hdefinition.symm.trans h))
    exact ⟨pre, w, post, hs, hshape⟩

theorem openBrace_mem_of_insertion (h : insertion s = some (items, name)) : openBrace ∈ s := by
  obtain ⟨pre, w, post, rfl, a, k, b, c, l, d, e, -, -, -, -, -, -, -, -, -, rfl⟩ :=
    insertion_eq_some h
  simp

theorem openBrace_not_mem_of_createdSet (h : createdSet s = some name) : openBrace ∉ s := by
  obtain ⟨a, k, b, l, c, d, ha, hk, hb, hl, hc, hname, hd, rfl⟩ := createdSet_eq_some h
  have hspaces : ∀ {w : Bytes}, Spaces w → openBrace ∉ w :=
    fun hw hm => not_isSpace_openBrace (hw _ hm)
  have hword : ∀ {word k : Bytes}, Keyword word k → (∀ b ∈ word, 65 ≤ b ∧ b ≤ 90) → openBrace ∉ k :=
    fun hk hw hm => not_isNameByte_openBrace (hk.letters (letters_of_upper hw) _ hm).isNameByte
  simp [hspaces ha, hspaces hb.2, hspaces hc.2, hspaces hd, hword hk upper_create,
    hword hl upper_set, show openBrace ∉ name from fun hm => not_isNameByte_openBrace (hname.2 _ hm)]

theorem openParen_mem_of_definition {word columns : Bytes} (hword : ∀ b ∈ word, 65 ≤ b ∧ b ≤ 90)
    (h : definition ⟨false, definitionRegex word, false⟩ s = some (name, columns)) : openParen ∈ s := by
  obtain ⟨pre, w, post, rfl, a, k, b, l, c, d, e, f, -, -, -, -, -, -, -, -, -, -, rfl⟩ :=
    definition_eq_some hword h
  simp

theorem openParen_not_mem_of_createdSet (h : createdSet s = some name) : openParen ∉ s := by
  obtain ⟨a, k, b, l, c, d, ha, hk, hb, hl, hc, hname, hd, rfl⟩ := createdSet_eq_some h
  have hx := isPunctuation_openParen
  have hword : ∀ {word k : Bytes}, Keyword word k → (∀ b ∈ word, 65 ≤ b ∧ b ≤ 90) → openParen ∉ k :=
    fun hk hw hm => not_isNameByte_of_isPunctuation hx (hk.letters (letters_of_upper hw) _ hm).isNameByte
  simp [ha.not_mem hx, hb.2.not_mem hx, hc.2.not_mem hx, hd.not_mem hx, hword hk upper_create,
    hword hl upper_set, hname.not_mem hx]

theorem ne_nil_of_createdSet (h : createdSet s = some name) : s ≠ [] := by
  obtain ⟨a, k, b, l, c, d, -, -, hb, -, -, -, -, rfl⟩ := createdSet_eq_some h
  simp [hb.1]

/-- **A text is not both** the creation of a set and an insertion. -/
theorem insertion_eq_none_of_createdSet (h : createdSet s = some name) : insertion s = none := by
  cases hins : insertion s with
  | none => rfl
  | some ins => exact absurd (openBrace_mem_of_insertion hins) (openBrace_not_mem_of_createdSet h)

end Statements

end SetQL
