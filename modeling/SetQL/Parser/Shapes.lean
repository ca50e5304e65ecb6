import SetQL.Parser.Query
import SetQL.Parser.Grammar

/-!
# What the expressions of the query parser match

Each compiled expression is found in a string exactly when the string has one shape, and its groups
are then the parts of the shape. The parts of a shape are determined by the string, however the
expression was matched.

## Main definitions

* `Padded s u`: the string is `u` between white space
* `Enclosed k s c`: the string is `k`, possibly none, and `c` in parentheses
* `ColumnTail ns w`: the text of names, each after a comma

## Main results

* `finds_parentheses`, ..., `finds_setBinaryOp`: the shapes of the expressions
* `Enclosed.unique`: the parts of an enclosed string are determined
-/

namespace SetQL

/-! ## Bytes -/

/-- White space has no case. -/
theorem contains_spaceSet_icase (icase : Bool) (b : UInt8) :
    (spaceSet icase).contains b = true ↔ IsSpace b := by
  simp only [spaceSet, ByteSet.contains, ByteSet.inRanges, toLower, toUpper, List.any_cons,
    List.any_nil, IsSpace]
  grind

theorem contains_spaceSet (b : UInt8) : (spaceSet true).contains b = true ↔ IsSpace b :=
  contains_spaceSet_icase true b

theorem contains_nameSet (b : UInt8) : nameSet.contains b = true ↔ IsNameByte b :=
  forall_byte (p := fun b => nameSet.contains b = true ↔ IsNameByte b) (by decide +kernel) b

theorem contains_letterSet (b : UInt8) : letterSet.contains b = true ↔ IsLetter b :=
  forall_byte (p := fun b => letterSet.contains b = true ↔ IsLetter b) (by decide +kernel) b

theorem contains_contentSet (b : UInt8) : contentSet.contains b = true ↔ b ≠ semicolon :=
  forall_byte (p := fun b => contentSet.contains b = true ↔ b ≠ semicolon) (by decide +kernel) b

/-- An upper-case letter is matched in any case. -/
theorem contains_literal {c : UInt8} (hc : 65 ≤ c ∧ c ≤ 90) (b : UInt8) :
    (literal true c).contains b = true ↔ toUpper b = c := by
  simp only [literal, ByteSet.contains, ByteSet.inRanges, toLower, toUpper, List.any_cons,
    List.any_nil]
  grind

/-- A character that is no letter stands for itself in any case. -/
theorem contains_literal_iff {c : UInt8} (hc : ¬IsLetter c) (icase : Bool) (b : UInt8) :
    (literal icase c).contains b = true ↔ b = c := by
  simp only [literal, ByteSet.contains, ByteSet.inRanges, toLower, toUpper, List.any_cons,
    List.any_nil, IsLetter] at *
  grind

theorem contains_punctuation {c : UInt8} (hc : IsPunctuation c) (b : UInt8) :
    (literal true c).contains b = true ↔ b = c := by
  refine contains_literal_iff ?_ true b
  rcases hc with rfl | rfl | rfl | rfl <;> decide

/-! ## Shapes -/

/-- The string is `u` between white space. -/
def Padded (s u : Bytes) : Prop := ∃ a b, Spaces a ∧ Spaces b ∧ s = a ++ u ++ b

/-- The string is `k`, possibly none, and a content in parentheses. -/
def Enclosed (k s c : Bytes) : Prop :=
  ∃ a w b, Spaces a ∧ Spaces w ∧ (k = [] → w = []) ∧ Spaces b ∧ (c ≠ [] ∧ semicolon ∉ c) ∧
    s = a ++ (k ++ (w ++ openParen :: (c ++ closeParen :: b)))

/-- The string is `COMPLEMENT` and a name. -/
def ComplementName (s n : Bytes) : Prop :=
  ∃ a k w b, Spaces a ∧ Keyword (lit "COMPLEMENT") k ∧ Spaces w ∧ w ≠ [] ∧ IsName n ∧ Spaces b ∧
    s = a ++ (k ++ (w ++ (n ++ b)))

/-- The text of names, each after a comma. -/
inductive ColumnTail : List Bytes → Bytes → Prop
  | nil : ColumnTail [] []
  | cons {a n b ns w} (ha : Spaces a) (hn : IsName n) (hb : Spaces b) (hw : ColumnTail ns w) :
    ColumnTail (n :: ns) (comma :: (a ++ (n ++ (b ++ w))))

/-- **The parts of an enclosed string are determined.** -/
theorem Enclosed.unique {k k' s c c' : Bytes} (hk : ∀ b ∈ k, IsNameByte b)
    (hk' : ∀ b ∈ k', IsNameByte b) (h : Enclosed k s c) (h' : Enclosed k' s c') :
    k = k' ∧ c = c' := by
  obtain ⟨a, w, b, ha, hw, hkw, hb, -, rfl⟩ := h
  obtain ⟨a', w', b', ha', hw', hkw', hb', -, heq⟩ := h'
  have hopen : ∀ (w r : Bytes), Spaces w → ∀ x ∈ (w ++ openParen :: r).head?, ¬ IsNameByte x := by
    intro w r hw
    apply hw.head_append
    rintro x ⟨⟩
    exact not_isNameByte_of_isPunctuation isPunctuation_openParen
  have hstart : ∀ (k w r : Bytes), (∀ b ∈ k, IsNameByte b) → (k = [] → w = []) →
      ∀ x ∈ (k ++ (w ++ openParen :: r)).head?, ¬ IsSpace x := by
    intro k w r hk hkw x hx
    cases k with
    | nil =>
      rw [hkw rfl] at hx
      obtain rfl : openParen = x := by simpa using hx
      decide
    | cons y k =>
      obtain rfl : y = x := by simpa using hx
      exact (hk y List.mem_cons_self).not_isSpace
  obtain ⟨-, hrest⟩ := append_inj_of_all (p := IsSpace) ha ha' (hstart k w _ hk hkw)
    (hstart k' w' _ hk' hkw') heq
  obtain ⟨hkk, hparens⟩ := append_inj_of_all (p := IsNameByte) hk hk' (hopen w _ hw)
    (hopen w' _ hw') hrest
  obtain ⟨-, hcontent⟩ := append_inj_of_all (p := IsSpace) hw hw' (by simp; decide)
    (by simp; decide) hparens
  obtain ⟨hcc, -⟩ := append_inj_of_all_right (p := IsSpace) (x := closeParen) (by decide) hb hb'
    (List.cons.inj hcontent).2
  exact ⟨hkk, hcc⟩

/-! ## Matches of the pieces of the expressions -/

section Pieces

variable {r : Regex} {i n : ℕ} {w : Bytes} {cs : List Capture}

theorem parse_spaces : Parse (.star (.set (spaceSet true))) i w cs ↔ Spaces w ∧ cs = [] := by
  rw [parse_star_set]
  simp only [contains_spaceSet, Spaces]

theorem parse_spacesThen : Parse (spacesThen r) i w cs ↔
    ∃ a v, w = a ++ v ∧ Spaces a ∧ Parse r (i + a.length) v cs := by
  rw [spacesThen, parse_seq]
  constructor
  · rintro ⟨a, v, c, d, rfl, rfl, ha, hr⟩
    obtain ⟨hspaces, rfl⟩ := parse_spaces.mp ha
    exact ⟨a, v, rfl, hspaces, hr⟩
  · rintro ⟨a, v, rfl, ha, hr⟩
    exact ⟨a, v, [], cs, rfl, rfl, parse_spaces.mpr ⟨ha, rfl⟩, hr⟩

theorem parse_spaces1Then : Parse (spaces1Then r) i w cs ↔
    ∃ a v, w = a ++ v ∧ (a ≠ [] ∧ Spaces a) ∧ Parse r (i + a.length) v cs := by
  rw [spaces1Then, parse_seq]
  simp only [parse_plus_set, contains_spaceSet]
  constructor
  · rintro ⟨a, v, c, d, rfl, rfl, ⟨hne, ha, rfl⟩, hr⟩
    exact ⟨a, v, rfl, ⟨hne, ha⟩, hr⟩
  · rintro ⟨a, v, rfl, ⟨hne, ha⟩, hr⟩
    exact ⟨a, v, [], cs, rfl, rfl, ⟨hne, ha, rfl⟩, hr⟩

theorem parse_charThen {c : Char} (hc : IsPunctuation (chr c)) : Parse (charThen c r) i w cs ↔
    ∃ v, w = chr c :: v ∧ Parse r (i + 1) v cs := by
  rw [charThen, parse_seq]
  simp only [parse_set, contains_punctuation hc]
  constructor
  · rintro ⟨u, v, c', d, rfl, rfl, ⟨b, rfl, rfl, rfl⟩, hr⟩
    exact ⟨v, rfl, hr⟩
  · rintro ⟨v, rfl, hr⟩
    exact ⟨[chr c], v, [], cs, rfl, rfl, ⟨_, rfl, rfl, rfl⟩, hr⟩

/-- A keyword and then a match. -/
theorem parse_keyword {word : Bytes} (hword : ∀ b ∈ word, 65 ≤ b ∧ b ≤ 90) :
    Parse (.word true word r) i w cs ↔
      ∃ k v, w = k ++ v ∧ Keyword word k ∧ Parse r (i + k.length) v cs := by
  have hall : ∀ k, List.Forall₂ (fun b c => (literal true c).contains b = true) k word ↔
      Keyword word k := by
    intro k
    induction word generalizing k with
    | nil => cases k <;> simp [Keyword]
    | cons c word ih =>
      obtain ⟨hc, hword⟩ := List.forall_mem_cons.mp hword
      cases k with
      | nil => simp [Keyword]
      | cons b k => simp [Keyword, contains_literal hc, ih hword]
  rw [parse_word]
  refine exists_congr fun k => exists_congr fun v => and_congr_right fun _ => ?_
  exact and_congr_left fun _ => hall k

/-- A group of one run of bytes, and then a match. -/
theorem parse_groupThen {x : ByteSet} : Parse (.seq (.group n (.plus (.set x))) r) i w cs ↔
    ∃ u v d, w = u ++ v ∧ cs = ⟨n, i, i + u.length⟩ :: d ∧
      (u ≠ [] ∧ ∀ b ∈ u, x.contains b = true) ∧ Parse r (i + u.length) v d := by
  rw [parse_seq]
  simp only [parse_group, parse_plus_set]
  constructor
  · rintro ⟨u, v, c, d, rfl, rfl, ⟨c', rfl, hne, hall, rfl⟩, hr⟩
    exact ⟨u, v, d, rfl, rfl, ⟨hne, hall⟩, hr⟩
  · rintro ⟨u, v, d, rfl, rfl, ⟨hne, hall⟩, hr⟩
    exact ⟨u, v, [⟨n, i, i + u.length⟩], d, rfl, rfl, ⟨[], rfl, hne, hall, rfl⟩, hr⟩

theorem parse_contentRegex : Parse (contentRegex n) i w cs ↔
    ∃ c b, w = openParen :: (c ++ closeParen :: b) ∧ (c ≠ [] ∧ semicolon ∉ c) ∧ Spaces b ∧
      cs = [⟨n, i + 1, i + 1 + c.length⟩] := by
  have hcontent : ∀ c : Bytes, (∀ b ∈ c, b ≠ semicolon) ↔ semicolon ∉ c := fun c =>
    ⟨fun h hm => h _ hm rfl, fun h b hb heq => h (heq ▸ hb)⟩
  rw [contentRegex, parse_charThen (c := '(') isPunctuation_openParen]
  simp only [parse_groupThen, contains_contentSet, hcontent,
    parse_charThen (c := ')') isPunctuation_closeParen, parse_spaces]
  constructor
  · rintro ⟨v, rfl, c, v', d, rfl, rfl, hc, b, rfl, hb, rfl⟩
    exact ⟨c, b, rfl, hc, hb, rfl⟩
  · rintro ⟨c, b, rfl, hc, hb, rfl⟩
    exact ⟨_, rfl, c, _, [], rfl, rfl, hc, b, rfl, hb, rfl⟩

/-- A comma and then a match. -/
theorem parse_commaThen : Parse (charThen ',' r) i w cs ↔
    ∃ v, w = comma :: v ∧ Parse r (i + 1) v cs := parse_charThen isPunctuation_comma

/-- A semicolon and then a match. -/
theorem parse_semicolonThen : Parse (charThen ';' r) i w cs ↔
    ∃ v, w = semicolon :: v ∧ Parse r (i + 1) v cs := parse_charThen isPunctuation_semicolon

/-- A comma or none. -/
theorem parse_optComma : Parse (.opt (.set (literal true (chr ',')))) i w cs ↔
    (w = [] ∨ w = [comma]) ∧ cs = [] := by
  rw [parse_opt_set]
  simp only [contains_punctuation (c := chr ',') isPunctuation_comma, exists_eq_left]
  rfl

/-- One name after a comma. -/
theorem parse_columnItem :
    Parse (charThen ',' (spacesThen (.seq (.plus (.set nameSet)) (.star (.set (spaceSet true)))))) i
      w cs ↔ ∃ a u b, w = comma :: (a ++ (u ++ b)) ∧ Spaces a ∧ IsName u ∧ Spaces b ∧ cs = [] := by
  rw [parse_commaThen]
  simp only [parse_spacesThen, parse_seq, parse_plus_set, parse_spaces, contains_nameSet]
  constructor
  · rintro ⟨_, rfl, a, _, rfl, ha, u, b, c, d, rfl, rfl, ⟨hne, hall, rfl⟩, hb, rfl⟩
    exact ⟨a, u, b, rfl, ha, ⟨hne, hall⟩, hb, rfl⟩
  · rintro ⟨a, u, b, rfl, ha, ⟨hne, hall⟩, hb, rfl⟩
    exact ⟨_, rfl, a, _, rfl, ha, u, b, [], [], rfl, rfl, ⟨hne, hall, rfl⟩, hb, rfl⟩

theorem Parse.columnTail (h : Parse (columnTailRegex n) i w cs) : ∃ ns, ColumnTail ns w := by
  refine h.star_induction (P := fun w => ∃ ns, ColumnTail ns w) ⟨[], .nil⟩ ?_
  rintro i u c v hr ⟨ns, hns⟩
  obtain ⟨c', -, hitem⟩ := parse_group.mp hr
  obtain ⟨a, name, b, rfl, ha, hname, hb, -⟩ := parse_columnItem.mp hitem
  exact ⟨name :: ns, by simpa using ColumnTail.cons ha hname hb hns⟩

theorem ColumnTail.parse {ns : List Bytes} (h : ColumnTail ns w) :
    ∃ cs, Parse (columnTailRegex n) i w cs := by
  induction h generalizing i with
  | nil => exact ⟨[], .starNil _ i⟩
  | @cons a name b ns w ha hname hb hw ih =>
    obtain ⟨d, hd⟩ := ih (i := i + (comma :: (a ++ (name ++ b))).length)
    have hitem := Parse.group n ((parse_columnItem (i := i)).mpr ⟨a, name, b, rfl, ha, hname, hb, rfl⟩)
    exact ⟨_, by simpa [columnTailRegex] using Parse.starCons (List.cons_ne_nil _ _) hitem hd⟩

/-- The part of a string between two others is copied. -/
theorem strCopyIdx_append (u c v : Bytes) :
    strCopyIdx (u ++ (c ++ v)) (some (u.length, u.length + c.length)) = .ok c := by
  have hle : u.length ≤ (u ++ (c ++ v)).length ∧ u.length + c.length ≤ (u ++ (c ++ v)).length := by
    simp only [List.length_append]
    omega
  rw [strCopyIdx, if_pos hle, ← List.append_assoc, ← List.length_append, List.take_left,
    List.drop_left]

end Pieces

/-! ## The shapes of the expressions -/

/-- The expression is found in the string exactly when the string has a shape with some part, and
the group is then such a part. -/
def Finds (p : Pattern) (s : Bytes) (g : ℕ) (Shape : Bytes → Prop) : Prop :=
  (∃ m c, regexec p s = some m ∧ strCopyIdx s (m.group g) = .ok c ∧ Shape c) ∨
    (regexec p s = none ∧ ∀ c, ¬ Shape c)

section Expressions

variable {p : Pattern} {s : Bytes} {g : ℕ} {cs : List Capture}

/-- The captures record the part `c` between `u` and the rest as a group. -/
theorem strCopyIdx_group {m : RegMatch} {u c v : Bytes} (hg : g ≠ 0)
    (hcs : m.captures.reverse.find? (fun x => x.group = g) = some ⟨g, u.length, u.length + c.length⟩) :
    strCopyIdx (u ++ (c ++ v)) (m.group g) = .ok c := by
  rw [RegMatch.group, if_neg hg, hcs]
  exact strCopyIdx_append u c v

theorem finds_of_parse {Shape : Bytes → Prop} (hb : p.bol = true) (he : p.eol = true) (hg : g ≠ 0)
    (hsound : ∀ cs, Parse p.body 0 s cs → ∃ u c v, s = u ++ (c ++ v) ∧ Shape c ∧
      cs.reverse.find? (fun x => x.group = g) = some ⟨g, u.length, u.length + c.length⟩)
    (hcomplete : ∀ c, Shape c → ∃ cs, Parse p.body 0 s cs) : Finds p s g Shape := by
  cases hm : regexec p s with
  | none =>
    refine Or.inr ⟨hm, fun c hc => ?_⟩
    obtain ⟨cs, hcs⟩ := hcomplete c hc
    exact (regexec_anchored_eq_none hb he).mp hm cs hcs
  | some m =>
    obtain ⟨u, c, v, hs, hc, hcs⟩ := hsound _ (regexec_anchored_eq_some hb he hm)
    exact Or.inl ⟨m, c, hm, by rw [hs]; exact strCopyIdx_group hg hcs, hc⟩

/-- The group of a match has the shape. -/
theorem Finds.shape {Shape : Bytes → Prop} {m : RegMatch} {c : Bytes}
    (h : Finds p s g Shape) (hm : regexec p s = some m) (hcopy : strCopyIdx s (m.group g) = .ok c) :
    Shape c := by
  obtain ⟨m', c', hm', hcopy', hc⟩ := h.resolve_right fun hn => nomatch hm.symm.trans hn.1
  obtain rfl := Option.some.inj (hm.symm.trans hm')
  obtain rfl := Except.ok.inj (hcopy.symm.trans hcopy')
  exact hc

theorem finds_parentheses (s : Bytes) : Finds queryRegex.parentheses s 1 (Enclosed [] s) := by
  refine finds_of_parse rfl rfl (by decide) (fun cs h => ?_) fun c h => ?_
  · obtain ⟨a, v, rfl, ha, h⟩ := parse_spacesThen.mp h
    obtain ⟨c, b, rfl, hc, hb, rfl⟩ := parse_contentRegex.mp h
    exact ⟨a ++ [openParen], c, closeParen :: b, by simp,
      ⟨a, [], b, ha, spaces_nil, fun _ => rfl, hb, hc, rfl⟩, by simp⟩
  · obtain ⟨a, w, b, ha, -, hw, hb, hc, rfl⟩ := h
    obtain rfl := hw rfl
    exact ⟨_, parse_spacesThen.mpr ⟨a, _, rfl, ha, parse_contentRegex.mpr ⟨c, b, rfl, hc, hb, rfl⟩⟩⟩

theorem finds_setName (s : Bytes) :
    Finds queryRegex.setName s 1 fun n => IsName n ∧ Padded s n := by
  refine finds_of_parse rfl rfl (by decide) (fun cs h => ?_) fun n h => ?_
  · obtain ⟨a, v, rfl, ha, h⟩ := parse_spacesThen.mp h
    obtain ⟨n, b, d, rfl, rfl, ⟨hne, hn⟩, htail⟩ := parse_groupThen.mp h
    obtain ⟨hb, rfl⟩ := parse_spaces.mp htail
    refine ⟨a, n, b, rfl, ⟨⟨hne, fun x hx => (contains_nameSet x).mp (hn x hx)⟩, a, b, ha, hb, ?_⟩, ?_⟩
    · rw [List.append_assoc]
    · simp
  · obtain ⟨⟨hne, hn⟩, a, b, ha, hb, rfl⟩ := h
    rw [List.append_assoc]
    exact ⟨_, parse_spacesThen.mpr ⟨a, _, rfl, ha, parse_groupThen.mpr ⟨n, b, [], rfl, rfl,
      ⟨hne, fun x hx => (contains_nameSet x).mpr (hn x hx)⟩, parse_spaces.mpr ⟨hb, rfl⟩⟩⟩⟩

theorem upper_complement : ∀ b ∈ lit "COMPLEMENT", 65 ≤ b ∧ b ≤ 90 := by decide +kernel

theorem finds_setComplement1 (s : Bytes) :
    Finds queryRegex.setComplement1 s 1 (ComplementName s) := by
  refine finds_of_parse rfl rfl (by decide) (fun cs h => ?_) fun n h => ?_
  · obtain ⟨a, v, rfl, ha, h⟩ := parse_spacesThen.mp h
    obtain ⟨k, v, rfl, hk, h⟩ := (parse_keyword upper_complement).mp h
    obtain ⟨w, v, rfl, ⟨hw', hw⟩, h⟩ := parse_spaces1Then.mp h
    obtain ⟨n, b, d, rfl, rfl, ⟨hne, hn⟩, htail⟩ := parse_groupThen.mp h
    obtain ⟨hb, rfl⟩ := parse_spaces.mp htail
    refine ⟨a ++ (k ++ w), n, b, by simp, ⟨a, k, w, b, ha, hk, hw, hw',
      ⟨hne, fun x hx => (contains_nameSet x).mp (hn x hx)⟩, hb, rfl⟩, ?_⟩
    simp [Nat.add_assoc]
  · obtain ⟨a, k, w, b, ha, hk, hw, hw', ⟨hne, hn⟩, hb, rfl⟩ := h
    exact ⟨_, parse_spacesThen.mpr ⟨a, _, rfl, ha, (parse_keyword upper_complement).mpr
      ⟨k, _, rfl, hk, parse_spaces1Then.mpr ⟨w, _, rfl, ⟨hw', hw⟩, parse_groupThen.mpr ⟨n, b, [], rfl,
        rfl, ⟨hne, fun x hx => (contains_nameSet x).mpr (hn x hx)⟩, parse_spaces.mpr ⟨hb, rfl⟩⟩⟩⟩⟩⟩

theorem finds_setComplement2 (s : Bytes) : Finds queryRegex.setComplement2 s 1 fun c =>
    ∃ k, Keyword (lit "COMPLEMENT") k ∧ Enclosed k s c := by
  refine finds_of_parse rfl rfl (by decide) (fun cs h => ?_) fun c h => ?_
  · obtain ⟨a, v, rfl, ha, h⟩ := parse_spacesThen.mp h
    obtain ⟨k, v, rfl, hk, h⟩ := (parse_keyword upper_complement).mp h
    obtain ⟨w, v, rfl, hw, h⟩ := parse_spacesThen.mp h
    obtain ⟨c, b, rfl, hc, hb, rfl⟩ := parse_contentRegex.mp h
    refine ⟨a ++ (k ++ (w ++ [openParen])), c, closeParen :: b, by simp,
      ⟨k, hk, a, w, b, ha, hw, fun hnil => ?_, hb, hc, rfl⟩, by simp [Nat.add_assoc]⟩
    have := hk.length
    rw [hnil] at this
    exact absurd this (by decide)
  · obtain ⟨k, hk, a, w, b, ha, hw, -, hb, hc, rfl⟩ := h
    exact ⟨_, parse_spacesThen.mpr ⟨a, _, rfl, ha, (parse_keyword upper_complement).mpr
      ⟨k, _, rfl, hk, parse_spacesThen.mpr ⟨w, _, rfl, hw, parse_contentRegex.mpr
        ⟨c, b, rfl, hc, hb, rfl⟩⟩⟩⟩⟩

/-- The name of an operation and its content are found together. -/
theorem finds_setBinaryOp (s : Bytes) :
    (∃ m k c, regexec queryRegex.setBinaryOp s = some m ∧ strCopyIdx s (m.group 1) = .ok k ∧
      strCopyIdx s (m.group 2) = .ok c ∧ (k ≠ [] ∧ ∀ b ∈ k, IsLetter b) ∧ Enclosed k s c) ∨
    (regexec queryRegex.setBinaryOp s = none ∧
      ∀ k c, k ≠ [] → (∀ b ∈ k, IsLetter b) → ¬ Enclosed k s c) := by
  cases hm : regexec queryRegex.setBinaryOp s with
  | none =>
    refine Or.inr ⟨rfl, fun k c hne hk => ?_⟩
    rintro ⟨a, w, b, ha, hw, -, hb, hc, rfl⟩
    refine (regexec_anchored_eq_none rfl rfl).mp hm _ (parse_spacesThen.mpr ⟨a, _, rfl, ha,
      parse_groupThen.mpr ⟨k, _, _, rfl, rfl, ⟨hne, fun x hx => (contains_letterSet x).mpr (hk x hx)⟩,
        parse_spacesThen.mpr ⟨w, _, rfl, hw, parse_contentRegex.mpr ⟨c, b, rfl, hc, hb, rfl⟩⟩⟩⟩)
  | some m =>
    have h := regexec_anchored_eq_some rfl rfl hm
    generalize hcaps : m.captures = cs at h
    obtain ⟨a, v, rfl, ha, h⟩ := parse_spacesThen.mp h
    obtain ⟨k, v, d, rfl, rfl, ⟨hne, hk⟩, h⟩ := parse_groupThen.mp h
    obtain ⟨w, v, rfl, hw, h⟩ := parse_spacesThen.mp h
    obtain ⟨c, b, rfl, hc, hb, rfl⟩ := parse_contentRegex.mp h
    refine Or.inl ⟨m, k, c, rfl, ?_, ?_, ⟨hne, fun x hx => (contains_letterSet x).mp (hk x hx)⟩,
      a, w, b, ha, hw, fun hnil => absurd hnil hne, hb, hc, rfl⟩
    · apply strCopyIdx_group (by decide)
      simp [hcaps]
    · have hsplit : a ++ (k ++ (w ++ openParen :: (c ++ closeParen :: b))) =
          (a ++ (k ++ (w ++ [openParen]))) ++ (c ++ closeParen :: b) := by simp
      rw [hsplit]
      apply strCopyIdx_group (by decide)
      simp [hcaps, Nat.add_assoc]

end Expressions

end SetQL
