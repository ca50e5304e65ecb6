import SetQL.Parser.Shapes

/-!
# The parser accepts the set expressions

The parser of set operations returns the tree of an expression exactly for the texts of that
expression. Each step of the parser is determined by the shape of its string.

## Main definitions

* `Neutral w`, `Inner w`: searching for a comma passes `w` outside, or within, parentheses
* `ReadsOperation`: the string is read as the name of an operation and its content

## Main results

* `parseSetOperation_fuel`: with enough fuel the parser does not depend on it
* `parseSetOperation_eq_ok`: a set operation is parsed exactly when it derives an expression
-/

namespace SetQL

/-! ## The search for the comma -/

/-- The search passes `w` outside all parentheses. -/
def Neutral (w : Bytes) : Prop := ∀ rest i n,
  findDelimiterFrom comma (w ++ rest) i n = findDelimiterFrom comma rest (i + w.length) n

/-- The search passes `w` within parentheses. -/
def Inner (w : Bytes) : Prop := ∀ rest i n,
  findDelimiterFrom comma (w ++ rest) i (n + 1) = findDelimiterFrom comma rest (i + w.length) (n + 1)

section Delimiter

variable {u v w : Bytes}

theorem Neutral.inner (h : Neutral w) : Inner w := fun rest i n => h rest i (n + 1)

theorem Neutral.append (hu : Neutral u) (hv : Neutral v) : Neutral (u ++ v) := by
  intro rest i n
  rw [List.append_assoc, hu, hv, List.length_append, Nat.add_assoc]

theorem Inner.append (hu : Inner u) (hv : Inner v) : Inner (u ++ v) := by
  intro rest i n
  rw [List.append_assoc, hu, hv, List.length_append, Nat.add_assoc]

theorem neutral_nil : Neutral [] := fun _ _ _ => rfl

/-- A byte that is no punctuation is passed. -/
theorem neutral_of_not_punctuation (h : ∀ b ∈ w, ¬ IsPunctuation b) : Neutral w := by
  induction w with
  | nil => exact neutral_nil
  | cons b w ih =>
    obtain ⟨hb, hw⟩ := List.forall_mem_cons.mp h
    intro rest i n
    simp only [IsPunctuation, not_or] at hb
    rw [List.cons_append, findDelimiterFrom, if_neg (show b ≠ chr '(' from hb.1),
      if_neg (show b ≠ chr ')' from hb.2.1), if_neg fun hc => hb.2.2.1 hc.1, ih hw,
      List.length_cons, Nat.add_right_comm, Nat.add_assoc]

theorem Spaces.neutral (h : Spaces w) : Neutral w :=
  neutral_of_not_punctuation fun b hb hp => not_isSpace_of_isPunctuation hp (h b hb)

theorem neutral_of_isNameByte (h : ∀ b ∈ w, IsNameByte b) : Neutral w :=
  neutral_of_not_punctuation fun b hb hp => not_isNameByte_of_isPunctuation hp (h b hb)

theorem inner_comma : Inner [comma] := by
  intro rest i n
  rw [List.singleton_append, findDelimiterFrom, if_neg (by decide), if_neg (by decide),
    if_neg fun hc => Nat.succ_ne_zero n hc.2]
  rfl

/-- Parentheses around an inner text are passed. -/
theorem Inner.parens (h : Inner w) : Neutral (openParen :: (w ++ [closeParen])) := by
  intro rest i n
  rw [List.cons_append, List.append_assoc, findDelimiterFrom, if_pos (by decide), h,
    List.singleton_append, findDelimiterFrom, if_neg (by decide), if_pos (by decide),
    if_neg (Nat.succ_ne_zero n), Nat.add_sub_cancel]
  congr 1
  simp
  omega

/-- The search passes set expressions. -/
theorem Derives.neutral {e : SetExpr Bytes} (h : Derives e w) : Neutral w := by
  induction h with
  | name hn => exact neutral_of_isNameByte hn.2
  | parens ha _ hb ih => exact ((ha.neutral.append ih).append hb.neutral).inner.parens
  | complementName hk ha ha' hn =>
    have hk := neutral_of_isNameByte fun b hb => (hk.letters letters_complement b hb).isNameByte
    exact (hk.append ha.neutral).append (neutral_of_isNameByte hn.2)
  | complement hk ha hb _ hc ih =>
    have hk := neutral_of_isNameByte fun b hb => (hk.letters letters_complement b hb).isNameByte
    exact (hk.append ha.neutral).append ((hb.neutral.append ih).append hc.neutral).inner.parens
  | @binary l r k a b u c d v f op hk ha hb _ hc hd _ hf ihl ihr =>
    have hk := neutral_of_isNameByte fun b hb => (hk.letters op.letters b hb).isNameByte
    have hleft := ((hb.neutral.append ihl).append hc.neutral).inner
    have hright := ((hd.neutral.append ihr).append hf.neutral).inner
    have hinner : Inner (b ++ u ++ c ++ comma :: (d ++ v ++ f)) :=
      hleft.append (inner_comma.append hright)
    exact (hk.append ha.neutral).append hinner.parens

/-- The search stops at the first comma outside all parentheses. -/
theorem Neutral.find (h : Neutral u) (v : Bytes) :
    findDelimiterIgnoringParenthesesContent (u ++ comma :: v) comma = some u.length := by
  rw [findDelimiterIgnoringParenthesesContent, h, findDelimiterFrom, if_neg (by decide),
    if_neg (by decide), if_pos ⟨rfl, rfl⟩, Nat.zero_add]

/-- The index found is that of a comma. -/
theorem findDelimiterFrom_eq_some {i n k : ℕ} (h : findDelimiterFrom comma w i n = some k) :
    ∃ u v, w = u ++ comma :: v ∧ k = i + u.length := by
  induction w generalizing i n with
  | nil => cases h
  | cons b w ih =>
    have hcons : ∀ {i' n'}, i' = i + 1 → findDelimiterFrom comma w i' n' = some k →
        ∃ u v, b :: w = u ++ comma :: v ∧ k = i + u.length := by
      rintro i' n' rfl h
      obtain ⟨u, v, rfl, rfl⟩ := ih h
      exact ⟨b :: u, v, rfl, by simp; omega⟩
    rw [findDelimiterFrom] at h
    split_ifs at h with h₁ h₂ h₃ h₄
    · exact hcons rfl h
    · exact hcons rfl h
    · obtain rfl := h₄.1
      exact ⟨[], w, rfl, (Option.some.inj h).symm⟩
    · exact hcons rfl h

end Delimiter

/-! ## One step of the parser, by the shape of the string -/

/-- A call reads its string as an operation with two operands: the name of the operation, and a
content in parentheses. -/
structure ReadsOperation (rx : QueryRegex) (string opTypeString content : Bytes) : Prop where
  parentheses : regexec rx.parentheses string = none
  setName : regexec rx.setName string = none
  setComplement : (regexec rx.setComplement1 string).or (regexec rx.setComplement2 string) = none
  setBinaryOp : ∃ m, regexec rx.setBinaryOp string = some m ∧
    strCopyIdx string (m.group 1) = .ok opTypeString ∧ strCopyIdx string (m.group 2) = .ok content

section Step

variable {s k c x : Bytes} {n : ℕ}

theorem Enclosed.mem (h : Enclosed k s c) : openParen ∈ s := by
  obtain ⟨a, w, b, -, -, -, -, -, rfl⟩ := h
  simp

theorem Enclosed.length_le (h : Enclosed k s c) : k.length + c.length + 2 ≤ s.length := by
  obtain ⟨a, w, b, -, -, -, -, -, rfl⟩ := h
  simp only [List.length_append, List.length_cons]
  omega

theorem Enclosed.length_lt (h : Enclosed k s c) : c.length < s.length := by
  have hle := h.length_le
  omega

theorem Padded.not_mem (h : Padded s x) (hx : IsName x) : openParen ∉ s := by
  obtain ⟨a, b, ha, hb, rfl⟩ := h
  have hp := isPunctuation_openParen
  simp [ha.not_mem hp, hb.not_mem hp, hx.not_mem hp]

theorem ComplementName.not_mem (h : ComplementName s x) : openParen ∉ s := by
  obtain ⟨a, k, w, b, ha, hk, hw, -, hx, hb, rfl⟩ := h
  have hp := isPunctuation_openParen
  simp [ha.not_mem hp, (hk.isName letters_complement (by decide)).not_mem hp, hw.not_mem hp,
    hx.not_mem hp, hb.not_mem hp]

theorem ComplementName.length_lt (h : ComplementName s x) : x.length < s.length := by
  obtain ⟨a, k, w, b, -, hk, -, hw, -, -, rfl⟩ := h
  have := List.length_pos_of_ne_nil hw
  simp only [List.length_append]
  omega

/-- Two names with white space between them are not one name. -/
theorem ComplementName.not_padded {y : Bytes} (h : ComplementName s x) (hy : IsName y) :
    ¬ Padded s y := by
  obtain ⟨a, k, w, b, ha, hk, hw, hw', hx, hb, rfl⟩ := h
  rintro ⟨a', b', ha', hb', heq⟩
  have hkname := hk.isName letters_complement (by decide)
  rw [List.append_assoc] at heq
  obtain ⟨-, hrest⟩ := append_inj_of_all (p := IsSpace) ha ha' hkname.head hy.head heq
  obtain ⟨-, hspaces⟩ := append_inj_of_all (p := IsNameByte) hkname.2 hy.2
    (hw.head_of_ne_nil hw') hb'.head hrest
  obtain ⟨q, x', rfl⟩ := List.exists_cons_of_ne_nil hx.1
  have : q ∈ b' := by rw [← hspaces]; simp
  exact (hx.2 q List.mem_cons_self).not_isSpace (hb' q this)

theorem parseSetOperation_parens (h : Enclosed [] s c) :
    parseSetOperation queryRegex (n + 1) s = parseSetOperation queryRegex n c := by
  obtain ⟨m, c', hm, hcopy, h'⟩ := (finds_parentheses s).resolve_right fun hn => hn.2 c h
  obtain rfl := (h.unique (by simp) (by simp) h').2
  rw [parseSetOperation, hm]
  simp only [hcopy, ok_bind]

theorem parentheses_eq_none (h : ∀ c, ¬ Enclosed [] s c) :
    regexec queryRegex.parentheses s = none := by
  rcases finds_parentheses s with ⟨_, c, -, -, hc⟩ | ⟨hn, -⟩
  · exact absurd hc (h c)
  · exact hn

theorem not_enclosed_nil (hk : k ≠ []) (hk' : ∀ b ∈ k, IsLetter b) (h : Enclosed k s c) (c' : Bytes) :
    ¬ Enclosed [] s c' := fun h' =>
  hk (h.unique (fun b hb => (hk' b hb).isNameByte) (by simp) h').1

theorem parseSetOperation_name (hx : IsName x) (h : Padded s x) :
    parseSetOperation queryRegex (n + 1) s = .ok (.ok (createSetOpLeave x)) := by
  have hparens := parentheses_eq_none fun c hc => h.not_mem hx (Enclosed.mem hc)
  obtain ⟨m, y, hm, hcopy, hy, h'⟩ := (finds_setName s).resolve_right fun hn => hn.2 x ⟨hx, h⟩
  have hxy : x = y := by
    obtain ⟨a, b, ha, hb, rfl⟩ := h
    obtain ⟨a', b', ha', hb', heq⟩ := h'
    rw [List.append_assoc, List.append_assoc] at heq
    obtain ⟨-, hrest⟩ := append_inj_of_all (p := IsSpace) ha ha' hx.head hy.head heq
    exact (append_inj_of_all (p := IsNameByte) hx.2 hy.2 hb.head hb'.head hrest).1
  subst hxy
  rw [parseSetOperation, hparens]
  simp only [hm, hcopy, ok_bind, pure_eq_ok]

theorem setName_eq_none (h : ∀ x, IsName x → ¬ Padded s x) :
    regexec queryRegex.setName s = none := by
  rcases finds_setName s with ⟨_, x, -, -, hx, hp⟩ | ⟨hn, -⟩
  · exact absurd hp (h x hx)
  · exact hn

/-- The name after `COMPLEMENT` is determined. -/
theorem ComplementName.unique {y : Bytes} (h : ComplementName s x) (h' : ComplementName s y) :
    x = y := by
  obtain ⟨a, k, w, b, ha, hk, hw, hw', hx, hb, rfl⟩ := h
  obtain ⟨a', k', v, b', ha', hk', hv, -, hy, hb', heq⟩ := h'
  have h₁ := hk.append_inj hk' letters_complement (by decide) ha ha' heq
  obtain ⟨-, h₂⟩ := append_inj_of_all (p := IsSpace) hw hv hx.head hy.head h₁
  exact (append_inj_of_all (p := IsNameByte) hx.2 hy.2 hb.head hb'.head h₂).1

theorem parseSetOperation_complementName (h : ComplementName s x) :
    parseSetOperation queryRegex (n + 1) s =
      parseComplement (parseSetOperation queryRegex n) x := by
  have hparens := parentheses_eq_none fun c hc => h.not_mem (Enclosed.mem hc)
  have hname := setName_eq_none fun y hy => h.not_padded hy
  obtain ⟨m, y, hm, hcopy, h'⟩ := (finds_setComplement1 s).resolve_right fun hn => hn.2 x h
  obtain rfl := h.unique h'
  rw [parseSetOperation, hparens]
  simp only [hname, hm, Option.some_or, hcopy, ok_bind]

theorem setComplement1_eq_none (h : ∀ x, ¬ ComplementName s x) :
    regexec queryRegex.setComplement1 s = none := by
  rcases finds_setComplement1 s with ⟨_, x, -, -, hx⟩ | ⟨hn, -⟩
  · exact absurd hx (h x)
  · exact hn

theorem parseSetOperation_complement (hk : Keyword (lit "COMPLEMENT") k) (h : Enclosed k s c) :
    parseSetOperation queryRegex (n + 1) s =
      parseComplement (parseSetOperation queryRegex n) c := by
  have hkname := hk.isName letters_complement (by decide)
  have hparens := parentheses_eq_none
    (not_enclosed_nil hkname.1 (hk.letters letters_complement) h)
  have hname := setName_eq_none fun y hy hp => hp.not_mem hy h.mem
  have hcompl := setComplement1_eq_none fun y hy => hy.not_mem h.mem
  obtain ⟨m, c', hm, hcopy, k', hk', h'⟩ := (finds_setComplement2 s).resolve_right fun hn =>
    hn.2 c ⟨k, hk, h⟩
  obtain rfl := (h.unique hkname.2 (hk'.isName letters_complement (by decide)).2 h').2
  rw [parseSetOperation, hparens]
  simp only [hname, hcompl, hm, Option.none_or, hcopy, ok_bind]

theorem setComplement2_eq_none (h : ∀ k c, Keyword (lit "COMPLEMENT") k → ¬ Enclosed k s c) :
    regexec queryRegex.setComplement2 s = none := by
  rcases finds_setComplement2 s with ⟨_, c, -, -, k, hk, hc⟩ | ⟨hn, -⟩
  · exact absurd hc (h k c hk)
  · exact hn

/-- **A name in front of parentheses is read as an operation** unless it is that of the
complement. -/
theorem readsOperation_of_enclosed (hne : k ≠ []) (hk : ∀ b ∈ k, IsLetter b)
    (hk' : ¬ Keyword (lit "COMPLEMENT") k) (h : Enclosed k s c) : ReadsOperation queryRegex s k c := by
  have hname : ∀ b ∈ k, IsNameByte b := fun b hb => (hk b hb).isNameByte
  have hcompl1 := setComplement1_eq_none fun y hy => hy.not_mem h.mem
  have hcompl2 := setComplement2_eq_none (s := s) fun k₂ c₂ hk₂ h₂ => hk'
    ((h.unique hname (hk₂.isName letters_complement (by decide)).2 h₂).1 ▸ hk₂)
  obtain ⟨m, k₁, c₁, hm, hcopy₁, hcopy₂, ⟨-, hk₁⟩, h₁⟩ := (finds_setBinaryOp s).resolve_right
    fun hn => hn.2 k c hne hk h
  obtain ⟨rfl, rfl⟩ := h.unique hname (fun b hb => (hk₁ b hb).isNameByte) h₁
  exact
    { parentheses := parentheses_eq_none (not_enclosed_nil hne hk h)
      setName := setName_eq_none fun y hy hp => hp.not_mem hy h.mem
      setComplement := by rw [hcompl1, hcompl2, Option.none_or]
      setBinaryOp := ⟨m, hm, hcopy₁, hcopy₂⟩ }

theorem ReadsOperation.enclosed (h : ReadsOperation queryRegex s k c) : Enclosed k s c := by
  obtain ⟨m, hm, hname, hcontent⟩ := h.setBinaryOp
  obtain ⟨m', k', c', hm', hname', hcontent', -, hc⟩ := (finds_setBinaryOp s).resolve_right
    fun hn => nomatch hm.symm.trans hn.1
  obtain rfl := Option.some.inj (hm.symm.trans hm')
  obtain rfl := Except.ok.inj (hname.symm.trans hname')
  obtain rfl := Except.ok.inj (hcontent.symm.trans hcontent')
  exact hc

theorem ReadsOperation.parseSetOperation_eq {rx : QueryRegex} (h : ReadsOperation rx s k c) :
    parseSetOperation rx (n + 1) s = parseBinaryOp (parseSetOperation rx n) k c := by
  obtain ⟨m, hm, hcopy₁, hcopy₂⟩ := h.setBinaryOp
  rw [parseSetOperation, h.parentheses]
  simp only [h.setName, h.setComplement, hm, hcopy₁, hcopy₂, ok_bind]

theorem parseSetOperation_binary (hne : k ≠ []) (hk : ∀ b ∈ k, IsLetter b)
    (hk' : ¬ Keyword (lit "COMPLEMENT") k) (h : Enclosed k s c) :
    parseSetOperation queryRegex (n + 1) s =
      parseBinaryOp (parseSetOperation queryRegex n) k c :=
  (readsOperation_of_enclosed hne hk hk' h).parseSetOperation_eq

/-- The strings that the parser takes apart, by their shape, in the order it tries them. -/
theorem shape_cases (s : Bytes) :
    (∃ c, Enclosed [] s c) ∨ (∃ x, IsName x ∧ Padded s x) ∨ (∃ x, ComplementName s x) ∨
      (∃ k c, Keyword (lit "COMPLEMENT") k ∧ Enclosed k s c) ∨
      (∃ k c, k ≠ [] ∧ (∀ b ∈ k, IsLetter b) ∧ ¬ Keyword (lit "COMPLEMENT") k ∧ Enclosed k s c) ∨
      ∀ n, parseSetOperation queryRegex (n + 1) s =
        Except.error <$> errorMessage (lit "Error parsing string=" ++ s) := by
  by_cases h₁ : ∃ c, Enclosed [] s c
  · exact Or.inl h₁
  by_cases h₂ : ∃ x, IsName x ∧ Padded s x
  · exact Or.inr (Or.inl h₂)
  by_cases h₃ : ∃ x, ComplementName s x
  · exact Or.inr (Or.inr (Or.inl h₃))
  by_cases h₄ : ∃ k c, Keyword (lit "COMPLEMENT") k ∧ Enclosed k s c
  · exact Or.inr (Or.inr (Or.inr (Or.inl h₄)))
  rcases finds_setBinaryOp s with ⟨_, k, c, -, -, -, ⟨hne, hk⟩, h₅⟩ | ⟨h₅, -⟩
  · exact Or.inr (Or.inr (Or.inr (Or.inr (Or.inl ⟨k, c, hne, hk, fun hc => h₄ ⟨k, c, hc, h₅⟩, h₅⟩))))
  · refine Or.inr (Or.inr (Or.inr (Or.inr (Or.inr fun n => ?_))))
    rw [parseSetOperation, parentheses_eq_none fun c hc => h₁ ⟨c, hc⟩]
    simp only [setName_eq_none fun x hx hp => h₂ ⟨x, hx, hp⟩, h₅,
      setComplement1_eq_none fun x hx => h₃ ⟨x, hx⟩,
      setComplement2_eq_none fun k c hk hc => h₄ ⟨k, c, hk, hc⟩, Option.none_or]

end Step

/-! ## Fuel -/

theorem parseBinaryOp_congr {f g : Bytes → C (Except Bytes SetOp)} {k c : Bytes}
    (h : ∀ w, w.length ≤ c.length → f w = g w) : parseBinaryOp f k c = parseBinaryOp g k c := by
  unfold parseBinaryOp
  simp only [h (c.take _) (by simp), h (c.drop _) (by simp)]

/-- **With enough fuel the parser does not depend on it.** -/
theorem parseSetOperation_fuel {n n' : ℕ} {s : Bytes} (h : s.length < n) (h' : s.length < n') :
    parseSetOperation queryRegex n s = parseSetOperation queryRegex n' s := by
  induction n generalizing n' s with
  | zero => exact absurd h (Nat.not_lt_zero _)
  | succ n ih =>
    obtain ⟨n', rfl⟩ := Nat.exists_eq_succ_of_ne_zero (Nat.ne_of_gt (Nat.zero_lt_of_lt h'))
    have hsub : ∀ w : Bytes, w.length < s.length →
        parseSetOperation queryRegex n w = parseSetOperation queryRegex n' w := fun w hw =>
      ih (by omega) (by omega)
    rcases shape_cases s with ⟨c, hc⟩ | ⟨x, hx, hp⟩ | ⟨x, hx⟩ | ⟨k, c, hk, hc⟩ |
      ⟨k, c, hne, hk, hk', hc⟩ | hfail
    · rw [parseSetOperation_parens hc, parseSetOperation_parens hc, hsub c hc.length_lt]
    · rw [parseSetOperation_name hx hp, parseSetOperation_name hx hp]
    · rw [parseSetOperation_complementName hx, parseSetOperation_complementName hx,
        parseComplement, parseComplement, hsub x hx.length_lt]
    · rw [parseSetOperation_complement hk hc, parseSetOperation_complement hk hc,
        parseComplement, parseComplement, hsub c hc.length_lt]
    · rw [parseSetOperation_binary hne hk hk' hc, parseSetOperation_binary hne hk hk' hc]
      exact parseBinaryOp_congr fun w hw => hsub w (by have := hc.length_lt; omega)
    · rw [hfail, hfail]

/-! ## Set operations -/

/-- The number of an operation with two operands. -/
def BinaryOp.opType : BinaryOp → ℕ
  | union => opUnion
  | intersection => opIntersection
  | difference => opDifference

theorem BinaryOp.string2opType_word (op : BinaryOp) : string2opType op.word = op.opType := by
  cases op <;> decide

theorem BinaryOp.opType_ne_zero (op : BinaryOp) : op.opType ≠ 0 := by
  cases op <;> decide

theorem BinaryOp.createSetOp_opType (op : BinaryOp) (l r : SetOp) :
    createSetOp l r op.opType = .ok (.node false none l r op.opType) := by
  cases op <;> rfl

theorem BinaryOp.toSetOp_expr (op : BinaryOp) (l r : SetExpr Bytes) :
    (op.expr l r).toSetOp = .node false none l.toSetOp r.toSetOp op.opType := by
  cases op <;> rfl

theorem string2opType_ne_zero {w : Bytes} (h : string2opType w ≠ 0) :
    w = lit "COMPLEMENT" ∨ ∃ op : BinaryOp, w = op.word := by
  unfold string2opType at h
  split_ifs at h with h₁ h₂ h₃ h₄
  · exact Or.inl h₁
  · exact Or.inr ⟨.union, h₂⟩
  · exact Or.inr ⟨.intersection, h₃⟩
  · exact Or.inr ⟨.difference, h₄⟩
  · exact absurd rfl h

section SetOperation

variable {f : Bytes → C (Except Bytes SetOp)} {k c : Bytes} {op : SetOp}

theorem andThen_eq_ok {x : C (Except Bytes SetOp)} {g : SetOp → C (Except Bytes SetOp)} :
    andThen x g = .ok (.ok op) ↔ ∃ op', x = .ok (.ok op') ∧ g op' = .ok (.ok op) := by
  rw [andThen, bind_eq_ok]
  constructor
  · rintro ⟨r, hr, h⟩
    cases r with
    | error message => cases h
    | ok op' => exact ⟨op', hr, h⟩
  · rintro ⟨op', hx, hg⟩
    exact ⟨.ok op', hx, hg⟩

theorem parseComplement_eq_ok : parseComplement f c = .ok (.ok op) ↔
    ∃ op', f c = .ok (.ok op') ∧ op = .node false none op' .null opComplement := by
  have hcreate : ∀ op', createSetOp op' .null opComplement =
      .ok (.node false none op' .null opComplement) := fun op' => rfl
  rw [parseComplement, andThen_eq_ok]
  simp only [hcreate, map_ok, Except.ok.injEq, eq_comm]

theorem parseBinaryOp_eq_ok (o : BinaryOp) (hk : Keyword o.word k) :
    parseBinaryOp f k c = .ok (.ok op) ↔ ∃ u v l r,
      findDelimiterIgnoringParenthesesContent c comma = some u.length ∧ c = u ++ comma :: v ∧
      f u = .ok (.ok l) ∧ f v = .ok (.ok r) ∧ op = .node false none l r o.opType := by
  have htype : string2opType (str2upper k) = o.opType := by
    rw [← o.string2opType_word, ← hk]
    rfl
  simp only [parseBinaryOp, htype, if_neg o.opType_ne_zero, show chr ',' = comma from rfl]
  cases hfind : findDelimiterIgnoringParenthesesContent c comma with
  | none => simp [map_eq_ok]
  | some i =>
    obtain ⟨u, v, rfl, hi⟩ := findDelimiterFrom_eq_some hfind
    rw [Nat.zero_add] at hi
    subst hi
    have hdrop : (u ++ comma :: v).drop (u.length + 1) = v := by
      rw [List.append_cons, List.drop_left' (by simp)]
    simp only [List.take_left, hdrop, andThen_eq_ok, o.createSetOp_opType, map_ok, Except.ok.injEq]
    constructor
    · rintro ⟨l, hl, r, hr, rfl⟩
      exact ⟨u, v, l, r, rfl, rfl, hl, hr, rfl⟩
    · rintro ⟨u', v', l, r, hlen, heq, hl, hr, rfl⟩
      obtain ⟨rfl, hv⟩ := List.append_inj heq (Option.some.inj hlen)
      obtain rfl := (List.cons.inj hv).2
      exact ⟨l, hl, r, hr, rfl⟩

/-- A set operation that is parsed derives the expression of its tree. -/
theorem derives_of_parseSetOperation {n : ℕ} {s : Bytes} (h : s.length < n)
    (hparse : parseSetOperation queryRegex n s = .ok (.ok op)) :
    ∃ e u, Padded s u ∧ Derives e u ∧ op = e.toSetOp := by
  induction n generalizing s op with
  | zero => exact absurd h (Nat.not_lt_zero _)
  | succ n ih =>
    -- one case per expression that finds the text, tried in the order of the source
    rcases shape_cases s with ⟨c, hc⟩ | ⟨x, hx, hp⟩ | ⟨x, hx⟩ | ⟨k, c, hk, hc⟩ |
      ⟨k, c, hne, hk, hk', hc⟩ | hfail
    · rw [parseSetOperation_parens hc] at hparse
      have hlen := hc.length_lt
      obtain ⟨e, u, ⟨a, b, ha, hb, rfl⟩, he, rfl⟩ := ih (by omega) hparse
      obtain ⟨a', w, b', ha', -, hw, hb', -, rfl⟩ := hc
      obtain rfl := hw rfl
      exact ⟨e, _, ⟨a', b', ha', hb', by simp⟩, .parens ha he hb, rfl⟩
    · rw [parseSetOperation_name hx hp] at hparse
      obtain rfl := Except.ok.inj (Except.ok.inj hparse)
      exact ⟨.name x, x, hp, .name hx, rfl⟩
    · rw [parseSetOperation_complementName hx, parseComplement_eq_ok] at hparse
      obtain ⟨op', hop', rfl⟩ := hparse
      obtain ⟨n, rfl⟩ := Nat.exists_eq_succ_of_ne_zero (n := n) (by have := hx.length_lt; omega)
      obtain ⟨a, k, w, b, ha, hk, hw, hw', hname, hb, rfl⟩ := hx
      rw [parseSetOperation_name hname ⟨[], [], spaces_nil, spaces_nil, by simp⟩] at hop'
      obtain rfl := Except.ok.inj (Except.ok.inj hop')
      exact ⟨.complement (.name x), _, ⟨a, b, ha, hb, by simp⟩, .complementName hk hw hw' hname,
        rfl⟩
    · rw [parseSetOperation_complement hk hc, parseComplement_eq_ok] at hparse
      obtain ⟨op', hop', rfl⟩ := hparse
      have hlen := hc.length_lt
      obtain ⟨e, u, ⟨a, b, ha, hb, rfl⟩, he, rfl⟩ := ih (by omega) hop'
      obtain ⟨a', w, b', ha', hw, -, hb', -, rfl⟩ := hc
      exact ⟨.complement e, _, ⟨a', b', ha', hb', by simp⟩, .complement hk hw ha he hb, rfl⟩
    · rw [parseSetOperation_binary hne hk hk' hc] at hparse
      have htype : string2opType (str2upper k) ≠ 0 := fun hzero => by
        simp [parseBinaryOp, hzero, map_eq_ok] at hparse
      obtain ⟨o, ho⟩ := (string2opType_ne_zero htype).resolve_left hk'
      obtain ⟨u, v, l, r, -, rfl, hl, hr, rfl⟩ := (parseBinaryOp_eq_ok o ho).mp hparse
      have hlen := hc.length_lt
      rw [List.length_append, List.length_cons] at hlen
      obtain ⟨el, ul, ⟨a, b, ha, hb, rfl⟩, hel, rfl⟩ := ih (by omega) hl
      obtain ⟨er, ur, ⟨d, g, hd, hg, rfl⟩, her, rfl⟩ := ih (by omega) hr
      obtain ⟨a', w, b', ha', hw, -, hb', -, rfl⟩ := hc
      exact ⟨o.expr el er, _, ⟨a', b', ha', hb', by simp⟩, .binary o ho hw ha hel hb hd her hg,
        (o.toSetOp_expr el er).symm⟩
    · rw [hfail, map_eq_ok] at hparse
      obtain ⟨message, -, hm⟩ := hparse
      cases hm

/-- The parts of a derived text have no semicolon, so the expressions find them. -/
theorem Derives.content {e : SetExpr Bytes} {p w q : Bytes} (hp : Spaces p) (hw : Derives e w)
    (hq : Spaces q) : p ++ w ++ q ≠ [] ∧ semicolon ∉ p ++ w ++ q := by
  have hx := isPunctuation_semicolon
  exact ⟨by simp [hw.ne_nil], by simp [hp.not_mem hx, hq.not_mem hx, hw.not_mem]⟩

/-- A text that derives an expression is parsed as its tree. -/
theorem parseSetOperation_of_derives {n : ℕ} {s u : Bytes} {e : SetExpr Bytes} (h : s.length < n)
    (hs : Padded s u) (he : Derives e u) :
    parseSetOperation queryRegex n s = .ok (.ok e.toSetOp) := by
  induction n generalizing s u e with
  | zero => exact absurd h (Nat.not_lt_zero _)
  | succ n ih =>
    obtain ⟨a, b, ha, hb, rfl⟩ := hs
    cases he with
    | name hn => exact parseSetOperation_name hn ⟨a, b, ha, hb, rfl⟩
    | @parens e p w q hp hw hq =>
      have hc : Enclosed [] (a ++ openParen :: (p ++ w ++ q ++ [closeParen]) ++ b) (p ++ w ++ q) :=
        ⟨a, [], b, ha, spaces_nil, fun _ => rfl, hb, hw.content hp hq, by simp⟩
      have hlen := hc.length_lt
      rw [parseSetOperation_parens hc]
      exact ih (by omega) ⟨p, q, hp, hq, rfl⟩ hw
    | @complementName k w x hk hw hw' hx =>
      have hc : ComplementName (a ++ (k ++ w ++ x) ++ b) x :=
        ⟨a, k, w, b, ha, hk, hw, hw', hx, hb, by simp⟩
      have hlen := hc.length_lt
      rw [parseSetOperation_complementName hc, parseComplement_eq_ok]
      exact ⟨_, ih (by omega) ⟨[], [], spaces_nil, spaces_nil, by simp⟩ (.name hx), rfl⟩
    | @complement e k w p x q hk hw hp hx hq =>
      have hc : Enclosed k (a ++ (k ++ w ++ openParen :: (p ++ x ++ q ++ [closeParen])) ++ b)
          (p ++ x ++ q) :=
        ⟨a, w, b, ha, hw, fun hnil => absurd hnil (hk.isName letters_complement (by decide)).1, hb,
          hx.content hp hq, by simp⟩
      have hlen := hc.length_lt
      rw [parseSetOperation_complement hk hc, parseComplement_eq_ok]
      exact ⟨_, ih (by omega) ⟨p, q, hp, hq, rfl⟩ hx, rfl⟩
    | @binary l r k w p x q d y g o hk hw hp hl hq hd hr hg =>
      have hname := hk.isName o.letters o.word_ne_nil
      have hc : Enclosed k (a ++ (k ++ w ++ openParen ::
          (p ++ x ++ q ++ comma :: (d ++ y ++ g) ++ [closeParen])) ++ b)
          (p ++ x ++ q ++ comma :: (d ++ y ++ g)) := by
        refine ⟨a, w, b, ha, hw, fun hnil => absurd hnil hname.1, hb, ⟨by simp, ?_⟩, by simp⟩
        rw [List.mem_append, List.mem_cons, not_or, not_or]
        exact ⟨(hl.content hp hq).2, by decide, (hr.content hd hg).2⟩
      have hcompl : ¬ Keyword (lit "COMPLEMENT") k := fun h' => by
        have hword : o.word = lit "COMPLEMENT" := hk.symm.trans h'
        cases o <;> exact absurd hword (by decide)
      have hlen := hc.length_lt
      rw [List.length_append, List.length_cons] at hlen
      rw [parseSetOperation_binary hname.1 (hk.letters o.letters) hcompl hc,
        parseBinaryOp_eq_ok o hk]
      have hcomma := ((hp.neutral.append hl.neutral).append hq.neutral).find (d ++ y ++ g)
      exact ⟨p ++ x ++ q, d ++ y ++ g, l.toSetOp, r.toSetOp, hcomma, rfl,
        ih (by omega) ⟨p, q, hp, hq, rfl⟩ hl, ih (by omega) ⟨d, g, hd, hg, rfl⟩ hr,
        o.toSetOp_expr l r⟩

/-- **A set operation is parsed exactly when it derives an expression**, and the result is the tree
of the expression. -/
theorem parseSetOperation_eq_ok {n : ℕ} {s : Bytes} (h : s.length < n) :
    parseSetOperation queryRegex n s = .ok (.ok op) ↔
      ∃ e u, Padded s u ∧ Derives e u ∧ op = e.toSetOp := by
  constructor
  · exact derives_of_parseSetOperation h
  · rintro ⟨e, u, hs, he, rfl⟩
    exact parseSetOperation_of_derives h hs he

end SetOperation

end SetQL
