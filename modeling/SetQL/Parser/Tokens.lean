import SetQL.Base.Search
import SetQL.Parser.StatementShapes

/-!
# The texts of values and items

The forms of a value in an insertion, a bare word or a quoted text, and of an item, a value or
values in parentheses, as the expressions match them. Where a value that a text starts with is
followed by a byte that ends it, no other value starts the text and is ended as well.

## Main definitions

* `AnyText`, `TupleText`: the text of a value, and of values in parentheses
* `PlainText`, `PlainTuple`: those whose quoted texts have no backslash
* `Ends x`: the text ends a bare value in front of it

## Main results

* `parse_anyRegex`, `parse_tupleRegex`: the expressions match exactly these texts
* `AnyText.eq_of_ends`, `TupleText.unique`: the value and the tuple that a text starts with are
  unique
-/

namespace SetQL

/-- A byte of a bare value. -/
def IsBareByte (b : UInt8) : Prop :=
  IsNameByte b ∨ b = chr '.' ∨ b = chr '+' ∨ b = backslash ∨ b = chr '-'

instance : DecidablePred IsBareByte := fun b =>
  inferInstanceAs (Decidable (IsNameByte b ∨ b = chr '.' ∨ b = chr '+' ∨ b = backslash ∨ b = chr '-'))

/-- Bytes of a quoted text: each is no quotation mark and no backslash, or is behind a backslash. -/
inductive BodyText : Bytes → Prop
  | nil : BodyText []
  | byte {b w} (hq : b ≠ quote) (hb : b ≠ backslash) (h : BodyText w) : BodyText (b :: w)
  | escape {b w} (h : BodyText w) : BodyText (backslash :: b :: w)

/-- The text of a value, bare or quoted. -/
inductive AnyText : Bytes → Prop
  | bare {w} (hne : w ≠ []) (h : ∀ b ∈ w, IsBareByte b) : AnyText w
  | quoted {w} (hne : w ≠ []) (h : BodyText w) : AnyText (quote :: (w ++ [quote]))

/-- Further values with white space around the commas before them. -/
inductive TupleTail : Bytes → Prop
  | nil : TupleTail []
  | cons {a b t w} (ha : Spaces a) (hb : Spaces b) (ht : AnyText t) (h : TupleTail w) :
    TupleTail (a ++ comma :: (b ++ (t ++ w)))

/-- Values in parentheses. -/
def TupleText (w : Bytes) : Prop :=
  ∃ t v, AnyText t ∧ TupleTail v ∧ w = openParen :: (t ++ (v ++ [closeParen]))

/-- The text of a value without a backslash in quotes. -/
inductive PlainText : Bytes → Prop
  | bare {w} (hne : w ≠ []) (h : ∀ b ∈ w, IsBareByte b) : PlainText w
  | quoted {w} (hne : w ≠ []) (hq : quote ∉ w) (hb : backslash ∉ w) :
    PlainText (quote :: (w ++ [quote]))

/-- Further values without a backslash in quotes. -/
inductive PlainTail : Bytes → Prop
  | nil : PlainTail []
  | cons {a b t w} (ha : Spaces a) (hb : Spaces b) (ht : PlainText t) (h : PlainTail w) :
    PlainTail (a ++ comma :: (b ++ (t ++ w)))

/-- Values in parentheses without a backslash in quotes. -/
def PlainTuple (w : Bytes) : Prop :=
  ∃ t v, PlainText t ∧ PlainTail v ∧ w = openParen :: (t ++ (v ++ [closeParen]))

/-- The first byte of a value. -/
def IsTokenStart (b : UInt8) : Prop := IsBareByte b ∨ b = quote

instance : DecidablePred IsTokenStart := fun b =>
  inferInstanceAs (Decidable (IsBareByte b ∨ b = quote))

/-- A text ends a bare value in front of it. -/
def Ends (x : Bytes) : Prop := ∀ b ∈ x.head?, ¬IsBareByte b

/-! ## Bytes -/

theorem contains_bareSet (b : UInt8) : bareSet.contains b = true ↔ IsBareByte b :=
  forall_byte (p := fun b => bareSet.contains b = true ↔ IsBareByte b) (by decide +kernel) b

theorem contains_unquotedSet (b : UInt8) :
    unquotedSet.contains b = true ↔ b ≠ quote ∧ b ≠ backslash :=
  forall_byte (p := fun b => unquotedSet.contains b = true ↔ b ≠ quote ∧ b ≠ backslash)
    (by decide +kernel) b

theorem contains_quote (b : UInt8) : (literal true quote).contains b = true ↔ b = quote :=
  contains_literal_iff (by decide) true b

theorem contains_backslash (icase : Bool) (b : UInt8) :
    (literal icase backslash).contains b = true ↔ b = backslash :=
  contains_literal_iff (by decide) icase b

theorem contains_any (icase : Bool) (b : UInt8) : (anySet icase).contains b = true := by
  simp [anySet, ByteSet.contains, ByteSet.inRanges]

/-! ## Quoted texts -/

section Quoted

variable {r : Regex} {x : ByteSet} {icase : Bool} {i n : ℕ} {w : Bytes} {cs : List Capture}

/-- `([^x]|(\\.))`, with the first of its two groups. -/
def unitRegex (icase : Bool) (x : ByteSet) (n : ℕ) : Regex :=
  .group n (.alt (.set x) (.group (n + 1) (.seq (.set (literal icase backslash)) (.set (anySet icase)))))

theorem parse_unitRegex (hx : ∀ b, x.contains b = true ↔ b ≠ quote ∧ b ≠ backslash) :
    (∃ cs, Parse (unitRegex icase x n) i w cs) ↔
      (∃ b, w = [b] ∧ b ≠ quote ∧ b ≠ backslash) ∨ ∃ b, w = [backslash, b] := by
  simp only [unitRegex, parse_group, parse_alt, parse_seq, parse_set, hx, contains_backslash,
    contains_any]
  constructor
  · rintro ⟨cs, c, -, ⟨b, hb, rfl, -⟩ | ⟨-, -, u, v, -, -, rfl, -, ⟨b, rfl, rfl, -⟩, b', -, rfl, -⟩⟩
    · exact Or.inl ⟨b, rfl, hb⟩
    · exact Or.inr ⟨b', rfl⟩
  · rintro (⟨b, rfl, hb⟩ | ⟨b, rfl⟩)
    · exact ⟨_, _, rfl, Or.inl ⟨b, hb, rfl, rfl⟩⟩
    · exact ⟨_, _, rfl, Or.inr ⟨_, rfl, [backslash], [b], [], [], rfl, rfl, ⟨_, rfl, rfl, rfl⟩, b,
        trivial, rfl, rfl⟩⟩

/-- The repetition of the unit matches the bytes of a quoted text. -/
theorem parse_star_unitRegex (hx : ∀ b, x.contains b = true ↔ b ≠ quote ∧ b ≠ backslash) :
    (∃ cs, Parse (.star (unitRegex icase x n)) i w cs) ↔ BodyText w := by
  constructor
  · rintro ⟨cs, h⟩
    apply h.star_induction .nil
    intro i u c v hr hrest
    rcases (parse_unitRegex hx).mp ⟨c, hr⟩ with ⟨b, rfl, hq, hb⟩ | ⟨b, rfl⟩
    · exact .byte hq hb hrest
    · exact .escape hrest
  · intro h
    induction h generalizing i with
    | nil => exact ⟨[], .starNil _ i⟩
    | @byte b w hq hb _ ih =>
      obtain ⟨c, hc⟩ : ∃ c, Parse (unitRegex icase x n) i [b] c :=
        (parse_unitRegex hx).mpr (Or.inl ⟨b, rfl, hq, hb⟩)
      obtain ⟨d, hd⟩ := ih (i := i + [b].length)
      exact ⟨c ++ d, .starCons (List.cons_ne_nil _ _) hc hd⟩
    | @escape b w _ ih =>
      obtain ⟨c, hc⟩ : ∃ c, Parse (unitRegex icase x n) i [backslash, b] c :=
        (parse_unitRegex hx).mpr (Or.inr ⟨b, rfl⟩)
      obtain ⟨d, hd⟩ := ih (i := i + [backslash, b].length)
      exact ⟨c ++ d, .starCons (List.cons_ne_nil _ _) hc hd⟩

theorem parse_plus_unitRegex (hx : ∀ b, x.contains b = true ↔ b ≠ quote ∧ b ≠ backslash) :
    (∃ cs, Parse (.plus (unitRegex icase x n)) i w cs) ↔ w ≠ [] ∧ BodyText w := by
  constructor
  · rintro ⟨cs, h⟩
    obtain ⟨u, v, c, d, rfl, -, hr, hs⟩ := parse_seq.mp h
    have hrest := (parse_star_unitRegex hx).mp ⟨d, hs⟩
    rcases (parse_unitRegex hx).mp ⟨c, hr⟩ with ⟨b, rfl, hq, hb⟩ | ⟨b, rfl⟩
    · exact ⟨List.cons_ne_nil _ _, .byte hq hb hrest⟩
    · exact ⟨List.cons_ne_nil _ _, .escape hrest⟩
  · rintro ⟨hne, h⟩
    have hunit : ∀ {u : Bytes}, (∃ cs, Parse (unitRegex icase x n) i u cs) ↔
        (∃ b, u = [b] ∧ b ≠ quote ∧ b ≠ backslash) ∨ ∃ b, u = [backslash, b] := parse_unitRegex hx
    cases h with
    | nil => exact absurd rfl hne
    | @byte b w hq hb h =>
      obtain ⟨c, hc⟩ := hunit.mpr (Or.inl ⟨b, rfl, hq, hb⟩)
      obtain ⟨d, hd⟩ := (parse_star_unitRegex hx).mpr h
      exact ⟨_, .seq hc hd⟩
    | @escape b w h =>
      obtain ⟨c, hc⟩ := hunit.mpr (Or.inr ⟨b, rfl⟩)
      obtain ⟨d, hd⟩ := (parse_star_unitRegex hx).mpr h
      exact ⟨_, .seq hc hd⟩

/-- The bytes of a quoted text, and then a match. -/
theorem Parse.stringBody (hx : ∀ b, x.contains b = true ↔ b ≠ quote ∧ b ≠ backslash)
    (h : Parse (stringBodyThen icase x n r) i w cs) : ∃ u v c d, w = u ++ v ∧
      cs = c ++ ⟨n, i, i + u.length⟩ :: d ∧ (u ≠ [] ∧ BodyText u) ∧ Parse r (i + u.length) v d := by
  obtain ⟨u, v, c, d, hw, hcs, hu, hv⟩ := parse_regexThen.mp h
  exact ⟨u, v, c, d, hw, hcs, (parse_plus_unitRegex hx).mp ⟨c, hu⟩, hv⟩

theorem BodyText.parse {v : Bytes} (hx : ∀ b, x.contains b = true ↔ b ≠ quote ∧ b ≠ backslash)
    (hne : w ≠ []) (h : BodyText w) (hr : Parse r (i + w.length) v cs) :
    ∃ cs, Parse (stringBodyThen icase x n r) i (w ++ v) cs := by
  obtain ⟨c, hc⟩ : ∃ c, Parse (.plus (unitRegex icase x (n + 1))) i w c :=
    (parse_plus_unitRegex hx).mpr ⟨hne, h⟩
  exact ⟨_, parse_regexThen.mpr ⟨w, v, c, cs, rfl, rfl, hc, hr⟩⟩

end Quoted

/-! ## Values -/

section Values

variable {r : Regex} {i n : ℕ} {w : Bytes} {cs : List Capture}

/-- **The expression of a value matches exactly the texts of values.** -/
theorem parse_anyRegex : (∃ cs, Parse (anyRegex n) i w cs) ↔ AnyText w := by
  constructor
  · rintro ⟨cs, h⟩
    obtain ⟨_, -, halt⟩ := parse_group.mp h
    rcases parse_alt.mp halt with hbare | hquoted
    · obtain ⟨_, -, hplus⟩ := parse_group.mp hbare
      obtain ⟨hne, hall, -⟩ := parse_plus_set.mp hplus
      exact .bare hne fun b hb => (contains_bareSet b).mp (hall b hb)
    · obtain ⟨_, -, hseq⟩ := parse_group.mp hquoted
      obtain ⟨v, rfl, hbody⟩ := (parse_byteThen contains_quote).mp hseq
      obtain ⟨u, v, c, d, rfl, -, ⟨hne, hu⟩, hv⟩ := hbody.stringBody contains_unquotedSet
      obtain ⟨b, hb, rfl, -⟩ := parse_set.mp hv
      obtain rfl := (contains_quote b).mp hb
      exact .quoted hne hu
  · intro h
    cases h with
    | bare hne h =>
      have hall : ∀ b ∈ w, bareSet.contains b = true := fun b hb => (contains_bareSet b).mpr (h b hb)
      exact ⟨_, .group n (.altLeft (.group (n + 1) (parse_plus_set.mpr ⟨hne, hall, rfl⟩)))⟩
    | @quoted w hne h =>
      have hend : Parse (.set (literal true quote)) (i + 1 + w.length) [quote] [] :=
        .set _ ((contains_quote quote).mpr rfl)
      obtain ⟨c, hc⟩ := h.parse (n := n + 3) contains_unquotedSet hne hend
      exact ⟨_, .group n (.altRight (.group (n + 2) ((parse_byteThen contains_quote).mpr
        ⟨w ++ [quote], rfl, hc⟩)))⟩

/-- A value and then a match. -/
theorem Parse.anyThen (h : Parse (.seq (anyRegex n) r) i w cs) : ∃ u v c d, w = u ++ v ∧
    cs = c ++ ⟨n, i, i + u.length⟩ :: d ∧ AnyText u ∧ Parse r (i + u.length) v d := by
  obtain ⟨u, v, c, d, hw, hcs, hu, hv⟩ := parse_regexThen.mp h
  exact ⟨u, v, c, d, hw, hcs, parse_anyRegex.mp ⟨_, .group n hu⟩, hv⟩

/-- The further values of a tuple. -/
theorem parse_tupleTail : (∃ cs, Parse (.star (.group n (spacesThen (charThen ','
    (spacesThen (anyRegex (n + 1))))))) i w cs) ↔ TupleTail w := by
  constructor
  · rintro ⟨cs, h⟩
    apply h.star_induction .nil
    intro i u c v hr hrest
    obtain ⟨_, -, hseq⟩ := parse_group.mp hr
    obtain ⟨a, _, rfl, ha, hcomma⟩ := parse_spacesThen.mp hseq
    obtain ⟨_, rfl, hnext⟩ := parse_commaThen.mp hcomma
    obtain ⟨b, t, rfl, hb, ht⟩ := parse_spacesThen.mp hnext
    have hcons := TupleTail.cons ha hb (parse_anyRegex.mp ⟨_, ht⟩) hrest
    show TupleTail ((a ++ comma :: (b ++ t)) ++ v)
    simpa using hcons
  · intro h
    induction h generalizing i with
    | nil => exact ⟨[], .starNil _ i⟩
    | @cons a b t w ha hb ht h ih =>
      obtain ⟨c, hc⟩ := (parse_anyRegex (n := n + 1) (i := i + a.length + 1 + b.length)).mpr ht
      obtain ⟨d, hd⟩ := ih (i := i + (a ++ comma :: (b ++ t)).length)
      have hfirst : Parse (.group n (spacesThen (charThen ',' (spacesThen (anyRegex (n + 1)))))) i
          (a ++ comma :: (b ++ t)) _ := .group n (parse_spacesThen.mpr ⟨a, _, rfl, ha,
        parse_commaThen.mpr ⟨_, rfl,
          parse_spacesThen.mpr ⟨b, t, rfl, hb, hc⟩⟩⟩)
      have := Parse.starCons (by simp) hfirst hd
      exact ⟨_, by simpa using this⟩

/-- Values in parentheses are matched exactly. -/
theorem parse_tupleRegex : (∃ cs, Parse (tupleRegex n) i w cs) ↔ TupleText w := by
  have hopen : IsPunctuation (chr '(') := isPunctuation_openParen
  have hclose : ∀ b, (literal true (chr ')')).contains b = true ↔ b = chr ')' :=
    contains_punctuation (Or.inr (Or.inl rfl))
  constructor
  · rintro ⟨cs, h⟩
    obtain ⟨_, -, hparen⟩ := parse_group.mp h
    obtain ⟨_, rfl, hany⟩ := (parse_charThen hopen).mp hparen
    obtain ⟨t, _, _, _, rfl, -, ht, htail⟩ := hany.anyThen
    obtain ⟨v, _, _, d, rfl, -, hv, hend⟩ := parse_seq.mp htail
    obtain ⟨b, hb, rfl, -⟩ := parse_set.mp hend
    obtain rfl := (hclose b).mp hb
    exact ⟨t, v, ht, parse_tupleTail.mp ⟨_, hv⟩, rfl⟩
  · rintro ⟨t, v, ht, hv, rfl⟩
    obtain ⟨c, hc⟩ := (parse_anyRegex (n := n + 1) (i := i + 1)).mpr ht
    obtain ⟨d, hd⟩ := (parse_tupleTail (n := n + 7) (i := i + 1 + t.length)).mpr hv
    exact ⟨_, .group n ((parse_charThen hopen).mpr
      ⟨_, rfl, .seq hc (.seq hd (.set _ ((hclose _).mpr rfl)))⟩)⟩

end Values

/-! ## Uniqueness -/

section Uniqueness

variable {t t₁ u v w w₁ x y : Bytes}

theorem IsTokenStart.ne {b : UInt8} : IsTokenStart b →
    ¬IsSpace b ∧ b ≠ comma ∧ b ≠ colon ∧ b ≠ openParen ∧ b ≠ closeParen :=
  forall_byte (p := fun b => IsTokenStart b →
    ¬IsSpace b ∧ b ≠ comma ∧ b ≠ colon ∧ b ≠ openParen ∧ b ≠ closeParen) (by decide +kernel) b

theorem not_isBareByte_of_isSpace {b : UInt8} : IsSpace b → ¬IsBareByte b :=
  forall_byte (p := fun b => IsSpace b → ¬IsBareByte b) (by decide +kernel) b

theorem bodyText_of_not_mem (hq : quote ∉ w) (hb : backslash ∉ w) : BodyText w := by
  induction w with
  | nil => exact .nil
  | cons b w ih =>
    obtain ⟨hbq, hq⟩ := List.ne_and_not_mem_of_not_mem_cons hq
    obtain ⟨hbb, hb⟩ := List.ne_and_not_mem_of_not_mem_cons hb
    exact .byte (Ne.symm hbq) (Ne.symm hbb) (ih hq hb)

theorem PlainText.anyText (h : PlainText t) : AnyText t := by
  cases h with
  | bare hne h => exact .bare hne h
  | quoted hne hq hb => exact .quoted hne (bodyText_of_not_mem hq hb)

theorem PlainTail.tupleTail (h : PlainTail w) : TupleTail w := by
  induction h with
  | nil => exact .nil
  | cons ha hb ht _ ih => exact .cons ha hb ht.anyText ih

theorem PlainTuple.tupleText (h : PlainTuple w) : TupleText w := by
  obtain ⟨t, v, ht, hv, rfl⟩ := h
  exact ⟨t, v, ht.anyText, hv.tupleTail, rfl⟩

theorem AnyText.start (h : AnyText t) : ∃ b s, t = b :: s ∧ IsTokenStart b := by
  cases h with
  | bare hne h =>
    obtain ⟨b, s, rfl⟩ := List.exists_cons_of_ne_nil hne
    exact ⟨b, s, rfl, Or.inl (h b List.mem_cons_self)⟩
  | quoted => exact ⟨_, _, rfl, Or.inr rfl⟩

theorem AnyText.head (h : AnyText t) (x : Bytes) : ∀ b ∈ (t ++ x).head?, IsTokenStart b := by
  obtain ⟨b, s, rfl, hb⟩ := h.start
  rintro c ⟨⟩
  exact hb

/-- The bytes of a quoted text end at the first quotation mark that is not behind a backslash. -/
theorem BodyText.eq_of_quote (h : BodyText u) (h' : BodyText v)
    (heq : u ++ quote :: y = v ++ quote :: x) : u = v := by
  have hne : quote ≠ backslash := by decide
  induction h generalizing v with
  | nil =>
    cases h' with
    | nil => rfl
    | byte hq => exact absurd (List.cons.inj heq).1.symm hq
    | escape => exact absurd (List.cons.inj heq).1 hne
  | byte hq hb _ ih =>
    cases h' with
    | nil => exact absurd (List.cons.inj heq).1 hq
    | byte _ _ h' =>
      obtain ⟨rfl, hrest⟩ := List.cons.inj heq
      rw [ih h' hrest]
    | escape => exact absurd (List.cons.inj heq).1 hb
  | escape _ ih =>
    cases h' with
    | nil => exact absurd (List.cons.inj heq).1.symm hne
    | byte _ hb => exact absurd (List.cons.inj heq).1.symm hb
    | escape h' =>
      obtain ⟨rfl, hrest⟩ := List.cons.inj (List.cons.inj heq).2
      rw [ih h' hrest]

/-- **The value that a text starts with** is unique, or a shorter part of a bare one. -/
theorem AnyText.eq_or_shorter (ht₁ : AnyText t₁) (ht : AnyText t) (hx : Ends x)
    (heq : t₁ ++ y = t ++ x) : t₁ = t ∨ t₁.length < t.length ∧ ∃ b z, y = b :: z ∧ IsBareByte b := by
  have hquote : ¬IsBareByte quote := by decide
  cases ht with
  | bare hne h =>
    cases ht₁ with
    | bare hne₁ h₁ =>
      -- the longer of two bare values goes on where the other one ends
      rcases List.append_eq_append_iff.mp heq with ⟨z, rfl, rfl⟩ | ⟨z, rfl, rfl⟩
      · cases z with
        | nil => exact Or.inl (List.append_nil _).symm
        | cons b z =>
          refine Or.inr ⟨by simp, b, z ++ x, rfl, h b ?_⟩
          exact List.mem_append_right _ List.mem_cons_self
      · cases z with
        | nil => exact Or.inl (List.append_nil _)
        | cons b z =>
          exact absurd (h₁ b (List.mem_append_right _ List.mem_cons_self)) (hx b rfl)
    | quoted =>
      obtain ⟨b, s, rfl⟩ := List.exists_cons_of_ne_nil hne
      have hb := h b List.mem_cons_self
      rw [← (List.cons.inj heq).1] at hb
      exact absurd hb hquote
  | quoted hne h =>
    cases ht₁ with
    | bare hne₁ h₁ =>
      obtain ⟨b, s, rfl⟩ := List.exists_cons_of_ne_nil hne₁
      have hbare := h₁ b List.mem_cons_self
      rw [(List.cons.inj heq).1] at hbare
      exact absurd hbare hquote
    | quoted hne₁ h₁ =>
      simp only [List.cons_append, List.append_assoc, List.nil_append, List.cons.injEq, true_and]
        at heq
      rw [h₁.eq_of_quote h heq]
      exact Or.inl rfl

/-- **A value at the start of a text is unique if it is ended.** -/
theorem AnyText.eq_of_ends (ht₁ : AnyText t₁) (hy : Ends y) (ht : AnyText t) (hx : Ends x)
    (heq : t₁ ++ y = t ++ x) : t₁ = t ∧ y = x := by
  rcases ht₁.eq_or_shorter ht hx heq with rfl | ⟨-, b, z, rfl, hb⟩
  · exact ⟨rfl, List.append_cancel_left heq⟩
  · exact absurd hb (hy b rfl)

theorem ends_of_spaces {a : Bytes} (ha : Spaces a) (hx : Ends x) : Ends (a ++ x) := by
  cases a with
  | nil => exact hx
  | cons c a =>
    rintro b ⟨⟩
    exact not_isBareByte_of_isSpace (ha c List.mem_cons_self)

theorem TupleTail.ends (h : TupleTail w) (x : Bytes) : Ends (w ++ closeParen :: x) := by
  cases h with
  | nil =>
    rintro b ⟨⟩
    decide
  | cons ha =>
    rw [List.append_assoc]
    apply ends_of_spaces ha
    rintro b ⟨⟩
    decide

/-- **The further values of a tuple are unique.** -/
theorem TupleTail.eq_of_close (h₁ : TupleTail w₁) (h : TupleTail w)
    (heq : w₁ ++ closeParen :: y = w ++ closeParen :: x) : w₁ = w := by
  have hcomma : ∀ {a s r : Bytes}, Spaces a → a ++ comma :: s ≠ closeParen :: r := by
    intro a s r ha heq
    cases a with
    | nil => exact absurd (List.cons.inj heq).1 (by decide)
    | cons c a =>
      have hc := ha c List.mem_cons_self
      rw [(List.cons.inj heq).1] at hc
      exact absurd hc (by decide)
  induction h generalizing w₁ with
  | nil =>
    cases h₁ with
    | nil => rfl
    | cons ha =>
      rw [List.append_assoc] at heq
      exact absurd heq (hcomma ha)
  | cons ha hb ht h ih =>
    cases h₁ with
    | nil =>
      rw [List.append_assoc] at heq
      exact absurd heq.symm (hcomma ha)
    | cons ha₁ hb₁ ht₁ h₁ =>
      simp only [List.append_assoc, List.cons_append] at heq
      have hspace : ∀ s : Bytes, ∀ b ∈ (comma :: s).head?, ¬IsSpace b := by
        rintro s b ⟨⟩
        decide
      obtain ⟨rfl, hcommas⟩ := append_inj_of_all (p := IsSpace) ha₁ ha (hspace _) (hspace _) heq
      obtain ⟨rfl, hvalues⟩ := append_inj_of_all (p := IsSpace) hb₁ hb
        (fun b hb => (ht₁.head _ b hb).ne.1) (fun b hb => (ht.head _ b hb).ne.1)
        (List.cons.inj hcommas).2
      obtain ⟨rfl, hrest⟩ := ht₁.eq_of_ends (h₁.ends y) ht (h.ends x) hvalues
      rw [ih h₁ hrest]

/-- **The tuple that a text starts with is unique.** -/
theorem TupleText.unique (h₁ : TupleText t₁) (h : TupleText t) (heq : t₁ ++ y = t ++ x) :
    t₁ = t ∧ y = x := by
  obtain ⟨v₁, w₁, hv₁, hw₁, rfl⟩ := h₁
  obtain ⟨v, w, hv, hw, rfl⟩ := h
  simp only [List.append_assoc, List.cons_append, List.nil_append, List.cons.injEq, true_and] at heq
  obtain ⟨rfl, hrest⟩ := hv₁.eq_of_ends (hw₁.ends y) hv (hw.ends x) heq
  obtain rfl := hw₁.eq_of_close hw hrest
  exact ⟨rfl, (List.cons.inj (List.append_cancel_left hrest)).2⟩

end Uniqueness

end SetQL
