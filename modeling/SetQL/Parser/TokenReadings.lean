import SetQL.Parser.Tokens

/-!
# Reading values and items

What the expressions of values and of items find at a cursor where a value or an item is followed by
white space and a byte that ends it: exactly this value or item, with all of the white space behind
it.

## Main definitions

* `ValueLead`, `ItemLead`: what a value and an item may have in front of them
* `PlainItem`: the text of an item

## Main results

* `value_eq`, `item_eq`: the value and the item at a cursor
* `insertion_eq_of_shape`: the items of an insertion, and what they are inserted into
-/

namespace SetQL

/-- White space, perhaps with an opening parenthesis or a comma in it. -/
def ValueLead (l : Bytes) : Prop :=
  ∃ s o s', Spaces s ∧ Spaces s' ∧ (o = [] ∨ o = [openParen] ∨ o = [comma]) ∧ l = s ++ (o ++ s')

/-- White space, perhaps with a comma in front. -/
def ItemLead (l : Bytes) : Prop := ∃ o s, (o = [] ∨ o = [comma]) ∧ Spaces s ∧ l = o ++ s

/-- A value, or values in parentheses. -/
def PlainItem (t : Bytes) : Prop := PlainText t ∨ PlainTuple t

/-- A text goes on neither with white space nor with a bare value. -/
def Stops (x : Bytes) : Prop := ∀ b ∈ x.head?, ¬IsSpace b ∧ ¬IsBareByte b

/-- A byte in front of a value. -/
def IsLeadByte (b : UInt8) : Prop := IsSpace b ∨ b = openParen ∨ b = comma

section Matches

variable {i : ℕ} {l t s w x r : Bytes} {cs : List Capture}

theorem contains_openingSet (b : UInt8) :
    openingSet.contains b = true ↔ b = openParen ∨ b = comma :=
  forall_byte (p := fun b => openingSet.contains b = true ↔ b = openParen ∨ b = comma)
    (by decide +kernel) b

theorem ValueLead.bytes (h : ValueLead l) : ∀ b ∈ l, IsLeadByte b := by
  obtain ⟨s, o, s', hs, hs', ho, rfl⟩ := h
  intro b hb
  rcases List.mem_append.mp hb with hb | hb
  · exact Or.inl (hs b hb)
  rcases List.mem_append.mp hb with hb | hb
  · rcases ho with rfl | rfl | rfl
    · exact absurd hb List.not_mem_nil
    · exact Or.inr (Or.inl (List.mem_singleton.mp hb))
    · exact Or.inr (Or.inr (List.mem_singleton.mp hb))
  · exact Or.inl (hs' b hb)

theorem IsTokenStart.not_isLeadByte {b : UInt8} (h : IsTokenStart b) : ¬IsLeadByte b := by
  rintro (hs | hs | hs)
  · exact h.ne.1 hs
  · exact h.ne.2.2.2.1 hs
  · exact h.ne.2.1 hs

/-- What the expression of values matches, and where its groups are. -/
theorem Parse.values (h : Parse parserRegex.universeValues.body i w cs) : ∃ l t s g c₁ c₇ k,
    w = l ++ (t ++ (s ++ g)) ∧ ValueLead l ∧ AnyText t ∧ Spaces s ∧ (∀ b ∈ g.head?, b = comma) ∧
    cs = c₁ ++ ⟨1, i + l.length, i + l.length + t.length⟩ ::
      (c₇ ++ [⟨7, i + l.length + t.length + s.length, k⟩]) ∧ ∀ c ∈ c₇, c.group ≠ 1 := by
  obtain ⟨a, _, rfl, ha, h₁⟩ := parse_spacesThen.mp h
  obtain ⟨o, _, c, _, rfl, rfl, hopt, h₂⟩ := parse_seq.mp h₁
  obtain ⟨a', _, rfl, ha', h₃⟩ := parse_spacesThen.mp h₂
  obtain ⟨t, _, c₁, _, rfl, rfl, ht, h₄⟩ := h₃.anyThen
  obtain ⟨s, g, rfl, hs, h₅⟩ := parse_spacesThen.mp h₄
  obtain ⟨c₇, rfl, h₆⟩ := parse_group.mp h₅
  obtain ⟨ho, rfl⟩ := parse_opt_set.mp hopt
  have hlead : ValueLead (a ++ (o ++ a')) := by
    refine ⟨a, o, a', ha, ha', ?_, rfl⟩
    rcases ho with rfl | ⟨b, hb, rfl⟩
    · exact Or.inl rfl
    · rcases (contains_openingSet b).mp hb with rfl | rfl
      · exact Or.inr (Or.inl rfl)
      · exact Or.inr (Or.inr rfl)
  refine ⟨a ++ (o ++ a'), t, s, g, c₁, c₇,
    i + a.length + o.length + a'.length + t.length + s.length + g.length, by simp, hlead, ht, hs,
    ?_, ?_, ?_⟩
  · rcases parse_star.mp h₆ with ⟨rfl, -⟩ | ⟨u, v, _, _, rfl, -, -, hu, -⟩
    · exact nofun
    · obtain ⟨_, -, hu⟩ := parse_group.mp hu
      obtain ⟨_, rfl, -⟩ := parse_commaThen.mp hu
      rintro b ⟨⟩
      rfl
  · simp [Nat.add_assoc]
  · intro c hc
    have hgroup := h₆.mem_groups c hc
    have hgroups : ∀ n ∈ (valuesTailRegex 8).groups, n ≠ 1 := by decide
    exact hgroups _ hgroup

/-- A value with white space behind it is matched. -/
theorem parse_values (hl : ValueLead l) (ht : AnyText t) (hs : Spaces s) :
    ∃ cs, Parse parserRegex.universeValues.body i (l ++ (t ++ s)) cs := by
  obtain ⟨a, o, a', ha, ha', ho, rfl⟩ := hl
  obtain ⟨c, hc⟩ := (parse_anyRegex (n := 1) (i := i + a.length + o.length + a'.length)).mpr ht
  have hopt : (o = [] ∨ ∃ b, openingSet.contains b = true ∧ o = [b]) := by
    rcases ho with rfl | rfl | rfl
    · exact Or.inl rfl
    · exact Or.inr ⟨_, (contains_openingSet _).mpr (Or.inl rfl), rfl⟩
    · exact Or.inr ⟨_, (contains_openingSet _).mpr (Or.inr rfl), rfl⟩
  have htail : Parse (.group 7 (valuesTailRegex 8))
      (i + a.length + o.length + a'.length + t.length + s.length) [] _ := .group 7 (.starNil _ _)
  have hparse : Parse parserRegex.universeValues.body i (a ++ (o ++ (a' ++ (t ++ (s ++ []))))) _ :=
    parse_spacesThen.mpr ⟨a, _, rfl, ha, .seq (parse_opt_set.mpr ⟨hopt, rfl⟩)
      (parse_spacesThen.mpr ⟨a', _, rfl, ha',
        .seq hc (parse_spacesThen.mpr ⟨s, [], rfl, hs, htail⟩)⟩)⟩
  rw [List.append_nil] at hparse
  rw [List.append_assoc, List.append_assoc]
  exact ⟨_, hparse⟩

/-- What the expression of items matches, and where its group is. -/
theorem Parse.item (h : Parse parserRegex.universeInsertSupp.body i w cs) : ∃ l t s c,
    w = l ++ (t ++ s) ∧ ItemLead l ∧ (AnyText t ∨ TupleText t) ∧ Spaces s ∧
      cs = c ++ [⟨1, i + l.length, i + l.length + t.length⟩] := by
  obtain ⟨o, _, c, _, rfl, rfl, hopt, h₁⟩ := parse_seq.mp h
  obtain ⟨ho, rfl⟩ := parse_optComma.mp hopt
  obtain ⟨a, _, rfl, ha, h₂⟩ := parse_spacesThen.mp h₁
  obtain ⟨t, s, c, _, rfl, rfl, ht, h₃⟩ := parse_regexThen.mp h₂
  obtain ⟨hs, rfl⟩ := parse_spaces.mp h₃
  refine ⟨o ++ a, t, s, c, by simp, ⟨o, a, ho, ha, rfl⟩, ?_, hs, by simp [Nat.add_assoc]⟩
  rcases parse_alt.mp ht with ht | ht
  · obtain ⟨_, -, hany⟩ := parse_group.mp ht
    exact Or.inl (parse_anyRegex.mp ⟨_, hany⟩)
  · exact Or.inr (parse_tupleRegex.mp ⟨_, ht⟩)

/-- An item with white space behind it is matched. -/
theorem parse_item (hl : ItemLead l) (ht : AnyText t ∨ TupleText t) (hs : Spaces s) :
    ∃ cs, Parse parserRegex.universeInsertSupp.body i (l ++ (t ++ s)) cs := by
  obtain ⟨o, a, ho, ha, rfl⟩ := hl
  obtain ⟨c, hc⟩ : ∃ c, Parse (.alt (.group 2 (anyRegex 3)) (tupleRegex 9))
      (i + o.length + a.length) t c := by
    rcases ht with ht | ht
    · obtain ⟨c, hc⟩ := (parse_anyRegex (n := 3) (i := i + o.length + a.length)).mpr ht
      exact ⟨_, .altLeft (.group 2 hc)⟩
    · obtain ⟨c, hc⟩ := (parse_tupleRegex (n := 9) (i := i + o.length + a.length)).mpr ht
      exact ⟨c, .altRight hc⟩
  have hparse : Parse parserRegex.universeInsertSupp.body i (o ++ (a ++ (t ++ s))) _ :=
    .seq (parse_optComma.mpr ⟨ho, rfl⟩) (parse_spacesThen.mpr ⟨a, _, rfl, ha,
      .seq (.group 1 hc) (parse_spaces.mpr ⟨hs, rfl⟩)⟩)
  rw [List.append_assoc]
  exact ⟨_, hparse⟩

end Matches

/-! ## Readings -/

section Readings

variable {l t s s₁ x r : Bytes}

theorem Stops.ends (h : Stops x) : Ends x := fun b hb => (h b hb).2

theorem stops_cons {b : UInt8} (hb : ¬IsSpace b ∧ ¬IsBareByte b) : Stops (b :: x) := by
  rintro c ⟨⟩
  exact hb

theorem stops_comma (x : Bytes) : Stops (comma :: x) := stops_cons ⟨by decide, by decide⟩

/-- A run of white space that is as long as the one in a text, or is not followed by more, is it. -/
theorem spaces_eq (hs : Spaces s) (hs₁ : Spaces s₁) (hx : Stops x) (heq : s₁ ++ r = s ++ x)
    (hr : s.length ≤ s₁.length ∨ ∀ b ∈ r.head?, ¬IsSpace b) : s₁ = s ∧ r = x := by
  rcases hr with hle | hr
  · rcases List.append_eq_append_iff.mp heq with ⟨z, rfl, rfl⟩ | ⟨z, rfl, rfl⟩
    · obtain rfl : z = [] := by
        rw [List.length_append] at hle
        exact List.length_eq_zero_iff.mp (by omega)
      simp
    · cases z with
      | nil => simp
      | cons b z =>
        exact absurd (hs₁ b (List.mem_append_right _ List.mem_cons_self)) (hx b rfl).1
  · exact append_inj_of_all (p := IsSpace) hs₁ hs hr (fun b hb => (hx b hb).1) heq

/-- **The value at a cursor.** -/
theorem value_eq (hl : ValueLead l) (ht : AnyText t) (hs : Spaces s) (hx : Stops x) :
    value (l ++ (t ++ (s ++ x))) = some (t, x) := by
  have hsplit : l ++ (t ++ (s ++ x)) = l ++ (t ++ s) ++ x := by simp
  obtain ⟨cs, hparse⟩ := parse_values (i := 0) hl ht hs
  obtain ⟨m, w, rest, hm, -, -, heq, hlen, hfound⟩ :=
    regexec_of_parse (p := parserRegex.universeValues) x rfl hparse
  obtain ⟨l₁, t₁, s₁, g, c₁, c₇, k, rfl, hl₁, ht₁, hs₁, hg, hcs, hc₇⟩ := hfound.values
  simp only [List.append_assoc] at heq
  simp only [List.length_append] at hlen
  -- the match has the same bytes in front, the same value and the same white space
  obtain ⟨rfl, hvalue⟩ := append_inj_of_all (p := IsLeadByte) hl₁.bytes hl.bytes
    (fun b hb => (ht₁.head _ b hb).not_isLeadByte)
    (fun b hb => (ht.head _ b hb).not_isLeadByte) heq.symm
  have hcomma : ∀ {b : UInt8}, b = comma → ¬IsSpace b ∧ ¬IsBareByte b := by
    rintro _ rfl
    exact ⟨by decide, by decide⟩
  have hspaces : t₁ = t ∧ s₁ = s := by
    rcases ht₁.eq_or_shorter ht (ends_of_spaces hs hx.ends) hvalue with rfl | ⟨hlt, b, z, hb, hbare⟩
    · refine ⟨rfl, (spaces_eq hs hs₁ hx (List.append_cancel_left hvalue) ?_).1⟩
      cases g with
      | nil =>
        simp only [List.length_nil] at hlen
        exact Or.inl (by omega)
      | cons c g =>
        apply Or.inr
        rintro b ⟨⟩
        exact (hcomma (hg _ rfl)).1
    · exfalso
      cases s₁ with
      | cons c s₁ =>
        obtain rfl := (List.cons.inj hb).1
        exact not_isBareByte_of_isSpace (hs₁ _ List.mem_cons_self) hbare
      | nil =>
        cases g with
        | cons c g =>
          obtain rfl := (List.cons.inj hb).1
          exact (hcomma (hg _ rfl)).2 hbare
        | nil =>
          simp only [List.length_nil] at hlen
          omega
  obtain ⟨rfl, rfl⟩ := hspaces
  rw [Nat.zero_add] at hcs
  have hone : m.group 1 = some (l₁.length, l₁.length + t₁.length) := by
    have hnone : c₇.reverse.find? (fun c => decide (c.group = 1)) = none :=
      List.find?_eq_none.mpr fun c hc => by simpa using hc₇ c (List.mem_reverse.mp hc)
    rw [RegMatch.group, if_neg (by decide), hcs]
    simp [hnone]
  have hseven : m.group 7 = some (l₁.length + t₁.length + s₁.length, k) := by
    rw [RegMatch.group, if_neg (by decide), hcs]
    simp
  rw [hsplit, value, hm]
  show (m.group 1).bind _ = _
  rw [hone]
  show (m.group 7).bind _ = _
  rw [hseven]
  show some (slice _ _, List.drop _ _) = _
  have hdrop : (l₁ ++ (t₁ ++ s₁) ++ x).drop (l₁.length + t₁.length + s₁.length) = x := by
    rw [List.drop_left' (by simp [Nat.add_assoc])]
  rw [hdrop, List.append_assoc, List.append_assoc, slice_append]

theorem ItemLead.bytes (h : ItemLead l) : ∀ b ∈ l, IsSpace b ∨ b = comma := by
  obtain ⟨o, s, ho, hs, rfl⟩ := h
  intro b hb
  rcases List.mem_append.mp hb with hb | hb
  · rcases ho with rfl | rfl
    · exact absurd hb List.not_mem_nil
    · exact Or.inr (List.mem_singleton.mp hb)
  · exact Or.inl (hs b hb)

theorem PlainItem.text (h : PlainItem t) : AnyText t ∨ TupleText t := by
  rcases h with h | h
  · exact Or.inl h.anyText
  · exact Or.inr h.tupleText

/-- The first byte of an item. -/
theorem head_of_itemText (h : AnyText t ∨ TupleText t) (x : Bytes) :
    ∀ b ∈ (t ++ x).head?, IsTokenStart b ∨ b = openParen := by
  rcases h with h | ⟨v, w, -, -, rfl⟩
  · exact fun b hb => Or.inl (h.head x b hb)
  · rintro b ⟨⟩
    exact Or.inr rfl

theorem not_isSpace_of_itemStart {b : UInt8} (h : IsTokenStart b ∨ b = openParen) :
    ¬IsSpace b ∧ b ≠ comma ∧ b ≠ colon := by
  rcases h with h | rfl
  · exact ⟨h.ne.1, h.ne.2.1, h.ne.2.2.1⟩
  · exact ⟨by decide, by decide, by decide⟩

/-- The item that a text starts with is unique, or a shorter part of a bare value. -/
theorem eq_or_shorter_of_item {t₁ y : Bytes} (ht₁ : AnyText t₁ ∨ TupleText t₁)
    (ht : AnyText t ∨ TupleText t) (hx : Ends x) (heq : t₁ ++ y = t ++ x) :
    t₁ = t ∨ t₁.length < t.length ∧ ∃ b z, y = b :: z ∧ IsBareByte b := by
  rcases ht with ht | ht
  · rcases ht₁ with ht₁ | ⟨v, w, -, -, rfl⟩
    · exact ht₁.eq_or_shorter ht hx heq
    · have hstart := ht.head x openParen (by rw [← heq]; rfl)
      exact absurd rfl hstart.ne.2.2.2.1
  · rcases ht₁ with ht₁ | ht₁
    · obtain ⟨v, w, -, -, rfl⟩ := ht
      have hstart := ht₁.head y openParen (by rw [heq]; rfl)
      exact absurd rfl hstart.ne.2.2.2.1
    · exact Or.inl (ht₁.unique ht heq).1

/-- **The item at a cursor**, and where it ends. -/
theorem item_eq (hl : ItemLead l) (ht : AnyText t ∨ TupleText t) (hs : Spaces s) (hx : Stops x) :
    item (l ++ (t ++ (s ++ x))) = some (t, (l ++ (t ++ s)).length) := by
  have hsplit : l ++ (t ++ (s ++ x)) = l ++ (t ++ s) ++ x := by simp
  obtain ⟨cs, hparse⟩ := parse_item (i := 0) hl ht hs
  obtain ⟨m, w, rest, hm, -, hstop, heq, hlen, hfound⟩ :=
    regexec_of_parse (p := parserRegex.universeInsertSupp) x rfl hparse
  obtain ⟨l₁, t₁, s₁, c, rfl, hl₁, ht₁, hs₁, hcs⟩ := hfound.item
  simp only [List.append_assoc] at heq
  simp only [List.length_append] at hlen
  have hstart : ∀ {t y : Bytes}, (AnyText t ∨ TupleText t) → ∀ b ∈ (t ++ y).head?,
      ¬(IsSpace b ∨ b = comma) := by
    intro t y ht b hb h
    have hb := not_isSpace_of_itemStart (head_of_itemText ht y b hb)
    exact h.elim hb.1 hb.2.1
  obtain ⟨rfl, hitem⟩ := append_inj_of_all (p := fun b => IsSpace b ∨ b = comma) hl₁.bytes hl.bytes
    (hstart ht₁) (hstart ht) heq.symm
  have hspaces : t₁ = t ∧ s₁ = s := by
    rcases eq_or_shorter_of_item ht₁ ht (ends_of_spaces hs hx.ends) hitem with
      rfl | ⟨hlt, b, z, hb, hbare⟩
    · exact ⟨rfl, (spaces_eq hs hs₁ hx (List.append_cancel_left hitem) (Or.inl (by omega))).1⟩
    · exfalso
      cases s₁ with
      | cons c s₁ =>
        obtain rfl := (List.cons.inj hb).1
        exact not_isBareByte_of_isSpace (hs₁ _ List.mem_cons_self) hbare
      | nil =>
        simp only [List.length_nil] at hlen
        omega
  obtain ⟨rfl, rfl⟩ := hspaces
  rw [Nat.zero_add] at hcs
  have hone : m.group 1 = some (l₁.length, l₁.length + t₁.length) := by
    rw [RegMatch.group, if_neg (by decide), hcs]
    simp
  rw [hsplit, item, hm]
  show (m.group 1).bind _ = _
  rw [hone]
  show some (slice _ _, m.stop) = _
  rw [hstop, List.append_assoc, List.append_assoc, slice_append]

/-- The parts of an insertion are unique: the items end at the last closing brace. -/
theorem InsertShape.unique {items items' name name' : Bytes} (h : InsertShape s items name)
    (h' : InsertShape s items' name') : items = items' ∧ name = name' := by
  obtain ⟨a, k, b, c, l, d, e, ha, hk, hb, -, hc, hl, hd, hname, he, rfl⟩ := h
  obtain ⟨a', k', b', c', l', d', e', ha', hk', hb', -, hc', hl', hd', hname', he', heq⟩ := h'
  have hinto := letters_of_upper upper_into
  have h₁ := hk.append_inj hk' (letters_of_upper upper_insert) (by decide) ha ha' heq
  have hbrace : ∀ x : Bytes, ∀ y ∈ (openBrace :: x).head?, ¬IsSpace y := by
    rintro x y ⟨⟩
    exact not_isSpace_openBrace
  obtain ⟨-, h₂⟩ := append_inj_of_all (p := IsSpace) hb hb' (hbrace _) (hbrace _) h₁
  have hbehind : ∀ {c l d name e : Bytes}, Spaces c → Keyword (lit "INTO") l → Spaces d →
      IsName name → Spaces e → ∀ x ∈ c ++ (l ++ (d ++ (name ++ e))), x ≠ closeBrace := by
    intro c l d name e hc hl hd hname he x hx heq
    have hspace : ¬IsSpace closeBrace := by decide
    have hbyte : ¬IsNameByte closeBrace := by decide
    subst heq
    simp only [List.mem_append] at hx
    rcases hx with hx | hx | hx | hx | hx
    · exact hspace (hc _ hx)
    · exact hbyte (hl.letters hinto _ hx).isNameByte
    · exact hspace (hd _ hx)
    · exact hbyte (hname.2 _ hx)
    · exact hspace (he _ hx)
  obtain ⟨rfl, h₃⟩ := append_inj_of_all_right (p := fun x => x ≠ closeBrace) (not_not.mpr rfl)
    (hbehind hc hl hd.2 hname he) (hbehind hc' hl' hd'.2 hname' he') (List.cons.inj h₂).2
  have h₄ := hl.append_inj hl' hinto (by decide) hc hc' h₃
  obtain ⟨-, h₅⟩ := append_inj_of_all (p := IsSpace) hd.2 hd'.2 hname.head hname'.head h₄
  exact ⟨rfl, (append_inj_of_all (p := IsNameByte) hname.2 hname'.2 he.head he'.head h₅).1⟩

/-- **The items of an insertion**, and what they are inserted into. -/
theorem insertion_eq_of_shape {items name : Bytes} (h : InsertShape s items name) :
    insertion s = some (items, name) := by
  obtain ⟨cs, hparse⟩ : ∃ cs, Parse insertRegex 0 s cs := by
    obtain ⟨a, k, b, c, l, d, e, ha, hk, hb, hitems, hc, hl, hd, hname, he, hs⟩ := h
    exact ⟨_, parse_insertRegex.mpr ⟨a, k, b, items, c, l, d, name, e, ha, hk, hb, hitems, hc, hl, hd,
      hname, he, hs, rfl⟩⟩
  obtain ⟨m, w, rest, hm, hstart, hstop, heq, hlen, -⟩ :=
    regexec_of_parse (p := parserRegex.universeInsert) [] rfl hparse
  rw [List.append_nil] at hm heq
  obtain ⟨pre, v, post, items', name', hs, hpre, hv, hshape, hins⟩ := insertion_of_regexec hm
  rw [hstart] at hpre hv
  obtain rfl := List.length_eq_zero_iff.mp hpre
  have hpost : post = [] := by
    have hle := congrArg List.length hs
    simp only [List.length_append, List.length_nil] at hle
    exact List.length_eq_zero_iff.mp (by omega)
  subst hpost
  rw [List.nil_append, List.append_nil] at hs
  subst hs
  obtain ⟨rfl, rfl⟩ := h.unique hshape
  exact hins

end Readings

end SetQL
