import SetQL.Parser.Tokens

/-!
# Parsing the text of a value

A quoted text without quotation marks and backslashes is parsed as what is within the quotes, and
digits, perhaps behind a minus sign, are parsed as they are.

## Main definitions

* `IsDigits`: the digits of an integer
* `WrittenValue typeName v t`: the text `t` is the value `v` of a type

## Main results

* `WrittenValue.valueOf`: the text is parsed as the value
-/

namespace SetQL

/-- A digit. -/
def IsDigit (b : UInt8) : Prop := 48 ≤ b ∧ b ≤ 57

instance : DecidablePred IsDigit := fun b => inferInstanceAs (Decidable (48 ≤ b ∧ b ≤ 57))

/-- The digits of an integer. -/
def IsDigits (d : Bytes) : Prop := d ≠ [] ∧ ∀ b ∈ d, 48 ≤ b ∧ b ≤ 57

/-- The text is the value: of a string type without quotation marks, backslashes and semicolons, in
quotes; of an integer type digits, perhaps behind a minus sign. -/
def WrittenValue (typeName v t : Bytes) : Prop :=
  (typeName2dataType typeName = some .string ∧
    (v ≠ [] ∧ quote ∉ v ∧ backslash ∉ v ∧ semicolon ∉ v) ∧ t = quote :: (v ++ [quote])) ∨
  (typeName2dataType typeName = some .integer ∧
    (∃ d, IsDigits d ∧ (v = d ∨ v = chr '-' :: d)) ∧ t = v)

/-! ## Bytes -/

theorem contains_spaceSet_case (b : UInt8) : (spaceSet false).contains b = true ↔ IsSpace b :=
  contains_spaceSet_icase false b

theorem contains_quote_case (b : UInt8) : (literal false quote).contains b = true ↔ b = quote :=
  contains_literal_iff (by decide) false b

theorem contains_unquoted_case (b : UInt8) :
    (⟨true, false, [(quote, quote), (backslash, backslash)]⟩ : ByteSet).contains b = true ↔
      b ≠ quote ∧ b ≠ backslash := by
  simp only [ByteSet.contains, ByteSet.inRanges, List.any_cons, List.any_nil]
  grind

theorem contains_digitSet (b : UInt8) : digitSet.contains b = true ↔ 48 ≤ b ∧ b ≤ 57 := by
  show (⟨false, false, [(48, 57)]⟩ : ByteSet).contains b = true ↔ 48 ≤ b ∧ b ≤ 57
  simp only [ByteSet.contains, ByteSet.inRanges, List.any_cons, List.any_nil]
  grind

theorem contains_minus (b : UInt8) :
    (⟨false, false, [(chr '-', chr '-')]⟩ : ByteSet).contains b = true ↔ b = chr '-' :=
  contains_literal_iff (by decide) false b

theorem contains_plus (b : UInt8) :
    (⟨false, false, [(chr '+', chr '+')]⟩ : ByteSet).contains b = true ↔ b = chr '+' :=
  contains_literal_iff (by decide) false b

theorem not_isSpace_of_digit {b : UInt8} : 48 ≤ b ∧ b ≤ 57 → ¬IsSpace b := by
  rw [IsSpace]
  grind

/-! ## Strings -/

section Values

variable {i : ℕ} {w v d : Bytes} {cs : List Capture} {p : Pattern}

theorem parse_spaces_case : Parse (.star (.set (spaceSet false))) i w cs ↔ Spaces w ∧ cs = [] := by
  rw [parse_star_set]
  simp only [contains_spaceSet_case, Spaces]

/-- The match of a whole text, if it is one. -/
theorem regexec_whole (heol : p.eol = false) (h : Parse p.body 0 w cs) :
    ∃ m, regexec p w = some m ∧ Parse p.body 0 w m.captures := by
  obtain ⟨m, w', rest, hm, -, -, heq, hlen, hparse⟩ := regexec_of_parse [] heol h
  rw [List.append_nil] at hm heq
  subst heq
  obtain rfl : rest = [] := by
    rw [List.length_append] at hlen
    exact List.length_eq_zero_iff.mp (by omega)
  rw [List.append_nil] at hm ⊢
  exact ⟨m, hm, hparse⟩

/-- What the expression of strings matches. -/
theorem Parse.quotedRegex (h : Parse (quotedRegex quote) i w cs) : ∃ s u e c,
    w = s ++ quote :: (u ++ quote :: e) ∧ Spaces s ∧ BodyText u ∧ Spaces e ∧
      cs = c ++ [⟨1, i + s.length + 1, i + s.length + 1 + u.length⟩] := by
  obtain ⟨s, _, c, _, rfl, rfl, h₁, h₂⟩ := parse_seq.mp h
  obtain ⟨hs, rfl⟩ := parse_spaces_case.mp h₁
  obtain ⟨_, rfl, h₃⟩ := (parse_byteThen contains_quote_case).mp h₂
  obtain ⟨u, _, c, _, rfl, rfl, ⟨-, hu⟩, h₄⟩ := h₃.stringBody contains_unquoted_case
  obtain ⟨e, rfl, h₅⟩ := (parse_byteThen contains_quote_case).mp h₄
  obtain ⟨he, rfl⟩ := parse_spaces_case.mp h₅
  exact ⟨s, u, e, c, rfl, hs, hu, he, by simp⟩

/-- **A quoted text is parsed as what is within the quotes.** -/
theorem BodyText.found_str1 (h : BodyText v) (hne : v ≠ []) :
    found parserRegex.str1 (quote :: (v ++ [quote])) 1 = some v := by
  have hend : Parse (.seq (.set (literal false quote)) (.star (.set (spaceSet false))))
      (0 + ([] : Bytes).length + 1 + v.length) [quote] [] :=
    (parse_byteThen contains_quote_case).mpr ⟨[], rfl, parse_spaces_case.mpr ⟨spaces_nil, rfl⟩⟩
  obtain ⟨c, hc⟩ := h.parse (n := 1) contains_unquoted_case hne hend
  have hparse : Parse parserRegex.str1.body 0 ([] ++ quote :: (v ++ [quote])) _ :=
    .seq (parse_spaces_case.mpr ⟨spaces_nil, rfl⟩)
      ((parse_byteThen contains_quote_case).mpr ⟨_, rfl, hc⟩)
  obtain ⟨m, hm, hfound⟩ := regexec_whole rfl hparse
  obtain ⟨s, u, e, c, heq, hs, hu, -, hcs⟩ := hfound.quotedRegex
  rw [List.nil_append] at heq hm
  have hquote : ∀ x : Bytes, ∀ b ∈ (quote :: x).head?, ¬IsSpace b := by
    rintro x b ⟨⟩
    decide
  obtain ⟨rfl, hrest⟩ := append_inj_of_all (p := IsSpace) spaces_nil hs (hquote _) (hquote _)
    (u := []) heq
  obtain rfl := hu.eq_of_quote h (List.cons.inj hrest).2.symm
  exact found_of_capture (u := [quote]) (v := [quote]) hm (by decide) (by simp [hcs]) rfl

theorem found_str1 (hne : v ≠ []) (hq : quote ∉ v) (hb : backslash ∉ v) :
    found parserRegex.str1 (quote :: (v ++ [quote])) 1 = some v :=
  (bodyText_of_not_mem hq hb).found_str1 hne

/-- No string is found where there is no quotation mark. -/
theorem found_str1_eq_none {t : Bytes} (ht : quote ∉ t) : found parserRegex.str1 t 1 = none := by
  cases hm : regexec parserRegex.str1 t with
  | none => exact found_of_eq_none hm
  | some m =>
    obtain ⟨pre, w, post, rfl, -, -, hparse⟩ := exists_parse_of_regexec hm
    obtain ⟨s, u, e, c, rfl, -⟩ := hparse.quotedRegex
    exact absurd (by simp) ht

/-! ## Integers -/

/-- What the expression of digits matches. -/
theorem parse_digitsRegex : Parse digitsRegex i w cs ↔ ∃ s u e, w = s ++ (u ++ e) ∧ Spaces s ∧
    IsDigits u ∧ Spaces e ∧ cs = [⟨1, i + s.length, i + s.length + u.length⟩] := by
  rw [digitsRegex, parse_seq]
  simp only [parse_spaces_case, parse_groupThen, contains_digitSet]
  constructor
  · rintro ⟨s, _, _, _, rfl, rfl, ⟨hs, rfl⟩, u, e, _, rfl, rfl, hu, he, rfl⟩
    exact ⟨s, u, e, rfl, hs, hu, he, rfl⟩
  · rintro ⟨s, u, e, rfl, hs, hu, he, rfl⟩
    exact ⟨s, _, [], _, rfl, rfl, ⟨hs, rfl⟩, u, e, [], rfl, rfl, hu, he, rfl⟩

theorem IsDigits.head (h : IsDigits d) (x : Bytes) : ∀ b ∈ (d ++ x).head?, 48 ≤ b ∧ b ≤ 57 := by
  obtain ⟨hne, hall⟩ := h
  obtain ⟨b, s, rfl⟩ := List.exists_cons_of_ne_nil hne
  rintro c ⟨⟩
  exact hall b List.mem_cons_self

/-- Digits in front of no more digits and no white space are all digits of a match that is as
long. -/
theorem IsDigits.eq_of_append {s u e x r : Bytes} (hd : IsDigits d) (hx : ∀ b ∈ x.head?, ¬IsDigit b)
    (hu : IsDigits u) (hs : ∀ b ∈ s, ¬IsDigit b) (he : Spaces e)
    (hlen : d.length ≤ (s ++ (u ++ e)).length) (heq : d ++ x = s ++ (u ++ (e ++ r))) :
    s = [] ∧ u = d := by
  have hnone : ∀ b ∈ ([] : Bytes), ¬IsDigit b := nofun
  obtain ⟨rfl, hdigits⟩ := append_inj_of_all hs hnone (fun b hb => not_not.mpr (hu.head _ b hb))
    (fun b hb => not_not.mpr (hd.head x b hb)) heq.symm
  refine ⟨rfl, ?_⟩
  rcases List.append_eq_append_iff.mp hdigits with ⟨z, rfl, hz⟩ | ⟨z, rfl, hz⟩
  · cases z with
    | nil => exact (List.append_nil u).symm
    | cons b z =>
      cases e with
      | nil => simp at hlen
      | cons c e =>
        obtain rfl := (List.cons.inj hz).1
        exact absurd (hd.2 _ (List.mem_append_right _ List.mem_cons_self))
          fun hdigit => not_isSpace_of_digit hdigit (he _ List.mem_cons_self)
  · cases z with
    | nil => exact List.append_nil d
    | cons b z =>
      exact absurd (hu.2 b (List.mem_append_right _ List.mem_cons_self)) (hx b (by rw [hz]; rfl))

/-- **Digits behind a minus sign** are found as they are. -/
theorem found_int1 {x : Bytes} (hd : IsDigits d) (hx : ∀ b ∈ x.head?, ¬IsDigit b) :
    found parserRegex.int1 (chr '-' :: (d ++ x)) 1 = some d := by
  have hparse : Parse parserRegex.int1.body 0 ([] ++ chr '-' :: ([] ++ (d ++ []))) _ :=
    .seq (parse_spaces_case.mpr ⟨spaces_nil, rfl⟩) ((parse_byteThen contains_minus).mpr
      ⟨_, rfl, parse_digitsRegex.mpr ⟨[], d, [], rfl, spaces_nil, hd, spaces_nil, rfl⟩⟩)
  obtain ⟨m, w, rest, hm, -, -, heq, hlen, hfound⟩ := regexec_of_parse x rfl hparse
  obtain ⟨s, _, _, _, rfl, hcs, h₁, h₂⟩ := parse_seq.mp hfound
  obtain ⟨hs, rfl⟩ := parse_spaces_case.mp h₁
  obtain ⟨_, rfl, h₃⟩ := (parse_byteThen contains_minus).mp h₂
  obtain ⟨s', u, e, rfl, hs', hu, he, rfl⟩ := parse_digitsRegex.mp h₃
  simp only [List.nil_append, List.append_nil, List.append_assoc, List.cons_append] at heq hm
  have hminus : ∀ x : Bytes, ∀ b ∈ (chr '-' :: x).head?, ¬IsSpace b := by
    rintro x b ⟨⟩
    decide
  obtain ⟨rfl, hrest⟩ := append_inj_of_all (p := IsSpace) spaces_nil hs (hminus _) (hminus _)
    (u := []) heq
  have hle : d.length ≤ (s' ++ (u ++ e)).length := by simpa using hlen
  obtain ⟨rfl, rfl⟩ := hd.eq_of_append hx hu (fun b hb h => not_isSpace_of_digit h (hs' b hb)) he
    hle (List.cons.inj hrest).2
  exact found_of_capture (u := [chr '-']) (v := x) hm (by decide) (by simp [hcs]) rfl

/-- No minus sign is found where there is none. -/
theorem found_int1_eq_none {t : Bytes} (ht : chr '-' ∉ t) : found parserRegex.int1 t 1 = none := by
  cases hm : regexec parserRegex.int1 t with
  | none => exact found_of_eq_none hm
  | some m =>
    obtain ⟨pre, w, post, rfl, -, -, hparse⟩ := exists_parse_of_regexec hm
    obtain ⟨s, _, _, _, rfl, -, -, h₂⟩ := parse_seq.mp hparse
    obtain ⟨v, rfl, -⟩ := (parse_byteThen contains_minus).mp h₂
    exact absurd (by simp) ht

/-- **Digits, perhaps behind a plus sign,** are found as they are. -/
theorem found_int2 {o x : Bytes} (ho : o = [] ∨ o = [chr '+']) (hd : IsDigits d)
    (hx : ∀ b ∈ x.head?, ¬IsDigit b) : found parserRegex.int2 (o ++ (d ++ x)) 1 = some d := by
  have hopt : o = [] ∨ ∃ b, (⟨false, false, [(chr '+', chr '+')]⟩ : ByteSet).contains b = true ∧ o = [b] :=
    ho.imp_right fun ho => ⟨_, (contains_plus _).mpr rfl, ho⟩
  have hparse : Parse parserRegex.int2.body 0 ([] ++ (o ++ ([] ++ (d ++ [])))) _ :=
    .seq (parse_spaces_case.mpr ⟨spaces_nil, rfl⟩) (.seq (parse_opt_set.mpr ⟨hopt, rfl⟩)
      (parse_digitsRegex.mpr ⟨[], d, [], rfl, spaces_nil, hd, spaces_nil, rfl⟩))
  obtain ⟨m, w, rest, hm, -, -, heq, hlen, hfound⟩ := regexec_of_parse x rfl hparse
  obtain ⟨s, _, _, _, rfl, hcs, h₁, h₂⟩ := parse_seq.mp hfound
  obtain ⟨hs, rfl⟩ := parse_spaces_case.mp h₁
  obtain ⟨o', _, _, _, rfl, rfl, h₃, h₄⟩ := parse_seq.mp h₂
  obtain ⟨ho', rfl⟩ := parse_opt_set.mp h₃
  obtain ⟨s', u, e, rfl, hs', hu, he, rfl⟩ := parse_digitsRegex.mp h₄
  simp only [List.nil_append, List.append_nil, List.append_assoc] at heq hm
  have hlead : ∀ b ∈ s ++ (o' ++ s'), ¬IsDigit b := by
    intro b hb hdigit
    rcases List.mem_append.mp hb with hb | hb
    · exact not_isSpace_of_digit hdigit (hs b hb)
    rcases List.mem_append.mp hb with hb | hb
    · rcases ho' with rfl | ⟨c, hc, rfl⟩
      · exact absurd hb List.not_mem_nil
      · rw [List.mem_singleton.mp hb, (contains_plus c).mp hc] at hdigit
        exact absurd hdigit (by decide)
    · exact not_isSpace_of_digit hdigit (hs' b hb)
  have hsign : ∀ b ∈ o, ¬IsDigit b := by
    rcases ho with rfl | rfl
    · exact nofun
    · intro b hb hdigit
      rw [List.mem_singleton.mp hb] at hdigit
      exact absurd hdigit (by decide)
  obtain ⟨hleads, hdigits⟩ := append_inj_of_all (p := fun b => ¬IsDigit b) hlead hsign
    (fun b hb => not_not.mpr (hu.head (e ++ rest) b hb)) (fun b hb => not_not.mpr (hd.head x b hb))
    (by simpa using heq.symm)
  have hle : d.length ≤ ([] ++ (u ++ e)).length := by
    have hlens := congrArg List.length hleads
    simp only [List.length_append, List.length_nil] at hlen hlens ⊢
    omega
  obtain ⟨-, rfl⟩ := hd.eq_of_append (s := []) (r := rest) hx hu nofun he hle (by simpa using hdigits.symm)
  refine found_of_capture (u := o) (v := x) hm (by decide) ?_ rfl
  rw [hcs, ← hleads]
  simp [Nat.add_assoc]

/-- The integer at the start of a text with a minus sign. -/
theorem integerIn_minus {x : Bytes} (hd : IsDigits d) (hx : ∀ b ∈ x.head?, ¬IsDigit b) :
    integerIn (chr '-' :: (d ++ x)) = some (chr '-' :: d) := by
  rw [integerIn, found_int1 hd hx]
  rfl

/-- The integer at the start of a text without one. -/
theorem integerIn_plus {o x : Bytes} (ho : o = [] ∨ o = [chr '+']) (hd : IsDigits d)
    (hx : ∀ b ∈ x.head?, ¬IsDigit b) (hminus : chr '-' ∉ x) :
    integerIn (o ++ (d ++ x)) = some d := by
  have hnone : chr '-' ∉ o ++ (d ++ x) := by
    intro hmem
    rcases List.mem_append.mp hmem with hmem | hmem
    · rcases ho with rfl | rfl
      · exact absurd hmem List.not_mem_nil
      · exact absurd hmem (by decide)
    · rcases List.mem_append.mp hmem with hmem | hmem
      · exact absurd (hd.2 _ hmem) (by decide)
      · exact hminus hmem
  rw [integerIn, found_int1_eq_none hnone, found_int2 ho hd hx]
  rfl

/-- **The text is parsed as the value.** -/
theorem WrittenValue.valueOf {typeName t : Bytes} (h : WrittenValue typeName v t) :
    ∃ ty, typeName2dataType typeName = some ty ∧ SetQL.valueOf t ty = some v := by
  rcases h with ⟨hty, ⟨hne, hq, hb, -⟩, rfl⟩ | ⟨hty, ⟨d, hd, rfl | rfl⟩, rfl⟩
  · exact ⟨.string, hty, found_str1 hne hq hb⟩
  · have hfound := integerIn_plus (o := []) (x := []) (Or.inl rfl) hd nofun List.not_mem_nil
    rw [List.nil_append, List.append_nil] at hfound
    exact ⟨.integer, hty, hfound⟩
  · have hfound := integerIn_minus (x := []) hd nofun
    rw [List.append_nil] at hfound
    exact ⟨.integer, hty, hfound⟩

end Values

end SetQL
