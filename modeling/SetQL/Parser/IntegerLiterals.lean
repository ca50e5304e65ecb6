import SetQL.Parser.MissingValues
import SetQL.Translation.Load

/-!
# Integer literals

`parse_integer` searches its token for digits and is not anchored to the ends of the token. An
integer literal, digits with a sign or none, is read as its value and is loaded as its value; a
token without digits is refused; and every other token is read as a part of it.

## Main definitions

* `literalValue t`: the value of an integer literal
* `RecognisedExactly t`: the token is read, accepted in rows and loaded exactly if it is a literal

## Main results

* `integerIn_eq_none_iff`: a token is refused exactly if it has no digit
* `recognisedExactly_iff`: the tokens that are recognised exactly
-/

namespace SetQL

/-- The value of an integer literal. -/
def literalValue : Bytes → ℤ
  | [] => 0
  | c :: s =>
    if c = chr '-' then -digitsValue s
    else if c = chr '+' then digitsValue s
    else digitsValue (c :: s)

/-- The token is read as an integer exactly if it is a literal, and then as its value. An integer
attribute of a row that is accepted is a literal, and its value is loaded if it fits. -/
structure RecognisedExactly (t : Bytes) : Prop where
  refused : ¬IsNumberText t → parseInteger parserRegex t = .ok none
  value : IsNumberText t →
    ∃ v, parseInteger parserRegex t = .ok (some v) ∧ Decimal v (literalValue t)
  accepted : ∀ (types texts row : List Bytes) (str typeName : Bytes) (j : ℕ),
    TextsOf texts str → RowReads types str row → texts[j]? = some t → types[j]? = some typeName →
    typeName2dataType typeName = some .integer → IsNumberText t ∧ ∃ v, row[j]? = some v ∧
      (-2 ^ 63 ≤ literalValue t → literalValue t < 2 ^ 63 → ∀ mem i k, ∃ x,
        integerPayload mem i k v = .int64 x (mem.integer k i) ∧ x.toInt = literalValue t)

section Literals

variable {t v d str typeName : Bytes} {types texts row : List Bytes} {j : ℕ}

/-! ### Tokens -/

theorem isdigit_of_isDigits (hd : IsDigits d) : ∀ b ∈ d, isdigit b = true := by
  intro b hb
  rw [isdigit, Bool.and_eq_true, decide_eq_true_eq, decide_eq_true_eq]
  exact hd.2 b hb

/-- A literal is read as a text of its value. -/
theorem NumberText.decimal (h : NumberText [] v t) : Decimal v (literalValue t) := by
  obtain ⟨d, hd, h⟩ := h
  rw [List.append_nil] at h
  refine ⟨d, hd.1, isdigit_of_isDigits hd, ?_⟩
  rcases h with ⟨rfl, rfl⟩ | ⟨rfl, rfl | rfl⟩
  · exact Or.inr ⟨rfl, rfl⟩
  · obtain ⟨c, s, rfl⟩ := List.exists_cons_of_ne_nil hd.1
    obtain ⟨-, hminus, hplus⟩ :=
      not_isspace_of_isdigit (isdigit_of_isDigits hd c List.mem_cons_self)
    refine Or.inl ⟨rfl, ?_⟩
    rw [literalValue, if_neg (show c ≠ chr '-' from hminus), if_neg (show c ≠ chr '+' from hplus)]
  · exact Or.inl ⟨rfl, rfl⟩

/-- A digit anywhere in a token is found. -/
theorem found_int2_ne_none {b : UInt8} (hb : b ∈ t) (hdigit : IsDigit b) :
    found parserRegex.int2 t 1 ≠ none := by
  obtain ⟨pre, rest, rfl⟩ := List.append_of_mem hb
  have hdigits : IsDigits [b] :=
    ⟨List.cons_ne_nil _ _, fun c hc => List.mem_singleton.mp hc ▸ hdigit⟩
  have hparse : Parse parserRegex.int2.body pre.length ([] ++ ([] ++ ([] ++ ([b] ++ [])))) _ :=
    .seq (parse_spaces_case.mpr ⟨spaces_nil, rfl⟩) (.seq (parse_opt_set.mpr ⟨Or.inl rfl, rfl⟩)
      (parse_digitsRegex.mpr ⟨[], [b], [], rfl, spaces_nil, hdigits, spaces_nil, rfl⟩))
  obtain ⟨m, hm⟩ := Option.ne_none_iff_exists'.mp
    (regexec_ne_none rest (by decide) (by decide) hparse)
  obtain ⟨w, hw, -⟩ := exists_found hm (g := 1) (by decide)
  exact Option.ne_none_iff_exists'.mpr ⟨w, hw⟩

/-- What is found in a token has a digit. -/
theorem found_eq_none_of_no_digit (h : ∀ b ∈ t, ¬IsDigit b) :
    found parserRegex.int1 t 1 = none ∧ found parserRegex.int2 t 1 = none := by
  have hdigits : ∀ u, IsDigits u → ¬∀ b ∈ u, b ∈ t := by
    rintro u ⟨hne, hu⟩ hmem
    obtain ⟨b, u, rfl⟩ := List.exists_cons_of_ne_nil hne
    exact h b (hmem b List.mem_cons_self) (hu b List.mem_cons_self)
  constructor
  · cases hm : regexec parserRegex.int1 t with
    | none => exact found_of_eq_none hm
    | some m =>
      obtain ⟨pre, w, post, rfl, -, -, hparse⟩ := exists_parse_of_regexec hm
      obtain ⟨s, _, _, _, rfl, -, -, h₂⟩ := parse_seq.mp hparse
      obtain ⟨_, rfl, h₃⟩ := (parse_byteThen contains_minus).mp h₂
      obtain ⟨s', u, e, rfl, -, hu, -, -⟩ := parse_digitsRegex.mp h₃
      exact absurd (fun b hb => by simp [hb]) (hdigits u hu)
  · cases hm : regexec parserRegex.int2 t with
    | none => exact found_of_eq_none hm
    | some m =>
      obtain ⟨pre, w, post, rfl, -, -, hparse⟩ := exists_parse_of_regexec hm
      obtain ⟨s, _, _, _, rfl, -, -, h₂⟩ := parse_seq.mp hparse
      obtain ⟨o, _, _, _, rfl, -, -, h₃⟩ := parse_seq.mp h₂
      obtain ⟨s', u, e, rfl, -, hu, -, -⟩ := parse_digitsRegex.mp h₃
      exact absurd (fun b hb => by simp [hb]) (hdigits u hu)

/-- **A token is refused exactly if it has no digit.** -/
theorem integerIn_eq_none_iff : integerIn t = none ↔ ∀ b ∈ t, ¬IsDigit b := by
  rw [integerIn, Option.or_eq_none_iff, Option.map_eq_none_iff]
  constructor
  · rintro ⟨-, hnone⟩ b hb hdigit
    exact found_int2_ne_none hb hdigit hnone
  · exact found_eq_none_of_no_digit

/-! ### Rows -/

/-- A value of a row is read from its token. -/
theorem RowReads.exists_value (h : RowReads types str row) (htexts : TextsOf texts str)
    (htext : texts[j]? = some t) (htype : types[j]? = some typeName) :
    ∃ ty v, typeName2dataType typeName = some ty ∧ valueOf t ty = some v ∧ row[j]? = some v := by
  obtain ⟨-, texts', htexts', hrow⟩ := h
  have hlen : types.length ≤ texts.length := by
    by_contra hlt
    exact nomatch (htexts.valueTexts_eq_none (Nat.not_le.mp hlt)).symm.trans htexts'
  obtain rfl := Option.some.inj
    (htexts'.symm.trans (valueTexts_take (htexts.1.valueTexts htexts.2) hlen))
  obtain ⟨hj, -⟩ := List.getElem?_eq_some_iff.mp htype
  exact hrow.exists_value (by rw [List.getElem?_take_of_lt hj, htext]) htype

/-- The text of an integer that fits is loaded as the integer. -/
theorem exists_integerPayload {z : ℤ} (h : Decimal v z) (hlo : -2 ^ 63 ≤ z) (hhi : z < 2 ^ 63)
    (mem : Memory) (i k : ℕ) :
    ∃ x, integerPayload mem i k v = .int64 x (mem.integer k i) ∧ x.toInt = z := by
  refine ⟨_, rfl, ?_⟩
  -- `strtol` clamps nothing, so the word holds the integer
  rw [strtol_of_decimal h hlo hhi, BitVec.toInt_ofInt]
  exact Int.bmod_eq_of_le (by omega) (by omega)

/-- **The tokens that are recognised exactly** are the integer literals and the tokens without a
digit. -/
theorem recognisedExactly_iff (t : Bytes) :
    RecognisedExactly t ↔ IsNumberText t ∨ ∀ b ∈ t, ¬IsDigit b := by
  constructor
  · intro h
    by_cases hnumber : IsNumberText t
    · exact Or.inl hnumber
    · have hnone := h.refused hnumber
      rw [parseInteger_eq] at hnone
      exact Or.inr (integerIn_eq_none_iff.mp (Except.ok.inj hnone))
  · intro h
    refine ⟨fun hnumber => ?_, fun hnumber => ?_, ?_⟩
    · rw [parseInteger_eq, integerIn_eq_none_iff.mpr (h.resolve_left hnumber)]
    · obtain ⟨v, hv⟩ := isNumberText_iff.mp hnumber
      exact ⟨v, by rw [parseInteger_eq, integerIn_of_numberText hv], hv.decimal⟩
    · intro types texts row str typeName j htexts hrow htext htype hinteger
      obtain ⟨ty, v, hty, hv, hrow⟩ := hrow.exists_value htexts htext htype
      obtain rfl := Option.some.inj (hty.symm.trans hinteger)
      have hnumber : IsNumberText t := h.resolve_right fun hnone =>
        nomatch (integerIn_eq_none_iff.mpr hnone).symm.trans hv
      obtain ⟨v', hv'⟩ := isNumberText_iff.mp hnumber
      obtain rfl := Option.some.inj ((integerIn_of_numberText hv').symm.trans hv)
      exact ⟨hnumber, _, hrow, fun hlo hhi => exists_integerPayload hv'.decimal hlo hhi⟩

/-- The digits of a token with letters are read as its value, and a row with the token is
accepted. -/
theorem not_recognisedExactly : AnyText (lit "12abc") ∧ ¬RecognisedExactly (lit "12abc") ∧
    parseUniverseInsert parserRegex numberUniverse (lit "INSERT \x7b4:12abc\x7d INTO U") =
      .ok (numberUniverse.withRows (numberUniverse.keyValues ++ [some [lit "4"]])
        (numberUniverse.attributeValues ++ [some [lit "12"]]), none) := by
  refine ⟨.bare (by decide) (by decide +kernel), fun h => ?_, by decide⟩
  have hread : parseInteger parserRegex (lit "12abc") = .ok (some (lit "12")) := by decide
  have hnot : ¬IsNumberText (lit "12abc") := by
    rintro ⟨o, d, ho, ⟨-, hd⟩, heq⟩
    have hmem : chr 'c' ∈ o ++ d := heq ▸ (by decide)
    rcases List.mem_append.mp hmem with hmem | hmem
    · rcases ho with rfl | rfl | rfl <;> exact absurd hmem (by decide)
    · exact absurd (hd _ hmem) (by decide)
  exact nomatch (h.refused hnot).symm.trans hread

end Literals

end SetQL
