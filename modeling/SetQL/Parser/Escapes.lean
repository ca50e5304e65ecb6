import SetQL.Base.Scanner
import SetQL.Parser.Insertions
import SetQL.Parser.TokenReadings

/-!
# Escapes

The delimiters of an insertion are counted by a scanner that takes a quotation mark for escaped if
the byte before it is a backslash. The expressions of values take backslashes in pairs with the byte
behind them. The two agree within a quoted value. They disagree where it ends if its last pair is an
escaped backslash: there the scanner does not see the closing quotation mark, and takes everything up
to the next one for quoted.

## Main definitions

* `delimiterStep`, `DelimiterCounts`: `count_delimiter` as a scanner
* `CountedAt d str i`: the byte at an index is counted
* `ValueList`: values with delimiters between them, and their text
* `ValueList.ScansConsistently`: the scanner and the expressions agree on the text

## Main results

* `AnyText.inside`, `AnyText.inside_end`: the scanner within a value and at its end
* `scansConsistently_iff`: when they agree
-/

namespace SetQL

/-! ## The scanner -/

/-- The state of the loop of `count_delimiter` behind a byte: the byte, and whether it is inside of
quotes. -/
def delimiterStep (s : UInt8 × Bool) (b : UInt8) : UInt8 × Bool :=
  (b, if b = quote ∧ s.1 ≠ backslash then !s.2 else s.2)

/-- A byte is counted. -/
def DelimiterCounts (d : UInt8) (s : UInt8 × Bool) (b : UInt8) : Prop :=
  ¬(b = quote ∧ s.1 ≠ backslash) ∧ s.2 = false ∧ b = d

instance (d : UInt8) (s : UInt8 × Bool) : DecidablePred (DelimiterCounts d s) := fun b =>
  inferInstanceAs (Decidable (¬(b = quote ∧ s.1 ≠ backslash) ∧ s.2 = false ∧ b = d))

/-- The scanner is inside of quotes behind a text, from a byte before it and outside of quotes. -/
def insideAfter (previous : UInt8) (w : Bytes) : Bool := (w.foldl delimiterStep (previous, false)).2

/-- The byte at an index is counted as a delimiter. -/
def CountedAt (d : UInt8) (str : Bytes) (i : ℕ) : Prop :=
  countDelimiter (str.take (i + 1)) d = countDelimiter (str.take i) d + 1

/-! ## Values with delimiters between them -/

/-- A value, and further ones with the delimiters before them, as a text. -/
def spliced : Bytes → List (UInt8 × Bytes) → Bytes
  | t, [] => t
  | t, (d, v) :: rest => t ++ d :: spliced v rest

/-- The values, with where they start. -/
def spans : Bytes → List (UInt8 × Bytes) → List (ℕ × Bytes)
  | t, [] => [(0, t)]
  | t, (_, v) :: rest => (0, t) :: (spans v rest).map fun span => (t.length + 1 + span.1, span.2)

/-- An index is within a quoted value. -/
def InQuotes (t : Bytes) (rest : List (UInt8 × Bytes)) (i : ℕ) : Prop :=
  ∃ span ∈ spans t rest, span.2.head? = some quote ∧ span.1 ≤ i ∧ i < span.1 + span.2.length

/-- A byte between values. -/
def IsDelimiter (d : UInt8) : Prop := d = comma ∨ d = colon

/-- Values in the notation of the language, with commas and colons between them. -/
structure ValueList where
  first : Bytes
  rest : List (UInt8 × Bytes)
  anyText_first : AnyText first
  anyText_rest : ∀ p ∈ rest, IsDelimiter p.1 ∧ AnyText p.2

namespace ValueList

variable (vs : ValueList)

/-- The values. -/
def values : List Bytes := vs.first :: vs.rest.map Prod.snd

/-- The text of the values. -/
def text : Bytes := spliced vs.first vs.rest

end ValueList

/-- The texts of the items of the next `n` rows: a key, a colon and attributes. -/
def itemRows : ℕ → Bytes → Option (List (Bytes × Bytes))
  | 0, _ => some []
  | n + 1, cursor => do
    let (keys, offset) ← item cursor
    if cursor[offset]? = some colon then
      let cursor := cursor.drop (offset + 1)
      let (attributes, offset) ← item cursor
      let rows ← itemRows n (cursor.drop offset)
      return (keys, attributes) :: rows
    else none

/-- Rows behind a row, with their delimiters. -/
def rowsBehind (rows : List (Bytes × Bytes)) : List (UInt8 × Bytes) :=
  rows.flatMap fun row => [(comma, row.1), (colon, row.2)]

/-- **The scanner and the expressions agree**: a delimiter is counted exactly if it is outside of the
values that the expressions delimit, so that they read as many values, and as many rows, as are
counted. -/
structure ValueList.ScansConsistently (vs : ValueList) : Prop where
  delimited : ∀ span ∈ spans vs.first vs.rest,
    item (vs.text.drop span.1) = some (span.2, span.2.length)
  counted : ∀ d, IsDelimiter d → ∀ i,
    CountedAt d vs.text i ↔ vs.text[i]? = some d ∧ ¬InQuotes vs.first vs.rest i
  read : (∀ p ∈ vs.rest, p.1 = comma) →
    valueTexts (countDelimiter vs.text comma + 1) vs.text = some vs.values
  rows : ∀ attributes rows, vs.rest = (colon, attributes) :: rowsBehind rows →
    itemRows (countDelimiter vs.text colon) vs.text = some ((vs.first, attributes) :: rows)

section Scanning

variable {d previous : UInt8} {t u v w str : Bytes} {rest : List (UInt8 × Bytes)} {i : ℕ}

theorem countDelimiterFrom_eq (s : Bool) : countDelimiterFrom d previous s w =
    scanCount delimiterStep (DelimiterCounts d) (previous, s) w := by
  induction w generalizing previous s with
  | nil => rfl
  | cons b w ih =>
    rw [countDelimiterFrom, scanCount, delimiterStep]
    by_cases hquote : b = quote ∧ previous ≠ backslash
    · rw [if_pos hquote, if_pos hquote, if_neg fun h => h.1 hquote, ih]
      rfl
    · rw [if_neg hquote, if_neg hquote]
      by_cases hd : s = false ∧ b = d
      · rw [if_pos hd, if_pos ⟨hquote, hd⟩, ih]
      · rw [if_neg hd, if_neg fun h => hd h.2, ih]
        rfl

theorem countDelimiter_eq (d : UInt8) (w : Bytes) :
    countDelimiter w d = scanCount delimiterStep (DelimiterCounts d) (0, false) w :=
  countDelimiterFrom_eq false

/-- **A delimiter is counted** outside of quotes. -/
theorem countedAt_iff (hd : d ≠ quote) :
    CountedAt d str i ↔ str[i]? = some d ∧ insideAfter 0 (str.take i) = false := by
  rw [CountedAt, countDelimiter_eq, countDelimiter_eq, scanCount_take_succ]
  constructor
  · rintro ⟨a, hget, -, hinside, rfl⟩
    exact ⟨hget, hinside⟩
  · rintro ⟨hget, hinside⟩
    exact ⟨d, hget, fun h => hd h.1, hinside, rfl⟩

/-- The state behind two parts, if it is outside of quotes between them. -/
theorem insideAfter_append_cons (h : insideAfter previous u = false) (hd : d ≠ quote) :
    insideAfter previous (u ++ d :: w) = insideAfter d w := by
  unfold insideAfter at h ⊢
  rw [List.foldl_append, List.foldl_cons, delimiterStep, if_neg fun hq => hd hq.1, h]

/-! ### Within a value -/

theorem foldl_of_quote_not_mem (s : UInt8 × Bool) (h : quote ∉ w) :
    (w.foldl delimiterStep s).2 = s.2 := by
  induction w generalizing s with
  | nil => rfl
  | cons b w ih =>
    obtain ⟨hb, hw⟩ := List.ne_and_not_mem_of_not_mem_cons h
    rw [List.foldl_cons, ih _ hw, delimiterStep, if_neg fun hq => hb hq.1.symm]

theorem foldl_fst (s : UInt8 × Bool) (hne : w ≠ []) : (w.foldl delimiterStep s).1 = w.getLast hne := by
  obtain ⟨u, b, rfl⟩ := (List.eq_nil_or_concat w).resolve_left hne
  simp [delimiterStep]

/-- **The scanner stays inside** throughout the bytes of a quoted text: a quotation mark among them
is behind a backslash. -/
theorem BodyText.foldl_take (h : BodyText u) (previous : UInt8) (i : ℕ) :
    ((u.take i).foldl delimiterStep (previous, true)).2 = true := by
  have hne : backslash ≠ quote := by decide
  induction h generalizing previous i with
  | nil =>
    rw [List.take_nil]
    rfl
  | @byte b w hq _ _ ih =>
    cases i with
    | zero => rfl
    | succ i =>
      rw [List.take_succ_cons, List.foldl_cons, delimiterStep, if_neg fun h => hq h.1]
      exact ih b i
  | @escape b w _ ih =>
    match i with
    | 0 => rfl
    | 1 => rfl
    | i + 2 =>
      rw [List.take_succ_cons, List.take_succ_cons, List.foldl_cons, List.foldl_cons, delimiterStep,
        if_neg fun h => h.2 rfl, delimiterStep, if_neg fun h => hne h.1]
      exact ih b i

theorem not_isBareByte_quote : ¬IsBareByte quote := by decide

/-- **The scanner within a value** is inside of quotes exactly behind the opening one. -/
theorem AnyText.inside (h : AnyText t) (hprevious : previous ≠ backslash) (hi : i < t.length) :
    insideAfter previous (t.take i) = true ↔ t.head? = some quote ∧ 0 < i := by
  rw [insideAfter]
  cases h with
  | bare hne hall =>
    have hquote : quote ∉ t := fun hmem => not_isBareByte_quote (hall _ hmem)
    rw [foldl_of_quote_not_mem _ fun hmem => hquote (List.mem_of_mem_take hmem)]
    apply iff_of_false (Bool.false_ne_true ·)
    rintro ⟨hhead, -⟩
    exact hquote (List.mem_of_mem_head? hhead)
  | @quoted u hne hbody =>
    cases i with
    | zero => exact iff_of_false (Bool.false_ne_true ·) (fun h => absurd h.2 (lt_irrefl 0))
    | succ i =>
      have hle : i ≤ u.length := by
        simp only [List.length_cons, List.length_append, List.length_nil] at hi
        omega
      refine iff_of_true ?_ ⟨rfl, i.succ_pos⟩
      rw [List.take_succ_cons, List.take_append_of_le_length hle, List.foldl_cons, delimiterStep,
        if_pos ⟨rfl, hprevious⟩]
      exact hbody.foldl_take quote i

/-- **The scanner at the end of a value** is inside of quotes exactly if an escaped backslash is in
front of the closing one. -/
theorem AnyText.inside_end (h : AnyText t) (hprevious : previous ≠ backslash) :
    insideAfter previous t = true ↔ [backslash, quote] <:+ t := by
  rw [insideAfter]
  cases h with
  | bare hne hall =>
    have hquote : quote ∉ t := fun hmem => not_isBareByte_quote (hall _ hmem)
    rw [foldl_of_quote_not_mem _ hquote]
    apply iff_of_false (Bool.false_ne_true ·)
    intro hsuffix
    exact hquote (hsuffix.subset (List.mem_cons_of_mem _ List.mem_cons_self))
  | @quoted u hne hbody =>
    obtain ⟨w, b, rfl⟩ := (List.eq_nil_or_concat u).resolve_left hne
    have hinside := hbody.foldl_take quote (w.concat b).length
    rw [List.take_length] at hinside
    have hlast := foldl_fst (quote, true) hne
    rw [List.foldl_cons, delimiterStep, if_pos ⟨rfl, hprevious⟩, List.foldl_append, List.foldl_cons,
      List.foldl_nil, delimiterStep, Bool.not_false, hlast, hinside]
    simp only [List.concat_eq_append, List.getLast_append_singleton, true_and]
    constructor
    · intro h
      by_cases hb : b = backslash
      · subst hb
        exact ⟨quote :: w, by simp⟩
      · rw [if_pos hb] at h
        exact absurd h Bool.false_ne_true
    · rintro ⟨z, hz⟩
      have hrev := congrArg List.reverse hz
      simp only [List.reverse_append, List.reverse_cons, List.reverse_nil, List.nil_append,
        List.cons_append, List.append_assoc, List.cons.injEq, true_and] at hrev
      rw [if_neg (not_not.mpr hrev.1.symm)]

/-- No delimiter is counted within a value. -/
theorem AnyText.scanCount_eq_zero (h : AnyText t) (hprevious : previous ≠ backslash)
    (hd : IsDelimiter d) :
    scanCount delimiterStep (DelimiterCounts d) (previous, false) t = 0 := by
  apply SetQL.scanCount_eq_zero
  rintro i b hget ⟨-, hinside, rfl⟩
  obtain ⟨hi, -⟩ := List.getElem?_eq_some_iff.mp hget
  have houtside : ¬(t.head? = some quote ∧ 0 < i) := by
    intro hquoted
    have htrue := (h.inside hprevious hi).mpr hquoted
    rw [insideAfter, hinside] at htrue
    exact absurd htrue Bool.false_ne_true
  cases h with
  | bare hne hall =>
    have hne := (IsTokenStart.ne (Or.inl (hall b (List.mem_of_getElem? hget))))
    exact hd.elim hne.2.1 hne.2.2.1
  | quoted =>
    obtain rfl : i = 0 := by
      by_contra hne
      exact houtside ⟨rfl, Nat.pos_of_ne_zero hne⟩
    obtain rfl := Option.some.inj hget
    rcases hd with hd | hd
    · exact absurd hd (by decide)
    · exact absurd hd (by decide)

/-! ### Over values with delimiters between them -/

theorem IsDelimiter.ne (hd : IsDelimiter d) : d ≠ quote ∧ d ≠ backslash ∧ ¬IsSpace d ∧ ¬IsBareByte d := by
  rcases hd with rfl | rfl
  · decide
  · decide

/-- Values, and delimiters in front of all but the first. -/
def AreValues (t : Bytes) (rest : List (UInt8 × Bytes)) : Prop :=
  AnyText t ∧ ∀ p ∈ rest, IsDelimiter p.1 ∧ AnyText p.2

theorem AreValues.tail (h : AreValues t ((d, v) :: rest)) : AreValues v rest := by
  obtain ⟨-, hrest⟩ := h
  obtain ⟨⟨-, hv⟩, hrest⟩ := List.forall_mem_cons.mp hrest
  exact ⟨hv, hrest⟩

theorem AreValues.head (h : AreValues t ((d, v) :: rest)) : IsDelimiter d :=
  (h.2 _ List.mem_cons_self).1

/-- No value but the last ends with an escaped backslash in quotes. -/
def NoEscapedEnd (values : List Bytes) : Prop := ∀ v ∈ values.dropLast, ¬[backslash, quote] <:+ v

theorem noEscapedEnd_cons {values : List Bytes} (hne : values ≠ []) :
    NoEscapedEnd (t :: values) ↔ ¬[backslash, quote] <:+ t ∧ NoEscapedEnd values := by
  rw [NoEscapedEnd, List.dropLast_cons_of_ne_nil hne, List.forall_mem_cons, NoEscapedEnd]

theorem drop_spliced (i : ℕ) :
    (spliced t ((d, v) :: rest)).drop (t.length + 1 + i) = (spliced v rest).drop i := by
  rw [spliced, Nat.add_assoc, ← List.drop_drop, List.drop_left, Nat.add_comm, List.drop_succ_cons]

theorem getElem?_spliced (i : ℕ) :
    (spliced t ((d, v) :: rest))[t.length + 1 + i]? = (spliced v rest)[i]? := by
  have hdrop : (spliced t ((d, v) :: rest)).drop (t.length + 1 + i) = (spliced v rest).drop i :=
    drop_spliced i
  have h := congrArg (fun w : Bytes => w[0]?) hdrop
  simpa only [List.getElem?_drop, Nat.add_zero] using h

theorem take_spliced (i : ℕ) :
    (spliced t ((d, v) :: rest)).take (t.length + 1 + i) = t ++ d :: (spliced v rest).take i := by
  rw [spliced, Nat.add_assoc, List.take_length_add_append, Nat.add_comm, List.take_succ_cons]

theorem take_spliced_of_le (hi : i ≤ t.length) : (spliced t rest).take i = t.take i := by
  cases rest with
  | nil => rfl
  | cons p rest => exact List.take_append_of_le_length hi

theorem spliced_getElem?_of_lt (hi : i < t.length) : (spliced t rest)[i]? = t[i]? := by
  cases rest with
  | nil => rfl
  | cons p rest => exact List.getElem?_append_left hi

/-- An index is within a quoted value exactly if it is within the first or behind the delimiter. -/
theorem inQuotes_cons : InQuotes t ((d, v) :: rest) i ↔
    (t.head? = some quote ∧ i < t.length) ∨ ∃ j, i = t.length + 1 + j ∧ InQuotes v rest j := by
  rw [InQuotes, spans]
  constructor
  · rintro ⟨span, hspan, hquote, hstart, hstop⟩
    rcases List.mem_cons.mp hspan with rfl | hspan
    · exact Or.inl ⟨hquote, by simpa using hstop⟩
    · obtain ⟨⟨j, w⟩, hmem, rfl⟩ := List.mem_map.mp hspan
      refine Or.inr ⟨i - (t.length + 1), ?_, (j, w), hmem, hquote, ?_⟩
      · dsimp only at hstart
        omega
      · dsimp only at hstart hstop ⊢
        omega
  · rintro (⟨hquote, hlt⟩ | ⟨j, rfl, ⟨k, w⟩, hmem, hquote, hstart, hstop⟩)
    · exact ⟨(0, t), List.mem_cons_self, hquote, Nat.zero_le i, by simpa using hlt⟩
    · refine ⟨(t.length + 1 + k, w), List.mem_cons_of_mem _ (List.mem_map_of_mem hmem), hquote, ?_⟩
      dsimp only at hstart hstop ⊢
      omega

theorem inQuotes_nil : InQuotes t [] i ↔ t.head? = some quote ∧ i < t.length := by
  simp [InQuotes, spans]

/-- Within the first value an index is in quotes exactly if the value is quoted. -/
theorem inQuotes_of_lt (hi : i < t.length) : InQuotes t rest i ↔ t.head? = some quote := by
  cases rest with
  | nil => rw [inQuotes_nil, and_iff_left hi]
  | cons p rest =>
    rw [inQuotes_cons, and_iff_left hi]
    apply or_iff_left
    rintro ⟨j, rfl, -⟩
    omega

/-- At each delimiter the scanner is outside of quotes exactly if the expressions are. -/
def Agrees (previous : UInt8) (t : Bytes) (rest : List (UInt8 × Bytes)) : Prop :=
  ∀ d, IsDelimiter d → ∀ i, (spliced t rest)[i]? = some d →
    (insideAfter previous ((spliced t rest).take i) = false ↔ ¬InQuotes t rest i)

/-- The scanner and the expressions agree within the first value. -/
theorem AnyText.agrees (h : AnyText t) (hprevious : previous ≠ backslash) (hd : IsDelimiter d)
    (hi : i < t.length) (hget : (spliced t rest)[i]? = some d) :
    insideAfter previous ((spliced t rest).take i) = false ↔ ¬InQuotes t rest i := by
  rw [take_spliced_of_le hi.le, inQuotes_of_lt hi, ← Bool.not_eq_true, not_iff_not,
    h.inside hprevious hi, and_iff_left_iff_imp]
  intro hhead
  by_contra hzero
  obtain rfl : i = 0 := Nat.eq_zero_of_not_pos hzero
  rw [spliced_getElem?_of_lt hi, ← List.head?_eq_getElem?, hhead] at hget
  exact hd.ne.1 (Option.some.inj hget).symm

theorem agrees_nil (h : AnyText t) (hprevious : previous ≠ backslash) : Agrees previous t [] := by
  intro d hd i hget
  obtain ⟨hi, -⟩ := List.getElem?_eq_some_iff.mp hget
  exact h.agrees hprevious hd hi hget

/-- **They agree behind a delimiter** exactly if the value in front of it is not taken for open. -/
theorem agrees_cons (h : AreValues t ((d, v) :: rest)) (hprevious : previous ≠ backslash) :
    Agrees previous t ((d, v) :: rest) ↔ ¬[backslash, quote] <:+ t ∧ Agrees d v rest := by
  have hend := h.1.inside_end hprevious
  have hinside : ∀ {i}, ¬[backslash, quote] <:+ t →
      insideAfter previous ((spliced t ((d, v) :: rest)).take (t.length + 1 + i)) =
        insideAfter d ((spliced v rest).take i) := by
    intro i ht
    rw [take_spliced]
    exact insideAfter_append_cons (Bool.not_eq_true _ ▸ fun hin => ht (hend.mp hin)) h.head.ne.1
  have hquotes : ∀ {i}, InQuotes t ((d, v) :: rest) (t.length + 1 + i) ↔ InQuotes v rest i := by
    intro i
    rw [inQuotes_cons]
    constructor
    · rintro (⟨-, hlt⟩ | ⟨j, hj, hmem⟩)
      · omega
      · obtain rfl : i = j := by omega
        exact hmem
    · intro hmem
      exact Or.inr ⟨i, rfl, hmem⟩
  have hbetween : ¬InQuotes t ((d, v) :: rest) t.length := by
    rw [inQuotes_cons]
    rintro (⟨-, hlt⟩ | ⟨j, hj, -⟩)
    · exact lt_irrefl _ hlt
    · omega
  constructor
  · intro hagrees
    have ht : ¬[backslash, quote] <:+ t := by
      have hget : (spliced t ((d, v) :: rest))[t.length]? = some d := by
        rw [spliced, List.getElem?_append_right le_rfl, Nat.sub_self]
        rfl
      have houtside := (hagrees d h.head t.length hget).mpr hbetween
      rw [take_spliced_of_le le_rfl, List.take_length] at houtside
      rw [← hend, houtside]
      exact Bool.false_ne_true
    refine ⟨ht, ?_⟩
    intro d' hd' i hget
    rw [← hinside ht, ← hquotes]
    exact hagrees d' hd' _ ((getElem?_spliced i).trans hget)
  · rintro ⟨ht, hagrees⟩ d' hd' i hget
    rcases lt_trichotomy i t.length with hi | rfl | hi
    · exact h.1.agrees hprevious hd' hi hget
    · refine iff_of_true ?_ hbetween
      rw [take_spliced_of_le le_rfl, List.take_length, ← Bool.not_eq_true, hend]
      exact ht
    · obtain ⟨j, rfl⟩ := Nat.exists_eq_add_of_le (Nat.succ_le_of_lt hi)
      rw [hinside ht, hquotes]
      exact hagrees d' hd' j ((getElem?_spliced j).symm.trans hget)

/-- **When the scanner and the expressions agree.** -/
theorem agrees_iff (h : AreValues t rest) (hprevious : previous ≠ backslash) :
    Agrees previous t rest ↔ NoEscapedEnd (t :: rest.map Prod.snd) := by
  induction rest generalizing t previous with
  | nil => exact iff_of_true (agrees_nil h.1 hprevious) nofun
  | cons p rest ih =>
    obtain ⟨d, v⟩ := p
    rw [agrees_cons h hprevious, ih h.tail h.head.ne.2.1, List.map_cons,
      noEscapedEnd_cons (List.cons_ne_nil _ _)]

/-- **The delimiters that are counted** are those between the values, if the scanner and the
expressions agree. -/
theorem scanCount_spliced (h : AreValues t rest) (hprevious : previous ≠ backslash)
    (hd : IsDelimiter d) (hends : NoEscapedEnd (t :: rest.map Prod.snd)) :
    scanCount delimiterStep (DelimiterCounts d) (previous, false) (spliced t rest) =
      rest.countP fun p => p.1 = d := by
  induction rest generalizing t previous with
  | nil => exact h.1.scanCount_eq_zero hprevious hd
  | cons p rest ih =>
    obtain ⟨d', v⟩ := p
    rw [List.map_cons, noEscapedEnd_cons (List.cons_ne_nil _ _)] at hends
    have hinside : (t.foldl delimiterStep (previous, false)).2 = false :=
      Bool.not_eq_true _ ▸ fun hin => hends.1 ((h.1.inside_end hprevious).mp hin)
    have hquote : ∀ p : UInt8, ¬(d' = quote ∧ p ≠ backslash) := fun _ hq => h.head.ne.1 hq.1
    generalize hs : t.foldl delimiterStep (previous, false) = s at hinside
    obtain ⟨p, inside⟩ := s
    subst hinside
    rw [spliced, scanCount_append, h.1.scanCount_eq_zero hprevious hd, Nat.zero_add, hs, scanCount,
      delimiterStep, if_neg (hquote p), ih h.tail h.head.ne.2.1 hends.2, List.countP_cons]
    by_cases hdelimiter : d' = d
    · rw [if_pos ⟨hquote p, rfl, hdelimiter⟩, if_pos (by simpa using hdelimiter)]
    · rw [if_neg fun hcounts => hdelimiter hcounts.2.2, if_neg (by simpa using hdelimiter)]

/-! ### What the expressions read -/

theorem stops_spliced (hd : IsDelimiter d) (x : Bytes) : Stops (d :: x) :=
  stops_cons ⟨hd.ne.2.2.1, hd.ne.2.2.2⟩

/-- **The expression of items delimits a value**, whatever is behind its delimiter. -/
theorem item_spliced {o : Bytes} (h : AreValues t rest) (ho : o = [] ∨ o = [comma]) :
    item (o ++ spliced t rest) = some (t, o.length + t.length) := by
  have hlead : ItemLead o := ⟨o, [], ho, spaces_nil, (List.append_nil o).symm⟩
  cases rest with
  | nil =>
    have hitem := item_eq (x := []) hlead (Or.inl h.1) spaces_nil nofun
    simpa [spliced] using hitem
  | cons p rest =>
    obtain ⟨d, v⟩ := p
    have hitem := item_eq hlead (Or.inl h.1) spaces_nil (stops_spliced h.head (spliced v rest))
    simpa [spliced] using hitem

/-- The values are delimited where they start. -/
theorem item_drop_spliced (h : AreValues t rest) :
    ∀ span ∈ spans t rest, item ((spliced t rest).drop span.1) = some (span.2, span.2.length) := by
  induction rest generalizing t with
  | nil =>
    intro span hspan
    obtain rfl := List.mem_singleton.mp hspan
    simpa using item_spliced (o := []) h (Or.inl rfl)
  | cons p rest ih =>
    obtain ⟨d, v⟩ := p
    intro span hspan
    rcases List.mem_cons.mp hspan with rfl | hspan
    · simpa using item_spliced (o := []) h (Or.inl rfl)
    · obtain ⟨span, hmem, rfl⟩ := List.mem_map.mp hspan
      rw [drop_spliced]
      exact ih h.tail span hmem

/-- **Values with commas between them** are read one by one. -/
theorem valueTexts_spliced {o : Bytes} (h : AreValues t rest) (hcomma : ∀ p ∈ rest, p.1 = comma)
    (ho : o = [] ∨ o = [comma]) :
    valueTexts (rest.length + 1) (o ++ spliced t rest) = some (t :: rest.map Prod.snd) := by
  have hlead : ValueLead o := by
    refine ⟨[], o, [], spaces_nil, spaces_nil, ?_, by simp⟩
    exact ho.imp_right Or.inr
  induction rest generalizing t o with
  | nil =>
    have hvalue := value_eq (x := []) hlead h.1 spaces_nil nofun
    rw [List.nil_append, List.append_nil] at hvalue
    exact valueTexts_succ hvalue rfl
  | cons p rest ih =>
    obtain ⟨d, v⟩ := p
    obtain ⟨rfl, hbehind⟩ := List.forall_mem_cons.mp hcomma
    have hvalue := value_eq hlead h.1 spaces_nil (stops_spliced h.head (spliced v rest))
    exact valueTexts_succ hvalue (ih (o := [comma]) h.tail hbehind (Or.inr rfl)
      ⟨[], [comma], [], spaces_nil, spaces_nil, Or.inr (Or.inr rfl), rfl⟩)

/-- A row is read, and then the rows behind its attributes. -/
theorem itemRows_succ {o attributes : Bytes} {rows : List (Bytes × Bytes)} {n : ℕ}
    (h : AreValues t ((colon, attributes) :: rest)) (ho : o = [] ∨ o = [comma])
    (hrows : itemRows n ((spliced attributes rest).drop attributes.length) = some rows) :
    itemRows (n + 1) (o ++ spliced t ((colon, attributes) :: rest)) =
      some ((t, attributes) :: rows) := by
  have hcolon : (o ++ spliced t ((colon, attributes) :: rest))[o.length + t.length]? = some colon := by
    rw [spliced, ← List.append_assoc, ← List.length_append, List.getElem?_append_right le_rfl,
      Nat.sub_self]
    rfl
  have hdrop : (o ++ spliced t ((colon, attributes) :: rest)).drop (o.length + t.length + 1) =
      spliced attributes rest := by
    rw [Nat.add_assoc, ← List.drop_drop, List.drop_left]
    exact drop_spliced 0
  have hattributes := item_spliced (o := []) h.tail (Or.inl rfl)
  rw [List.nil_append, List.length_nil, Nat.zero_add] at hattributes
  rw [itemRows, item_spliced h ho]
  simp only [Option.bind_eq_bind, Option.bind_some, hcolon, if_true, hdrop, hattributes, hrows]
  rfl

/-- **Rows of values** are read one by one. -/
theorem itemRows_spliced {o attributes : Bytes} {rows : List (Bytes × Bytes)}
    (h : AreValues t ((colon, attributes) :: rowsBehind rows)) (ho : o = [] ∨ o = [comma]) :
    itemRows (rows.length + 1) (o ++ spliced t ((colon, attributes) :: rowsBehind rows)) =
      some ((t, attributes) :: rows) := by
  induction rows generalizing t attributes o with
  | nil => exact itemRows_succ h ho (by rw [List.length_nil, itemRows])
  | cons row rows ih =>
    apply itemRows_succ h ho
    have hnext : (spliced attributes (rowsBehind (row :: rows))).drop attributes.length =
        [comma] ++ spliced row.1 ((colon, row.2) :: rowsBehind rows) := List.drop_left ..
    rw [hnext]
    exact ih h.tail.tail (Or.inr rfl)

/-- The rows that are read into the universe are the rows of the items. -/
theorem UniverseRowsRead.itemRows {keyTypes attributeTypes : List Bytes} {n : ℕ} {cursor : Bytes}
    {rows : List (List Bytes × List Bytes)}
    (h : UniverseRowsRead keyTypes attributeTypes n cursor rows) :
    ∃ texts, SetQL.itemRows n cursor = some texts ∧ List.Forall₂ (fun text row =>
      RowReads keyTypes text.1 row.1 ∧ RowReads attributeTypes text.2 row.2) texts rows := by
  induction h with
  | nil => exact ⟨[], rfl, .nil⟩
  | @cons n cursor keys offset keyRow attributes offset' attributeRow rows hkeys _ hcolon hkeyRow
      hattributes hattributeRow _ ih =>
    obtain ⟨texts, htexts, hrows⟩ := ih
    refine ⟨(keys, attributes) :: texts, ?_, .cons ⟨hkeyRow, hattributeRow⟩ hrows⟩
    rw [SetQL.itemRows, hkeys]
    simp only [Option.bind_eq_bind, Option.bind_some, hcolon, if_true, hattributes, htexts]
    rfl

theorem countP_rowsBehind (rows : List (Bytes × Bytes)) :
    ((rowsBehind rows).countP fun p => p.1 = colon) = rows.length := by
  have hne : comma ≠ colon := by decide
  induction rows with
  | nil => rfl
  | cons row rows ih =>
    show List.countP _ ((comma, row.1) :: (colon, row.2) :: rowsBehind rows) = _
    rw [List.countP_cons, List.countP_cons, ih, List.length_cons]
    simp [hne]

end Scanning

/-! ## When they agree -/

/-- **When the scanner and the expressions agree**: exactly if no value but the last one ends with an
escaped backslash in quotes. -/
theorem scansConsistently_iff (vs : ValueList) :
    vs.ScansConsistently ↔ ∀ v ∈ vs.values.dropLast, ¬[backslash, quote] <:+ v := by
  have h : AreValues vs.first vs.rest := ⟨vs.anyText_first, vs.anyText_rest⟩
  have hzero : (0 : UInt8) ≠ backslash := by decide
  -- the counted bytes are those outside the values iff no earlier value ends escaped
  have hcounted : (∀ d, IsDelimiter d → ∀ i, CountedAt d vs.text i ↔
      vs.text[i]? = some d ∧ ¬InQuotes vs.first vs.rest i) ↔ Agrees 0 vs.first vs.rest := by
    refine forall₃_congr fun d hd i => ?_
    rw [countedAt_iff hd.ne.1, ← and_congr_right_iff]
    rfl
  rw [← NoEscapedEnd, ValueList.values, ← agrees_iff h hzero, ← hcounted]
  constructor
  · intro hscans
    exact hscans.counted
  · intro hagrees
    have hends := (agrees_iff h hzero).mp (hcounted.mp hagrees)
    have hcount : ∀ {d}, IsDelimiter d →
        countDelimiter vs.text d = vs.rest.countP fun p => p.1 = d := by
      intro d hd
      rw [countDelimiter_eq]
      exact scanCount_spliced h hzero hd hends
    refine ⟨item_drop_spliced h, hagrees, ?_, ?_⟩
    · intro hcomma
      rw [hcount (Or.inl rfl), List.countP_eq_length.mpr fun p hp => by simpa using hcomma p hp]
      exact valueTexts_spliced (o := []) h hcomma (Or.inl rfl)
    · intro attributes rows hrest
      have hread := h
      rw [hrest] at hread
      rw [hcount (Or.inr rfl), ValueList.text, hrest, List.countP_cons_of_pos (by simp),
        countP_rowsBehind]
      exact itemRows_spliced (o := []) hread (Or.inl rfl)

/-- Two quoted values, the first of which ends with an escaped backslash. -/
def escapedValues : ValueList where
  first := lit "\"a\\\\\""
  rest := [(comma, lit "\"b\"")]
  anyText_first := .quoted (w := lit "a\\\\") (by decide)
    (.byte (by decide) (by decide) (.escape .nil))
  anyText_rest := by
    rintro _ (_ | ⟨_, ⟨⟩⟩)
    exact ⟨Or.inl rfl, .quoted (w := lit "b") (by decide) (.byte (by decide) (by decide) .nil)⟩

/-- The comma between the two values is not counted, so only one of them would be read. -/
theorem not_scansConsistently_escaped : escapedValues.text = lit "\"a\\\\\",\"b\"" ∧
    countDelimiter escapedValues.text comma = 0 ∧ ¬escapedValues.ScansConsistently := by
  have hcount : countDelimiter escapedValues.text comma = 0 := by decide +kernel
  refine ⟨by decide +kernel, hcount, ?_⟩
  intro hscans
  have hread := length_valueTexts (hscans.read (by simp [escapedValues]))
  rw [hcount] at hread
  exact absurd hread (by decide)

end SetQL
