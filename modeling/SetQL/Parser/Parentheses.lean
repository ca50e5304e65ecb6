import SetQL.Base.Scanner
import SetQL.Parser.Items

/-!
# Commas outside of parentheses

The keys of an insertion into a set are counted by a scanner that ignores what is in parentheses. It
does not count parentheses, and it takes those within quotes for parentheses as well: it is within
parentheses exactly if the last parenthesis before it opens. So a comma between two keys is not seen
behind a text whose last parenthesis opens, and a comma within a key is seen behind one whose last
parenthesis closes.

## Main definitions

* `ignoringStep`, `IgnoringCounts`: `count_delimiter_ignoring_parentheses_content` as a scanner
* `lastParenthesis w`: the last parenthesis of a text
* `Scans q w n`: a part with closed quotes adds `n` commas
* `seenBetween q texts`: the commas that are seen between texts

## Main results

* `openBehind_false_iff`, `openBehind_true_iff`: where the scanner is within parentheses
* `ItemOf.scans`: the commas that are seen in an item
* `seenBetween_eq_zero`, `seenBetween_eq_length`: when none, and when all of them are seen
-/

namespace SetQL

/-- The state of the loop of `count_delimiter_ignoring_parentheses_content` behind a byte: the byte,
and whether it is inside of quotes, and of parentheses. -/
def ignoringStep (s : UInt8 × Bool × Bool) (b : UInt8) : UInt8 × Bool × Bool :=
  (b, if b = quote ∧ s.1 ≠ backslash then (!s.2.1, s.2.2)
    else if s.2.2 = false ∧ b = openParen then (s.2.1, true)
    else if s.2.2 = true ∧ b = closeParen then (s.2.1, false) else s.2)

/-- A byte is counted. -/
def IgnoringCounts (d : UInt8) (s : UInt8 × Bool × Bool) (b : UInt8) : Prop :=
  ¬(b = quote ∧ s.1 ≠ backslash) ∧ ¬(s.2.2 = false ∧ b = openParen) ∧
    ¬(s.2.2 = true ∧ b = closeParen) ∧ s.2.1 = false ∧ s.2.2 = false ∧ b = d

instance (d : UInt8) (s : UInt8 × Bool × Bool) : DecidablePred (IgnoringCounts d s) := fun b =>
  inferInstanceAs (Decidable (¬(b = quote ∧ s.1 ≠ backslash) ∧ ¬(s.2.2 = false ∧ b = openParen) ∧
    ¬(s.2.2 = true ∧ b = closeParen) ∧ s.2.1 = false ∧ s.2.2 = false ∧ b = d))

/-- The last parenthesis of a text, within quotes or not. -/
def lastParenthesis (w : Bytes) : Option UInt8 :=
  (w.filter fun b => b = openParen ∨ b = closeParen).getLast?

/-- The scanner is within parentheses behind a text. -/
def openBehind (q : Bool) (w : Bytes) : Bool :=
  w.foldl (fun q b => if b = openParen then true else if b = closeParen then false else q) q

/-- Outside of quotes and not behind a backslash, the part adds `n` commas, and leaves the scanner
outside of quotes and not behind a backslash. -/
def Scans (q : Bool) (w : Bytes) (n : ℕ) : Prop :=
  ∀ previous, previous ≠ backslash → ∃ last, last ≠ backslash ∧
    w.foldl ignoringStep (previous, false, q) = (last, false, openBehind q w) ∧
    scanCount ignoringStep (IgnoringCounts comma) (previous, false, q) w = n

/-- The commas that are seen before further texts. -/
def seenBefore : Bool → List Bytes → ℕ
  | _, [] => 0
  | q, t :: ts => (if q then 0 else 1) + seenBefore (openBehind q t) ts

/-- The commas that are seen between texts. -/
def seenBetween (q : Bool) : List Bytes → ℕ
  | [] => 0
  | t :: ts => seenBefore (openBehind q t) ts

section Scanning

variable {b d previous : UInt8} {inside q : Bool} {u v w t : Bytes} {texts : List Bytes} {m n : ℕ}

theorem countDelimiterIgnoringFrom_eq : countDelimiterIgnoringFrom d previous inside q w =
    scanCount ignoringStep (IgnoringCounts d) (previous, inside, q) w := by
  induction w generalizing previous inside q with
  | nil => rfl
  | cons b w ih =>
    rw [countDelimiterIgnoringFrom, scanCount, ignoringStep]
    by_cases hquote : b = quote ∧ previous ≠ backslash
    · rw [if_pos hquote, if_pos hquote, if_neg fun h => h.1 hquote, ih]
      rfl
    rw [if_neg hquote, if_neg hquote]
    by_cases hopen : q = false ∧ b = openParen
    · rw [if_pos hopen, if_pos hopen, if_neg fun h => h.2.1 hopen, ih]
      rfl
    rw [if_neg hopen, if_neg hopen]
    by_cases hclose : q = true ∧ b = closeParen
    · rw [if_pos hclose, if_pos hclose, if_neg fun h => h.2.2.1 hclose, ih]
      rfl
    rw [if_neg hclose, if_neg hclose]
    by_cases hd : inside = false ∧ q = false ∧ b = d
    · rw [if_pos hd, if_pos ⟨hquote, hopen, hclose, hd⟩, ih]
    · rw [if_neg hd, if_neg fun h => hd h.2.2.2, ih]
      rfl

/-! ### Parentheses -/

theorem openBehind_append (q : Bool) (u v : Bytes) :
    openBehind q (u ++ v) = openBehind (openBehind q u) v := List.foldl_append ..

theorem openBehind_singleton (q : Bool) (b : UInt8) :
    openBehind q [b] = if b = openParen then true else if b = closeParen then false else q := rfl

theorem openBehind_of_forall (h : ∀ b ∈ w, b ≠ openParen ∧ b ≠ closeParen) : openBehind q w = q := by
  induction w with
  | nil => rfl
  | cons b w ih =>
    obtain ⟨⟨hopen, hclose⟩, hw⟩ := List.forall_mem_cons.mp h
    rw [← List.singleton_append, openBehind_append, openBehind_singleton, if_neg hopen,
      if_neg hclose, ih hw]

theorem lastParenthesis_snoc (w : Bytes) (b : UInt8) : lastParenthesis (w ++ [b]) =
    if b = openParen ∨ b = closeParen then some b else lastParenthesis w := by
  rw [lastParenthesis, lastParenthesis, List.filter_append]
  by_cases hb : b = openParen ∨ b = closeParen
  · rw [if_pos hb, List.filter_cons_of_pos (by simpa using hb), List.filter_nil, List.getLast?_concat]
  · rw [if_neg hb, List.filter_cons_of_neg (by simpa using hb), List.filter_nil, List.append_nil]

/-- **The scanner is within parentheses** exactly if the last one opens. -/
theorem openBehind_eq (q : Bool) (w : Bytes) :
    openBehind q w = (lastParenthesis w).elim q fun b => decide (b = openParen) := by
  induction w using List.reverseRecOn with
  | nil => rfl
  | append_singleton w b ih =>
    rw [openBehind_append, openBehind_singleton, lastParenthesis_snoc]
    by_cases hopen : b = openParen
    · rw [if_pos hopen, if_pos (Or.inl hopen), Option.elim_some, decide_eq_true hopen]
    rw [if_neg hopen]
    by_cases hclose : b = closeParen
    · rw [if_pos hclose, if_pos (Or.inr hclose), Option.elim_some, decide_eq_false hopen]
    · rw [if_neg hclose, if_neg fun h => h.elim hopen hclose, ih]

theorem lastParenthesis_cases (w : Bytes) : lastParenthesis w = none ∨
    lastParenthesis w = some openParen ∨ lastParenthesis w = some closeParen := by
  cases h : lastParenthesis w with
  | none => exact Or.inl rfl
  | some b =>
    have hmem := List.mem_of_getLast? h
    rcases (List.mem_filter.mp hmem).2 |> of_decide_eq_true with rfl | rfl
    · exact Or.inr (Or.inl rfl)
    · exact Or.inr (Or.inr rfl)

theorem openBehind_false_iff : openBehind false w = false ↔ lastParenthesis w ≠ some openParen := by
  rw [openBehind_eq]
  rcases lastParenthesis_cases w with h | h | h <;> rw [h] <;> decide

theorem openBehind_true_iff : openBehind true w = true ↔ lastParenthesis w ≠ some closeParen := by
  rw [openBehind_eq]
  rcases lastParenthesis_cases w with h | h | h <;> rw [h] <;> decide

/-! ### Parts of a text -/

/-- **The commas of two parts.** -/
theorem Scans.append {q' : Bool} (hu : Scans q u m) (hq : openBehind q u = q') (hv : Scans q' v n) :
    Scans q (u ++ v) (m + n) := by
  subst hq
  intro previous h
  obtain ⟨middle, hmiddle, hstate, hcount⟩ := hu previous h
  obtain ⟨last, hlast, hstate', hcount'⟩ := hv middle hmiddle
  refine ⟨last, hlast, ?_, ?_⟩
  · rw [List.foldl_append, hstate, hstate', openBehind_append]
  · rw [scanCount_append, hcount, hstate, hcount']

theorem scans_nil (q : Bool) : Scans q [] 0 := fun previous h => ⟨previous, h, rfl, rfl⟩

/-- A byte that is not taken for a quotation mark. -/
theorem ignoringStep_of_not (hquote : ¬(b = quote ∧ previous ≠ backslash)) :
    ignoringStep (previous, inside, q) b = (b, inside, openBehind q [b]) := by
  have hne : openParen ≠ closeParen := by decide
  rw [ignoringStep, if_neg hquote, openBehind_singleton]
  by_cases hopen : b = openParen
  · subst hopen
    cases q <;> simp [hne]
  by_cases hclose : b = closeParen
  · subst hclose
    cases q <;> simp [hopen]
  · simp [hopen, hclose]

/-- A byte outside of quotes. -/
theorem scans_byte (hq : b ≠ quote) (hb : b ≠ backslash) :
    Scans q [b] (if q = false ∧ b = comma then 1 else 0) := by
  intro previous _
  have hquote : ¬(b = quote ∧ previous ≠ backslash) := fun h => hq h.1
  have hne : comma ≠ openParen ∧ comma ≠ closeParen := by decide
  refine ⟨b, hb, ignoringStep_of_not hquote, ?_⟩
  rw [scanCount_singleton]
  refine if_congr ?_ rfl rfl
  constructor
  · rintro ⟨-, -, -, -, hopen, hcomma⟩
    exact ⟨hopen, hcomma⟩
  · rintro ⟨rfl, rfl⟩
    exact ⟨hquote, fun h => hne.1 h.2, fun h => hne.2 h.2, rfl, rfl, rfl⟩

/-- Bytes outside of quotes, none of which is a comma. -/
theorem scans_of_forall (h : ∀ b ∈ w, b ≠ quote ∧ b ≠ backslash ∧ b ≠ comma) : Scans q w 0 := by
  induction w generalizing q with
  | nil => exact scans_nil q
  | cons b w ih =>
    obtain ⟨⟨hq, hb, hcomma⟩, hw⟩ := List.forall_mem_cons.mp h
    have hbyte := scans_byte (q := q) hq hb
    rw [if_neg fun h => hcomma h.2] at hbyte
    exact hbyte.append rfl (ih hw)

theorem scans_spaces (hw : Spaces w) : Scans q w 0 := by
  apply scans_of_forall
  intro b hb
  have hspace := hw b hb
  refine ⟨?_, ?_, ?_⟩ <;> rintro rfl <;> exact absurd hspace (by decide)

theorem openBehind_spaces (hw : Spaces w) : openBehind q w = q := by
  apply openBehind_of_forall
  intro b hb
  have hspace := hw b hb
  refine ⟨?_, ?_⟩ <;> rintro rfl <;> exact absurd hspace (by decide)

/-- Within quotes nothing is counted, and parentheses are taken for parentheses. -/
theorem foldl_inside (hq : quote ∉ w) (hb : backslash ∉ w) (hprevious : previous ≠ backslash) :
    ∃ last, last ≠ backslash ∧
      w.foldl ignoringStep (previous, true, q) = (last, true, openBehind q w) ∧
      scanCount ignoringStep (IgnoringCounts comma) (previous, true, q) w = 0 := by
  induction w generalizing previous q with
  | nil => exact ⟨previous, hprevious, rfl, rfl⟩
  | cons b w ih =>
    obtain ⟨hbq, hq⟩ := List.ne_and_not_mem_of_not_mem_cons hq
    obtain ⟨hbb, hb⟩ := List.ne_and_not_mem_of_not_mem_cons hb
    have hstep : ignoringStep (previous, true, q) b = (b, true, openBehind q [b]) :=
      ignoringStep_of_not fun h => hbq h.1.symm
    obtain ⟨last, hlast, hstate, hcount⟩ := ih (q := openBehind q [b]) hq hb (Ne.symm hbb)
    refine ⟨last, hlast, ?_, ?_⟩
    · rw [List.foldl_cons, hstep, hstate, ← openBehind_append, List.singleton_append]
    · rw [scanCount, hstep, hcount, if_neg fun h => Bool.false_ne_true h.2.2.2.1.symm]

/-- A quoted text adds no commas. -/
theorem scans_quoted (hq : quote ∉ w) (hb : backslash ∉ w) : Scans q (quote :: (w ++ [quote])) 0 := by
  intro previous h
  have hne : quote ≠ openParen ∧ quote ≠ closeParen := by decide
  obtain ⟨last, hlast, hstate, hcount⟩ := foldl_inside (q := q) hq hb (show quote ≠ backslash by decide)
  have hfirst : ignoringStep (previous, false, q) quote = (quote, true, q) := by
    rw [ignoringStep, if_pos ⟨rfl, h⟩]
    rfl
  refine ⟨quote, by decide, ?_, ?_⟩
  · rw [List.foldl_cons, hfirst, List.foldl_append, hstate, List.foldl_cons, List.foldl_nil,
      ignoringStep, if_pos ⟨rfl, hlast⟩, ← List.singleton_append, openBehind_append,
      openBehind_singleton, if_neg hne.1, if_neg hne.2, openBehind_append, openBehind_singleton,
      if_neg hne.1, if_neg hne.2]
    rfl
  · rw [scanCount, hfirst, scanCount_append, hcount, hstate, scanCount_singleton,
      if_neg fun hcounts => hcounts.1 ⟨rfl, hlast⟩, if_neg fun hcounts => hcounts.1 ⟨rfl, h⟩]

/-! ### Items -/

/-- **The commas in front of further texts** are seen where the last parenthesis does not open. -/
theorem TextsTail.scans (h : TextsTail texts w) (hts : ∀ t ∈ texts, ∀ q, Scans q t 0) :
    Scans q w (seenBefore q texts) := by
  induction h generalizing q with
  | nil => exact scans_nil q
  | @cons a b t ts w ha hb _ ih =>
    obtain ⟨ht, hts⟩ := List.forall_mem_cons.mp hts
    have hcomma : openBehind q [comma] = q := rfl
    have hbyte := scans_byte (q := q) (b := comma) (by decide) (by decide)
    have hscans := (scans_spaces ha).append (openBehind_spaces ha) (hbyte.append hcomma
      ((scans_spaces hb).append (openBehind_spaces hb) ((ht q).append rfl (ih hts))))
    rw [seenBefore]
    cases q <;> simpa using hscans

/-- **The commas that are seen in an item.** -/
theorem ItemOf.scans (h : ItemOf texts w) (hts : ∀ t ∈ texts, ∀ q, Scans q t 0) :
    Scans q w (seenBetween true texts) := by
  cases h with
  | bare => exact hts w List.mem_cons_self q
  | @tuple t ts w h =>
    obtain ⟨ht, hts⟩ := List.forall_mem_cons.mp hts
    have hopen : openBehind q [openParen] = true := rfl
    have hfirst := scans_byte (q := q) (b := openParen) (by decide) (by decide)
    have hlast := scans_byte (q := openBehind (openBehind true t) w) (b := closeParen) (by decide)
      (by decide)
    have hscans := hfirst.append hopen ((ht true).append rfl ((h.scans hts).append rfl hlast))
    simpa [seenBetween, show openParen ≠ comma by decide, show closeParen ≠ comma by decide] using hscans

/-- Behind parentheses that close, the scanner is outside of them. -/
theorem ItemOf.openBehind_tuple (h : ItemOf texts w) (hlen : texts.length ≠ 1) :
    openBehind q w = false := by
  cases h with
  | bare => exact absurd rfl hlen
  | tuple h =>
    rw [← List.append_assoc, ← List.cons_append, openBehind_append]
    rfl

/-! ### Commas that are seen -/

/-- **No comma is seen** from within parentheses exactly if no text but the last closes them. -/
theorem seenBetween_eq_zero :
    seenBetween true texts = 0 ↔ ∀ t ∈ texts.dropLast, lastParenthesis t ≠ some closeParen := by
  induction texts with
  | nil => exact iff_of_true rfl nofun
  | cons t ts ih =>
    cases ts with
    | nil => exact iff_of_true rfl nofun
    | cons s ts =>
      rw [List.dropLast_cons_of_ne_nil (List.cons_ne_nil _ _), List.forall_mem_cons, ← ih,
        ← openBehind_true_iff, seenBetween, seenBefore, seenBetween]
      constructor
      · intro h
        -- a closed parenthesis behind the first text would make its comma count
        have hopen : openBehind true t = true := by
          by_contra hclosed
          rw [if_neg hclosed] at h
          omega
        rw [hopen] at h
        exact ⟨hopen, by simpa using h⟩
      · rintro ⟨hopen, h⟩
        rw [hopen, h]
        rfl

theorem seenBefore_le (q : Bool) (texts : List Bytes) : seenBefore q texts ≤ texts.length := by
  induction texts generalizing q with
  | nil => exact le_refl 0
  | cons t ts ih =>
    have := ih (openBehind q t)
    rw [seenBefore, List.length_cons]
    split_ifs <;> omega

/-- **All commas are seen** from outside of parentheses exactly if no text but the last opens them. -/
theorem seenBetween_eq_length : seenBetween false texts = texts.length - 1 ↔
    ∀ t ∈ texts.dropLast, lastParenthesis t ≠ some openParen := by
  induction texts with
  | nil => exact iff_of_true rfl nofun
  | cons t ts ih =>
    cases ts with
    | nil => exact iff_of_true rfl nofun
    | cons s ts =>
      rw [List.dropLast_cons_of_ne_nil (List.cons_ne_nil _ _), List.forall_mem_cons, ← ih,
        ← openBehind_false_iff, seenBetween, seenBefore, seenBetween]
      simp only [List.length_cons, Nat.add_sub_cancel]
      constructor
      · intro h
        -- an open one hides its comma, and the others are too few to make up for it
        have hclosed : openBehind false t = false := by
          by_contra hopen
          have hle := seenBefore_le (openBehind (openBehind false t) s) ts
          rw [if_pos (by simpa using hopen)] at h
          omega
        rw [hclosed] at h
        refine ⟨hclosed, ?_⟩
        rw [if_neg Bool.false_ne_true] at h
        omega
      · rintro ⟨hclosed, h⟩
        rw [hclosed, h, if_neg Bool.false_ne_true, Nat.add_comm]

end Scanning

end SetQL
