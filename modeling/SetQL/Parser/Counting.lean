import SetQL.Parser.Tokens

/-!
# Counting delimiters

The delimiters of a text outside of quotes, counted over its parts. A part that closes the quotes it
opens, and does not end with a backslash, adds its own delimiters to those of the rest.

## Main definitions

* `Delimits d w n`: in front of any text, the part adds `n` delimiters

## Main results

* `Delimits.append`: the delimiters of two parts
* `Delimits.countDelimiter`: the delimiters of a text
* `delimits_quoted`, `delimits_spaces`: quoted texts and white space add none
-/

namespace SetQL

/-- Outside of quotes and not behind a backslash, the part adds `n` delimiters to those of any text
behind it. -/
def Delimits (d : UInt8) (w : Bytes) (n : ℕ) : Prop :=
  ∀ previous rest, previous ≠ backslash → ∃ last, last ≠ backslash ∧
    countDelimiterFrom d previous false (w ++ rest) = n + countDelimiterFrom d last false rest

section Counting

variable {d b : UInt8} {u v w t : Bytes} {m n : ℕ}

theorem delimits_nil (d : UInt8) : Delimits d [] 0 :=
  fun previous _ h => ⟨previous, h, (Nat.zero_add _).symm⟩

/-- **The delimiters of two parts.** -/
theorem Delimits.append (hu : Delimits d u m) (hv : Delimits d v n) : Delimits d (u ++ v) (m + n) := by
  intro previous rest h
  obtain ⟨middle, hmiddle, hfirst⟩ := hu previous (v ++ rest) h
  obtain ⟨last, hlast, hsecond⟩ := hv middle rest hmiddle
  refine ⟨last, hlast, ?_⟩
  rw [List.append_assoc, hfirst, hsecond, Nat.add_assoc]

/-- **The delimiters of a text** are those of its parts. -/
theorem Delimits.countDelimiter (h : Delimits d w n) : countDelimiter w d = n := by
  obtain ⟨last, -, hcount⟩ := h 0 [] (by decide)
  rw [List.append_nil] at hcount
  exact hcount

/-- A byte outside of quotes. -/
theorem delimits_byte (hq : b ≠ quote) (hb : b ≠ backslash) : Delimits d [b] (if b = d then 1 else 0) := by
  intro previous rest _
  refine ⟨b, hb, ?_⟩
  rw [List.singleton_append, countDelimiterFrom, if_neg fun h => hq h.1]
  by_cases hd : b = d
  · rw [if_pos ⟨rfl, hd⟩, if_pos hd, Nat.add_comm]
  · rw [if_neg fun h => hd h.2, if_neg hd, Nat.zero_add]

/-- Bytes outside of quotes none of which is the delimiter. -/
theorem delimits_of_forall (h : ∀ b ∈ w, b ≠ quote ∧ b ≠ backslash ∧ b ≠ d) : Delimits d w 0 := by
  induction w with
  | nil => exact delimits_nil d
  | cons b w ih =>
    obtain ⟨⟨hq, hb, hd⟩, hw⟩ := List.forall_mem_cons.mp h
    have hbyte := delimits_byte (d := d) hq hb
    rw [if_neg hd] at hbyte
    exact hbyte.append (ih hw)

/-- Within quotes nothing is counted up to the closing quotation mark. -/
theorem countDelimiterFrom_quoted (hq : quote ∉ w) (hb : backslash ∉ w) (previous : UInt8)
    (h : previous ≠ backslash) (rest : Bytes) :
    countDelimiterFrom d previous true (w ++ quote :: rest) = countDelimiterFrom d quote false rest := by
  induction w generalizing previous with
  | nil =>
    rw [List.nil_append, countDelimiterFrom, if_pos ⟨rfl, h⟩]
    rfl
  | cons b w ih =>
    obtain ⟨hbq, hq⟩ := List.ne_and_not_mem_of_not_mem_cons hq
    obtain ⟨hbb, hb⟩ := List.ne_and_not_mem_of_not_mem_cons hb
    rw [List.cons_append, countDelimiterFrom, if_neg fun h => hbq h.1.symm,
      if_neg fun h => nomatch h.1]
    exact ih hq hb b (Ne.symm hbb)

theorem delimits_quoted (hq : quote ∉ w) (hb : backslash ∉ w) :
    Delimits d (quote :: (w ++ [quote])) 0 := by
  intro previous rest h
  refine ⟨quote, by decide, ?_⟩
  rw [List.cons_append, countDelimiterFrom, if_pos ⟨rfl, h⟩, List.append_assoc, Nat.zero_add]
  exact countDelimiterFrom_quoted hq hb quote (by decide) rest

/-- Bytes of a kind that has neither the delimiter nor the bytes of quotes. -/
theorem delimits_of_bytes {p : UInt8 → Prop} (hquote : ¬p quote) (hbackslash : ¬p backslash)
    (hd : ¬p d) (hw : ∀ b ∈ w, p b) : Delimits d w 0 := by
  apply delimits_of_forall
  intro b hb
  refine ⟨?_, ?_, ?_⟩
  · rintro rfl
    exact hquote (hw _ hb)
  · rintro rfl
    exact hbackslash (hw _ hb)
  · rintro rfl
    exact hd (hw _ hb)

/-- White space has no delimiters. -/
theorem delimits_spaces (hd : ¬IsSpace d) (hw : Spaces w) : Delimits d w 0 :=
  delimits_of_bytes (by decide) (by decide) hd hw

end Counting

end SetQL
