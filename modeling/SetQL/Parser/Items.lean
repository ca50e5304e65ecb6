import SetQL.Parser.Counting
import SetQL.Parser.TokenReadings

/-!
# Items as texts of values

An item without its values: the texts of values, alone or in parentheses, with white space around
the commas. It is read as these texts, and its delimiters are the commas between them, whatever the
types and the values are.

## Main definitions

* `TextsTail`, `ItemOf texts w`: the text is an item of the texts
* `Written R types values texts`: each text is its value of its type

## Main results

* `ItemOf.valueTexts`: an item is read as its texts
* `ItemOf.delimits`: the delimiters of an item
* `ItemOf.rowReads_iff`: an item is read as a row exactly if its texts are
-/

namespace SetQL

/-- Further texts of values with white space around the commas before them. -/
inductive TextsTail : List Bytes → Bytes → Prop
  | nil : TextsTail [] []
  | cons {a b t ts w} (ha : Spaces a) (hb : Spaces b) (h : TextsTail ts w) :
    TextsTail (t :: ts) (a ++ comma :: (b ++ (t ++ w)))

/-- The text of an item: the text of a value, or texts of values in parentheses. -/
inductive ItemOf : List Bytes → Bytes → Prop
  | bare {t} : ItemOf [t] t
  | tuple {t ts w} (h : TextsTail ts w) :
    ItemOf (t :: ts) (openParen :: (t ++ (w ++ [closeParen])))

/-- Each text is its value of its type. -/
inductive Written (R : Bytes → Bytes → Bytes → Prop) : List Bytes → List Bytes → List Bytes → Prop
  | nil : Written R [] [] []
  | cons {typeName v t types values texts} (ht : R typeName v t) (h : Written R types values texts) :
    Written R (typeName :: types) (v :: values) (t :: texts)

section Items

variable {R : Bytes → Bytes → Bytes → Prop} {types values texts row : List Bytes} {t w : Bytes}
  {d b : UInt8}

theorem Written.length_eq (h : Written R types values texts) :
    types.length = texts.length ∧ values.length = texts.length := by
  induction h with
  | nil => exact ⟨rfl, rfl⟩
  | cons _ _ ih => exact ⟨congrArg Nat.succ ih.1, congrArg Nat.succ ih.2⟩

/-- What holds of each text that is a value holds of the texts. -/
theorem Written.forall_texts {p : Bytes → Prop} (h : Written R types values texts)
    (hR : ∀ typeName v t, R typeName v t → p t) : ∀ t ∈ texts, p t := by
  induction h with
  | nil => exact fun t ht => absurd ht List.not_mem_nil
  | cons ht _ ih => exact List.forall_mem_cons.mpr ⟨hR _ _ _ ht, ih⟩

theorem TextsTail.tupleTail (h : TextsTail texts w) (hts : ∀ t ∈ texts, AnyText t) : TupleTail w := by
  induction h with
  | nil => exact .nil
  | cons ha hb _ ih =>
    obtain ⟨ht, hts⟩ := List.forall_mem_cons.mp hts
    exact .cons ha hb ht (ih hts)

/-- An item of values is a value, or values in parentheses. -/
theorem ItemOf.text (h : ItemOf texts w) (hts : ∀ t ∈ texts, AnyText t) : AnyText w ∨ TupleText w := by
  cases h with
  | bare => exact Or.inl (hts w List.mem_cons_self)
  | tuple h =>
    obtain ⟨ht, hts⟩ := List.forall_mem_cons.mp hts
    exact Or.inr ⟨_, _, ht, h.tupleTail hts, rfl⟩

/-! ### Reading -/

/-- The further texts of an item are read one by one, each up to the comma behind it. -/
theorem TextsTail.read (h : TextsTail texts w) (hts : ∀ t ∈ texts, AnyText t) : ∃ s x,
    w ++ [closeParen] = s ++ x ∧ Spaces s ∧ Stops x ∧ valueTexts texts.length x = some texts := by
  induction h with
  | nil => exact ⟨[], [closeParen], rfl, spaces_nil, stops_cons ⟨by decide, by decide⟩, rfl⟩
  | @cons a b t ts w ha hb _ ih =>
    obtain ⟨ht, hts⟩ := List.forall_mem_cons.mp hts
    obtain ⟨s, x, hsplit, hs, hx, htexts⟩ := ih hts
    have hvalue := value_eq (l := comma :: b)
      ⟨[], [comma], b, spaces_nil, hb, Or.inr (Or.inr rfl), rfl⟩ ht hs hx
    rw [List.cons_append, ← hsplit] at hvalue
    exact ⟨a, comma :: (b ++ (t ++ (w ++ [closeParen]))), by simp, ha, stops_comma _,
      valueTexts_succ hvalue htexts⟩

/-- **An item is read as its texts.** -/
theorem ItemOf.valueTexts (h : ItemOf texts w) (hts : ∀ t ∈ texts, AnyText t) :
    SetQL.valueTexts texts.length w = some texts := by
  cases h with
  | bare =>
    have hvalue := value_eq (l := []) (s := []) (x := [])
      ⟨[], [], [], spaces_nil, spaces_nil, Or.inl rfl, rfl⟩ (hts w List.mem_cons_self) spaces_nil nofun
    rw [List.nil_append, List.append_nil, List.append_nil] at hvalue
    exact valueTexts_succ hvalue rfl
  | tuple h =>
    obtain ⟨ht, hts⟩ := List.forall_mem_cons.mp hts
    obtain ⟨s, x, hsplit, hs, hx, htexts⟩ := h.read hts
    have hvalue := value_eq (l := [openParen])
      ⟨[], [openParen], [], spaces_nil, spaces_nil, Or.inr (Or.inl rfl), rfl⟩ ht hs hx
    rw [← hsplit] at hvalue
    exact valueTexts_succ hvalue htexts

/-! ### Delimiters -/

theorem delimits_parenthesis (hd : d = comma ∨ d = colon) (hb : b = openParen ∨ b = closeParen) :
    Delimits d [b] 0 := by
  apply delimits_of_forall
  intro c hc
  obtain rfl := List.mem_singleton.mp hc
  rcases hd with rfl | rfl <;> rcases hb with rfl | rfl <;> decide

/-- The commas in front of further texts are counted, and no colon. -/
theorem TextsTail.delimits (h : TextsTail texts w) (hd : d = comma ∨ d = colon)
    (hts : ∀ t ∈ texts, Delimits d t 0) :
    Delimits d w (if d = comma then texts.length else 0) := by
  have hspace : ¬IsSpace d := by
    rcases hd with rfl | rfl <;> decide
  have hbyte := delimits_byte (d := d) (b := comma) (by decide) (by decide)
  induction h with
  | nil => simpa using delimits_nil d
  | cons ha hb _ ih =>
    obtain ⟨ht, hts⟩ := List.forall_mem_cons.mp hts
    have := (delimits_spaces hspace ha).append
      (hbyte.append ((delimits_spaces hspace hb).append (ht.append (ih hts))))
    rcases hd with rfl | rfl
    · simpa [Nat.add_comm] using this
    · simpa [show comma ≠ colon by decide, show colon ≠ comma by decide] using this

/-- **An item has one comma less than texts**, and no colon. -/
theorem ItemOf.delimits (h : ItemOf texts w) (hd : d = comma ∨ d = colon)
    (hts : ∀ t ∈ texts, Delimits d t 0) :
    Delimits d w (if d = comma then texts.length - 1 else 0) := by
  cases h with
  | bare => simpa using hts w List.mem_cons_self
  | tuple h =>
    obtain ⟨ht, hts⟩ := List.forall_mem_cons.mp hts
    have := (delimits_parenthesis hd (Or.inl rfl)).append
      (ht.append ((h.delimits hd hts).append (delimits_parenthesis hd (Or.inr rfl))))
    simpa using this

/-- **An item is read as a row** exactly if its texts are parsed as the row. -/
theorem ItemOf.rowReads_iff (h : ItemOf texts w) (hts : ∀ t ∈ texts, AnyText t)
    (hcommas : ∀ t ∈ texts, Delimits comma t 0) (hlen : types.length = texts.length) :
    RowReads types w row ↔ ParsesAs texts types row := by
  have hcount : types.length = countDelimiter w comma + 1 := by
    rw [(h.delimits (Or.inl rfl) hcommas).countDelimiter, if_pos rfl, hlen]
    cases h <;> rfl
  rw [RowReads, hlen, h.valueTexts hts, ← hlen]
  constructor
  · rintro ⟨-, _, ⟨⟩, hrow⟩
    exact hrow
  · intro hrow
    exact ⟨hcount, texts, rfl, hrow⟩

/-! ### Bytes -/

theorem TextsTail.not_mem (h : TextsTail texts w) (hx : ¬IsSpace b) (hcomma : b ≠ comma)
    (hts : ∀ t ∈ texts, b ∉ t) : b ∉ w := by
  induction h with
  | nil => exact List.not_mem_nil
  | cons ha hb _ ih =>
    obtain ⟨ht, hts⟩ := List.forall_mem_cons.mp hts
    have hspaces : ∀ {s : Bytes}, Spaces s → b ∉ s := fun hs hmem => hx (hs _ hmem)
    simp [hspaces ha, hspaces hb, hcomma, ht, ih hts]

/-- A byte that is in no text and of no syntax is not in an item. -/
theorem ItemOf.not_mem (h : ItemOf texts w) (hx : ¬IsSpace b)
    (hb : b ≠ comma ∧ b ≠ openParen ∧ b ≠ closeParen) (hts : ∀ t ∈ texts, b ∉ t) : b ∉ w := by
  cases h with
  | bare => exact hts w List.mem_cons_self
  | tuple h =>
    obtain ⟨ht, hts⟩ := List.forall_mem_cons.mp hts
    simp [ht, h.not_mem hx hb.1 hts, hb.2.1, hb.2.2]

/-- An item does not end with a zero byte. -/
theorem ItemOf.last (h : ItemOf texts w) (hts : ∀ t ∈ texts, ∃ z y, t = z ++ [y] ∧ y ≠ 0) :
    ∃ z y, w = z ++ [y] ∧ y ≠ 0 := by
  cases h with
  | bare => exact hts w List.mem_cons_self
  | @tuple t ts w h => exact ⟨openParen :: (t ++ w), closeParen, by simp, by decide⟩

end Items

end SetQL
