import SetQL.Parser.Insertions
import SetQL.Parser.Items
import SetQL.Parser.ValueReadings

/-!
# Insertions read back what is written

The texts that insert rows into the universe, in the notation of the language: a row is an item of
the key, a colon and an item of the attributes, an item is a value or values in parentheses, and
there may be white space everywhere but next to the parentheses. The counted delimiters and the
values that are read stay in step, so the parser appends exactly the rows written.

## Main definitions

* `ItemText types values w`: the text is an item of the values
* `RowsText`: the text is rows with commas between them
* `InsertText u rows str`: the text inserts the rows into the universe

## Main results

* `ItemText.rowReads`: an item is read as its values
* `RowsText.read`: rows are read as they are written
* `parseUniverseInsert_rows`: an insertion into the universe appends the rows written
-/

namespace SetQL

/-- Further values of an item with white space around the commas before them. -/
inductive ValuesTail : List Bytes → List Bytes → Bytes → Prop
  | nil : ValuesTail [] [] []
  | cons {typeName types v values a b t w} (ha : Spaces a) (hb : Spaces b)
    (ht : WrittenValue typeName v t) (h : ValuesTail types values w) :
    ValuesTail (typeName :: types) (v :: values) (a ++ comma :: (b ++ (t ++ w)))

/-- The text of an item: a single value, or values in parentheses. -/
inductive ItemText : List Bytes → List Bytes → Bytes → Prop
  | bare {typeName v t} (ht : WrittenValue typeName v t) : ItemText [typeName] [v] t
  | tuple {typeName types v values t w} (ht : WrittenValue typeName v t)
    (h : ValuesTail types values w) :
    ItemText (typeName :: types) (v :: values) (openParen :: (t ++ (w ++ [closeParen])))

/-- The text of a row: an item of the key, a colon and an item of the attributes. -/
def RowText (keyTypes attributeTypes : List Bytes) (row : List Bytes × List Bytes) (w : Bytes) :
    Prop :=
  ∃ a k b c t d, Spaces a ∧ ItemText keyTypes row.1 k ∧ Spaces b ∧ Spaces c ∧
    ItemText attributeTypes row.2 t ∧ Spaces d ∧ w = a ++ (k ++ (b ++ colon :: (c ++ (t ++ d))))

/-- The text of rows with commas between them. -/
inductive RowsText (keyTypes attributeTypes : List Bytes) :
    List (List Bytes × List Bytes) → Bytes → Prop
  | single {row w} (h : RowText keyTypes attributeTypes row w) :
    RowsText keyTypes attributeTypes [row] w
  | cons {row rows w w'} (h : RowText keyTypes attributeTypes row w)
    (hrest : RowsText keyTypes attributeTypes rows w') :
    RowsText keyTypes attributeTypes (row :: rows) (w ++ comma :: w')

/-- The text `INSERT { rows } INTO name` for the rows and the name of the universe. -/
def InsertText (u : Universe) (rows : List (List Bytes × List Bytes)) (str : Bytes) : Prop :=
  ∃ a k b items c l d e, Spaces a ∧ Keyword (lit "INSERT") k ∧ Spaces b ∧
    RowsText u.keyDataTypeNames u.attributeDataTypeNames rows items ∧ Spaces c ∧
    Keyword (lit "INTO") l ∧ (d ≠ [] ∧ Spaces d) ∧ Spaces e ∧
    str = a ++ (k ++ (b ++ openBrace :: (items ++ closeBrace :: (c ++ (l ++ (d ++ (u.name ++ e)))))))

/-! ## Items -/

section Items

variable {typeName v t w : Bytes} {types values : List Bytes}

theorem isBareByte_of_digit {b : UInt8} (h : 48 ≤ b ∧ b ≤ 57) : IsBareByte b :=
  Or.inl (Or.inr (Or.inl h))

/-- The text of an integer is a bare value. -/
theorem isBareByte_of_integer {d : Bytes} (hd : IsDigits d) (hv : v = d ∨ v = chr '-' :: d) :
    v ≠ [] ∧ ∀ b ∈ v, IsBareByte b ∧ b ≠ backslash ∧ b ≠ semicolon := by
  have hdigit : ∀ {b : UInt8}, 48 ≤ b ∧ b ≤ 57 → IsBareByte b ∧ b ≠ backslash ∧ b ≠ semicolon := by
    intro b hb
    refine ⟨isBareByte_of_digit hb, ?_, ?_⟩ <;> rintro rfl <;> exact absurd hb (by decide)
  rcases hv with rfl | rfl
  · exact ⟨hd.1, fun b hb => hdigit (hd.2 b hb)⟩
  · refine ⟨List.cons_ne_nil _ _, List.forall_mem_cons.mpr ⟨by decide, fun b hb => hdigit (hd.2 b hb)⟩⟩

theorem WrittenValue.plainText (h : WrittenValue typeName v t) : PlainText t := by
  rcases h with ⟨-, ⟨hne, hq, hb, -⟩, rfl⟩ | ⟨-, ⟨d, hd, hv⟩, rfl⟩
  · exact .quoted hne hq hb
  · obtain ⟨hne, hall⟩ := isBareByte_of_integer hd hv
    exact .bare hne fun b hb => (hall b hb).1

/-- The text of a value adds no delimiters. -/
theorem WrittenValue.delimits {d : UInt8} (h : WrittenValue typeName v t) (hd : d = comma ∨ d = colon) :
    Delimits d t 0 := by
  rcases h with ⟨-, ⟨-, hq, hb, -⟩, rfl⟩ | ⟨-, ⟨x, hx, hv⟩, rfl⟩
  · exact delimits_quoted hq hb
  · refine delimits_of_forall fun b hb => ?_
    obtain ⟨hbare, hbackslash, -⟩ := (isBareByte_of_integer hx hv).2 b hb
    have hne := IsTokenStart.ne (Or.inl hbare)
    refine ⟨?_, hbackslash, ?_⟩
    · rintro rfl
      exact absurd hbare (by decide)
    · rcases hd with rfl | rfl
      · exact hne.2.1
      · exact hne.2.2.1

theorem WrittenValue.semicolon_not_mem (h : WrittenValue typeName v t) : semicolon ∉ t := by
  rcases h with ⟨-, ⟨-, -, -, hsemicolon⟩, rfl⟩ | ⟨-, ⟨x, hx, hv⟩, rfl⟩
  · simpa [show semicolon ≠ quote by decide] using hsemicolon
  · exact fun hmem => ((isBareByte_of_integer hx hv).2 _ hmem).2.2 rfl

theorem ValuesTail.plainTail (h : ValuesTail types values w) : PlainTail w := by
  induction h with
  | nil => exact .nil
  | cons ha hb ht _ ih => exact .cons ha hb ht.plainText ih

theorem ItemText.plainItem (h : ItemText types values w) : PlainItem w := by
  cases h with
  | bare ht => exact Or.inl ht.plainText
  | tuple ht h => exact Or.inr ⟨_, _, ht.plainText, h.plainTail, rfl⟩

/-- The further values of an item are texts of values. -/
theorem ValuesTail.written (h : ValuesTail types values w) :
    ∃ texts, Written WrittenValue types values texts ∧ TextsTail texts w := by
  induction h with
  | nil => exact ⟨[], .nil, .nil⟩
  | cons ha hb ht _ ih =>
    obtain ⟨texts, hvalues, htail⟩ := ih
    exact ⟨_, .cons ht hvalues, .cons ha hb htail⟩

/-- The values of an item are texts of values. -/
theorem ItemText.written (h : ItemText types values w) :
    ∃ texts, Written WrittenValue types values texts ∧ ItemOf texts w := by
  cases h with
  | bare ht => exact ⟨_, .cons ht .nil, .bare⟩
  | tuple ht h =>
    obtain ⟨texts, hvalues, htail⟩ := h.written
    exact ⟨_, .cons ht hvalues, .tuple htail⟩

/-- The texts of values are parsed as the values. -/
theorem parsesAs_of_written {texts : List Bytes} (h : Written WrittenValue types values texts) :
    ParsesAs texts types values := by
  induction h with
  | nil => exact .nil []
  | cons ht _ ih =>
    obtain ⟨ty, hty, hv⟩ := ht.valueOf
    exact .cons hty hv ih

/-- An item has no colon. -/
theorem ItemText.delimits (h : ItemText types values w) : Delimits colon w 0 := by
  obtain ⟨texts, hvalues, hitem⟩ := h.written
  exact hitem.delimits (Or.inr rfl) (hvalues.forall_texts fun _ _ _ ht => ht.delimits (Or.inr rfl))

/-- **An item is read as its values.** -/
theorem ItemText.rowReads (h : ItemText types values w) : RowReads types w values := by
  obtain ⟨texts, hvalues, hitem⟩ := h.written
  refine (hitem.rowReads_iff ?_ ?_ hvalues.length_eq.1).mpr (parsesAs_of_written hvalues)
  · exact hvalues.forall_texts fun _ _ _ ht => ht.plainText.anyText
  · exact hvalues.forall_texts fun _ _ _ ht => ht.delimits (Or.inl rfl)

theorem WrittenValue.last (h : WrittenValue typeName v t) : ∃ z y, t = z ++ [y] ∧ y ≠ 0 := by
  rcases h with ⟨-, -, rfl⟩ | ⟨-, ⟨d, hd, hv⟩, rfl⟩
  · exact ⟨quote :: _, quote, rfl, by decide⟩
  · obtain ⟨hne, hall⟩ := isBareByte_of_integer hd hv
    refine ⟨t.dropLast, t.getLast hne, (List.dropLast_append_getLast hne).symm, ?_⟩
    intro hzero
    have hbare := (hall _ (List.getLast_mem hne)).1
    rw [hzero] at hbare
    exact absurd hbare (by decide)

/-- An item does not end with a zero byte. -/
theorem ItemText.last (h : ItemText types values w) : ∃ z y, w = z ++ [y] ∧ y ≠ 0 := by
  obtain ⟨texts, hvalues, hitem⟩ := h.written
  exact hitem.last (hvalues.forall_texts fun _ _ _ ht => ht.last)

theorem ItemText.semicolon_not_mem (h : ItemText types values w) : semicolon ∉ w := by
  obtain ⟨texts, hvalues, hitem⟩ := h.written
  exact hitem.not_mem (by decide) (by decide)
    (hvalues.forall_texts fun _ _ _ ht => ht.semicolon_not_mem)

end Items

/-! ## Rows -/

section Rows

variable {keyTypes attributeTypes : List Bytes} {row : List Bytes × List Bytes}
  {rows : List (List Bytes × List Bytes)} {w x o : Bytes} {n : ℕ}

/-- **A row is read** from a cursor in front of it or of the comma before it, and the rest is read
from the end of the row. -/
theorem RowText.read (h : RowText keyTypes attributeTypes row w) (ho : o = [] ∨ o = [comma])
    (hx : Stops x) (hrest : UniverseRowsRead keyTypes attributeTypes n x rows) :
    UniverseRowsRead keyTypes attributeTypes (n + 1) (o ++ (w ++ x)) (row :: rows) := by
  obtain ⟨a, k, b, c, t, d, ha, hk, hb, hc, ht, hd, rfl⟩ := h
  have hcolon : Stops (colon :: (c ++ (t ++ (d ++ x)))) := stops_cons ⟨by decide, by decide⟩
  have hkeys := item_eq (l := o ++ a) ⟨o, a, ho, ha, rfl⟩ hk.plainItem.text hb hcolon
  have hattributes := item_eq (l := c) ⟨[], c, Or.inl rfl, hc, rfl⟩ ht.plainItem.text hd hx
  generalize hbehind : c ++ (t ++ (d ++ x)) = behind at hkeys hattributes hcolon
  have hcursor : o ++ ((a ++ (k ++ (b ++ colon :: (c ++ (t ++ d))))) ++ x) =
      ((o ++ a) ++ (k ++ b)) ++ colon :: behind := by
    rw [← hbehind]
    simp
  rw [show (o ++ a) ++ (k ++ (b ++ colon :: behind)) = ((o ++ a) ++ (k ++ b)) ++ colon :: behind by
    simp] at hkeys
  obtain ⟨z, y, hlast, hy⟩ : ∃ z y, (o ++ a) ++ (k ++ b) = z ++ [y] ∧ y ≠ 0 := by
    rcases List.eq_nil_or_concat b with rfl | ⟨b, y, rfl⟩
    · obtain ⟨z, y, rfl, hy⟩ := hk.last
      exact ⟨o ++ (a ++ z), y, by simp, hy⟩
    · refine ⟨o ++ (a ++ (k ++ b)), y, by simp, ?_⟩
      rintro rfl
      exact absurd (hb 0 (by simp)) (by decide)
  have hdrop : (((o ++ a) ++ (k ++ b)) ++ colon :: behind).drop (((o ++ a) ++ (k ++ b)).length + 1) =
      behind := by
    rw [← List.drop_drop, List.drop_left]
    rfl
  have hend : behind.drop (c ++ (t ++ d)).length = x := by
    rw [← hbehind, show c ++ (t ++ (d ++ x)) = (c ++ (t ++ d)) ++ x by simp, List.drop_left]
  rw [hcursor]
  refine .cons hkeys ?_ ?_ hk.rowReads (by rw [hdrop]; exact hattributes) ht.rowReads ?_
  · rw [hlast, List.append_assoc, List.length_append, List.length_singleton, Nat.add_sub_cancel,
      List.getElem?_append_right le_rfl, Nat.sub_self]
    exact hy
  · rw [List.getElem?_append_right le_rfl, Nat.sub_self]
    rfl
  · rw [hdrop, hend]
    exact hrest

/-- **Rows are read as they are written.** -/
theorem RowsText.read (h : RowsText keyTypes attributeTypes rows w) (ho : o = [] ∨ o = [comma]) :
    UniverseRowsRead keyTypes attributeTypes rows.length (o ++ w) rows := by
  induction h generalizing o with
  | single h =>
    have := h.read ho (x := []) nofun (.nil [])
    rwa [List.append_nil] at this
  | cons h _ ih => exact h.read ho (stops_comma _) (ih (Or.inr rfl))

/-- A row has one colon. -/
theorem RowText.delimits (h : RowText keyTypes attributeTypes row w) : Delimits colon w 1 := by
  obtain ⟨a, k, b, c, t, d, ha, hk, hb, hc, ht, hd, rfl⟩ := h
  have hspace : ¬IsSpace colon := by decide
  have := (delimits_spaces hspace ha).append (hk.delimits.append ((delimits_spaces hspace hb).append
    ((delimits_byte (d := colon) (b := colon) (by decide) (by decide)).append
      ((delimits_spaces hspace hc).append (ht.delimits.append (delimits_spaces hspace hd))))))
  simpa using this

/-- There are as many colons as rows. -/
theorem RowsText.delimits (h : RowsText keyTypes attributeTypes rows w) : Delimits colon w rows.length := by
  induction h with
  | single h => exact h.delimits
  | cons h _ ih =>
    have := h.delimits.append ((delimits_byte (d := colon) (b := comma) (by decide) (by decide)).append ih)
    simpa [show comma ≠ colon by decide, Nat.add_comm] using this

/-- Rows have no semicolon, and there is a byte in them. -/
theorem RowsText.content (h : RowsText keyTypes attributeTypes rows w) : w ≠ [] ∧ semicolon ∉ w := by
  have hx := isPunctuation_semicolon
  have hrow : ∀ {row w}, RowText keyTypes attributeTypes row w → w ≠ [] ∧ semicolon ∉ w := by
    rintro row w ⟨a, k, b, c, t, d, ha, hk, hb, hc, ht, hd, rfl⟩
    simp [ha.not_mem hx, hk.semicolon_not_mem, hb.not_mem hx, hc.not_mem hx, ht.semicolon_not_mem,
      hd.not_mem hx, show semicolon ≠ colon by decide]
  induction h with
  | single h => exact hrow h
  | cons h _ ih => simp [(hrow h).2, ih.2, show semicolon ≠ comma by decide]

end Rows

/-! ## Insertions -/

section Insertions

variable {u : Universe} {rows : List (List Bytes × List Bytes)} {str : Bytes}

/-- **An insertion into the universe appends the rows written**, and keeps those before. -/
theorem parseUniverseInsert_rows (hu : u.Declared) (hname : IsName u.name)
    (hlen : u.keyValues.length = u.attributeValues.length) (h : InsertText u rows str) :
    parseUniverseInsert parserRegex u str =
      .ok (u.withRows (u.keyValues ++ rows.map fun row => some row.1)
        (u.attributeValues ++ rows.map fun row => some row.2), none) := by
  obtain ⟨a, k, b, items, c, l, d, e, ha, hk, hb, hrows, hc, hl, hd, he, rfl⟩ := h
  have hins := insertion_eq_of_shape
    ⟨a, k, b, c, l, d, e, ha, hk, hb, hrows.content, hc, hl, hd, hname, he, rfl⟩
  refine (parseUniverseInsert_eq_ok hu).mpr ⟨items, hins, hlen, rows, ?_, rfl⟩
  rw [hrows.delimits.countDelimiter]
  exact hrows.read (Or.inl rfl)

/-- A universe with a key column and two attribute columns, and a row. -/
def animalUniverse : Universe :=
  { createEmptyUniverse with
    name := lit "Animal"
    keyDataNames := [lit "name"]
    keyDataTypeNames := [lit "STRING"]
    attributeDataNames := [lit "legs", lit "class"]
    attributeDataTypeNames := [lit "INTEGER", lit "string"]
    keyValues := [some [lit "Crow"]]
    attributeValues := [some [lit "2", lit "bird"]] }

theorem parseUniverseInsert_rows_animal :
    parseUniverseInsert parserRegex animalUniverse
      (lit "INSERT \x7b\"\x7d INTO x\" : (-4 ,\"a:b\")\x7d INTO Animal") =
      .ok (animalUniverse.withRows [some [lit "Crow"], some [lit "\x7d INTO x"]]
        [some [lit "2", lit "bird"], some [lit "-4", lit "a:b"]], none) := by
  have hspace : Spaces (lit " ") := by
    unfold Spaces
    decide +kernel
  have hkeyword : Keyword (lit "INSERT") (lit "INSERT") ∧ Keyword (lit "INTO") (lit "INTO") := by
    unfold Keyword
    decide +kernel
  have hkey : ItemText [lit "STRING"] [lit "\x7d INTO x"] (lit "\"\x7d INTO x\"") :=
    .bare (Or.inl ⟨by decide +kernel, by decide +kernel, by decide +kernel⟩)
  have hattributes : ItemText [lit "INTEGER", lit "string"] [lit "-4", lit "a:b"]
      (lit "(-4 ,\"a:b\")") := by
    refine .tuple (t := lit "-4") (w := lit " ,\"a:b\"") (Or.inr ⟨by decide +kernel,
      ⟨lit "4", ⟨by decide +kernel, by decide +kernel⟩, Or.inr (by decide +kernel)⟩, rfl⟩) ?_
    exact .cons (a := lit " ") (b := []) (t := lit "\"a:b\"") (w := []) hspace spaces_nil
      (Or.inl ⟨by decide +kernel, by decide +kernel, by decide +kernel⟩) .nil
  have hinsert : InsertText animalUniverse [([lit "\x7d INTO x"], [lit "-4", lit "a:b"])]
      (lit "INSERT \x7b\"\x7d INTO x\" : (-4 ,\"a:b\")\x7d INTO Animal") :=
    ⟨[], lit "INSERT", lit " ", _, lit " ", lit "INTO", lit " ", [], spaces_nil, hkeyword.1,
      hspace, .single ⟨[], _, lit " ", lit " ", _, [], spaces_nil, hkey, hspace, hspace, hattributes,
        spaces_nil, rfl⟩, hspace, hkeyword.2, ⟨by decide +kernel, hspace⟩, spaces_nil,
      by decide +kernel⟩
  have hname : IsName animalUniverse.name :=
    ⟨by decide +kernel, by unfold IsNameByte IsLetter; decide +kernel⟩
  exact parseUniverseInsert_rows ⟨rfl, rfl⟩ hname rfl hinsert

end Insertions

end SetQL
