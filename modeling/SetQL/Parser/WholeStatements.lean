import SetQL.Parser.Accepted
import SetQL.Parser.SetRoundTrip

/-!
# Whole statements

The expressions of definitions and of insertions are not anchored, and the rows of an insertion are
read one after the other until as many are read as delimiters are counted. So a parser may skip
bytes in front of a statement and behind it, in front of a row, within a row and behind the last
one. A text that is accepted is a statement as a whole, and its braces hold nothing but the rows that
are stored, exactly if none of this happens.

## Main definitions

* `ItemStored types row k`: the text is an item of the stored values, and of nothing else
* `CommaSeparated P rows w`: the text is rows with commas between them
* `AcceptsOnlyWhole u t`: a text that a parser accepts is a statement as a whole
* `Spans p t`: a match of the expression is the whole text
* `NothingSkipped u t`: no byte of the text is skipped where a parser accepts it

## Main results

* `RowReads.itemStored`: an item that is read is one of the stored values
* `CommaSeparated.rowsWhole`, `RowsWhole.written`: rows that are read are all of the text
* `acceptsOnlyWhole_iff`: the texts that are accepted as a whole
-/

namespace SetQL

/-! ## Items -/

/-- The text is the value: of a string type in quotes, of another type digits with a sign or none. -/
def StoredText (typeName v t : Bytes) : Prop :=
  (typeName2dataType typeName = some .string ∧ (v ≠ [] ∧ BodyText v) ∧ t = quote :: (v ++ [quote])) ∨
    ((typeName2dataType typeName = some .integer ∨ typeName2dataType typeName = some .float) ∧
      NumberText [] v t)

/-- The text is an item of the values. -/
def ItemStored (types row : List Bytes) (k : Bytes) : Prop :=
  ∃ texts, Written StoredText types row texts ∧ ItemOf texts k

/-- A sign, perhaps, and digits. -/
def IsNumberText (t : Bytes) : Prop :=
  ∃ o d, (o = [] ∨ o = [chr '+'] ∨ o = [chr '-']) ∧ IsDigits d ∧ t = o ++ d

/-- An item holds as many values as there are types, and those of no string type are numbers. -/
def ItemWhole (types : List Bytes) (k : Bytes) : Prop :=
  ∃ texts, ItemOf texts k ∧ (∀ t ∈ texts, AnyText t) ∧ texts.length = types.length ∧
    ∀ p ∈ types.zip texts, typeName2dataType p.1 ≠ some .string → IsNumberText p.2

section Items

variable {typeName v t k : Bytes} {types row texts : List Bytes} {ty : DataType}

theorem isNumberText_iff : IsNumberText t ↔ ∃ v, NumberText [] v t := by
  constructor
  · rintro ⟨o, d, ho, hd, rfl⟩
    rcases ho with rfl | rfl | rfl
    · exact ⟨d, d, hd, Or.inr ⟨(List.append_nil d).symm, Or.inl rfl⟩⟩
    · exact ⟨d, d, hd, Or.inr ⟨(List.append_nil d).symm, Or.inr rfl⟩⟩
    · exact ⟨chr '-' :: d, d, hd, Or.inl ⟨by rw [List.append_nil], rfl⟩⟩
  · rintro ⟨v, d, hd, ⟨rfl, rfl⟩ | ⟨rfl, rfl | rfl⟩⟩
    · exact ⟨[chr '-'], d, Or.inr (Or.inr rfl), hd, by simp⟩
    · exact ⟨[], d, Or.inl rfl, hd, by simp⟩
    · exact ⟨[chr '+'], d, Or.inr (Or.inl rfl), hd, by simp⟩

theorem StoredText.anyText (h : StoredText typeName v t) : AnyText t := by
  rcases h with ⟨-, ⟨hne, hv⟩, rfl⟩ | ⟨-, h⟩
  · exact .quoted hne hv
  · obtain ⟨hne, hbytes, -⟩ := h.bytes (Or.inl rfl)
    exact .bare hne fun b hb => (hbytes b hb).ne.1

/-- **A value that is read is all of its text**, unless it is a number with more in it. -/
theorem storedText_of_valueOf (ht : AnyText t) (hty : typeName2dataType typeName = some ty)
    (hv : valueOf t ty = some v)
    (hnumber : typeName2dataType typeName ≠ some .string → IsNumberText t) :
    StoredText typeName v t := by
  have hdigits : ty ≠ .string → integerIn t = some v → NumberText [] v t := by
    intro hne hread
    obtain ⟨v', hv'⟩ := isNumberText_iff.mp (hnumber (by simpa [hty] using hne))
    obtain rfl := Option.some.inj ((integerIn_of_numberText hv').symm.trans hread)
    exact hv'
  cases ty with
  | string =>
    refine Or.inl ⟨hty, ?_⟩
    cases ht with
    | bare hne h =>
      have hquote : quote ∉ t := fun hmem => absurd (h _ hmem) (by decide)
      exact nomatch (found_str1_eq_none hquote).symm.trans hv
    | quoted hne h =>
      obtain rfl := Option.some.inj ((h.found_str1 hne).symm.trans hv)
      exact ⟨⟨hne, h⟩, rfl⟩
  | integer => exact Or.inr ⟨Or.inl hty, hdigits nofun hv⟩
  | float => exact Or.inr ⟨Or.inr hty, hdigits nofun hv⟩

/-- The values that are parsed from texts are the texts. -/
theorem ParsesAs.stored (h : ParsesAs texts types row) (hts : ∀ t ∈ texts, AnyText t)
    (hlen : texts.length = types.length)
    (hnumbers : ∀ p ∈ types.zip texts, typeName2dataType p.1 ≠ some .string → IsNumberText p.2) :
    Written StoredText types row texts := by
  induction h with
  | nil types =>
    obtain rfl := List.length_eq_zero_iff.mp hlen.symm
    exact .nil
  | cons hty hv _ ih =>
    obtain ⟨ht, hts⟩ := List.forall_mem_cons.mp hts
    rw [List.zip_cons_cons] at hnumbers
    obtain ⟨hnumber, hnumbers⟩ := List.forall_mem_cons.mp hnumbers
    exact .cons (storedText_of_valueOf ht hty hv hnumber) (ih hts (Nat.succ.inj hlen) hnumbers)

/-- The texts of stored values that are no strings are numbers. -/
theorem isNumberText_of_written (h : Written StoredText types row texts) :
    ∀ p ∈ types.zip texts, typeName2dataType p.1 ≠ some .string → IsNumberText p.2 := by
  induction h with
  | nil => exact nofun
  | cons ht _ ih =>
    rw [List.zip_cons_cons]
    refine List.forall_mem_cons.mpr ⟨fun hne => ?_, ih⟩
    rcases ht with ⟨hty, -⟩ | ⟨-, h⟩
    · exact absurd hty hne
    · exact isNumberText_iff.mpr ⟨_, h⟩

theorem ItemStored.itemWhole (h : ItemStored types row k) : ItemWhole types k := by
  obtain ⟨texts, hrow, hitem⟩ := h
  exact ⟨texts, hitem, hrow.forall_texts fun _ _ _ ht => ht.anyText, hrow.length_eq.1.symm,
    isNumberText_of_written hrow⟩

theorem ItemStored.text (h : ItemStored types row k) : AnyText k ∨ TupleText k := by
  obtain ⟨texts, hitem, hts, -⟩ := h.itemWhole
  exact hitem.text hts

/-- **An item that is read is one of the stored values** if it holds nothing else. -/
theorem RowReads.itemStored (h : RowReads types k row) (hwhole : ItemWhole types k) :
    ItemStored types row k := by
  obtain ⟨-, texts', htexts', hrow⟩ := h
  obtain ⟨texts, hitem, hts, hlen, hnumbers⟩ := hwhole
  have hread := hitem.valueTexts hts
  rw [hlen] at hread
  obtain rfl := Option.some.inj (hread.symm.trans htexts')
  exact ⟨texts, hrow.stored hts hlen hnumbers, hitem⟩

end Items

/-! ## Rows with commas between them -/

section Separated

variable {α : Type}

/-- Further rows, each with a comma in front. -/
inductive FurtherRows (P : α → Bytes → Prop) : List α → Bytes → Prop
  | nil : FurtherRows P [] []
  | cons {row rows w v} (h : P row w) (hrest : FurtherRows P rows v) :
    FurtherRows P (row :: rows) (comma :: (w ++ v))

/-- Rows with commas between them, or white space. -/
inductive CommaSeparated (P : α → Bytes → Prop) : List α → Bytes → Prop
  | empty {w} (h : Spaces w) : CommaSeparated P [] w
  | rows {row rows w v} (h : P row w) (hrest : FurtherRows P rows v) :
    CommaSeparated P (row :: rows) (w ++ v)

/-- The next `n` rows from a cursor. -/
inductive RowsRead (Reads : Bytes → α → Bytes → Prop) : ℕ → Bytes → List α → Prop
  | nil (cursor) : RowsRead Reads 0 cursor []
  | cons {n cursor row rest rows} (h : Reads cursor row rest) (hrest : RowsRead Reads n rest rows) :
    RowsRead Reads (n + 1) cursor (row :: rows)

/-- Nothing is skipped over the next `n` rows, and nothing is left behind them. The first row has no
comma in front and the others have one. -/
inductive RowsWhole (Whole : Bytes → Bytes → Prop) : ℕ → Bool → Bytes → Prop
  | empty {w} (h : Spaces w) : RowsWhole Whole 0 true w
  | nil : RowsWhole Whole 0 false []
  | cons {n first cursor rest} (hcomma : cursor.head? = some comma ↔ first = false)
    (h : Whole cursor rest) (hrest : RowsWhole Whole n false rest) :
    RowsWhole Whole (n + 1) first cursor

theorem RowsRead.length_eq {Reads : Bytes → α → Bytes → Prop} {n : ℕ} {cursor : Bytes} {rows : List α}
    (h : RowsRead Reads n cursor rows) : rows.length = n := by
  induction h with
  | nil => rfl
  | cons _ _ ih => rw [List.length_cons, ih]

variable {P : α → Bytes → Prop} {Reads : Bytes → α → Bytes → Prop} {Whole : Bytes → Bytes → Prop}
  {rows : List α} {w cursor : Bytes} {n : ℕ}

/-- Nothing is skipped over further rows. -/
theorem FurtherRows.rowsWhole (h : FurtherRows P rows w)
    (hrow : ∀ row w o v, P row w → o = [] ∨ o = [comma] → Stops v →
      Whole (o ++ (w ++ v)) v ∧ (w ++ v).head? ≠ some comma) :
    Stops w ∧ RowsWhole Whole rows.length false w := by
  induction h with
  | nil => exact ⟨nofun, .nil⟩
  | cons h _ ih =>
    refine ⟨stops_comma _, .cons (iff_of_true rfl rfl) ?_ ih.2⟩
    exact (hrow _ _ [comma] _ h (Or.inr rfl) ih.1).1

/-- **Nothing is skipped over rows with commas between them.** -/
theorem CommaSeparated.rowsWhole (h : CommaSeparated P rows w)
    (hrow : ∀ row w o v, P row w → o = [] ∨ o = [comma] → Stops v →
      Whole (o ++ (w ++ v)) v ∧ (w ++ v).head? ≠ some comma) :
    RowsWhole Whole rows.length true w := by
  cases h with
  | empty h => exact .empty h
  | rows h hrest =>
    obtain ⟨hstops, hwhole⟩ := hrest.rowsWhole hrow
    obtain ⟨hfirst, hcomma⟩ := hrow _ _ [] _ h (Or.inl rfl) hstops
    exact .cons (iff_of_false hcomma nofun) hfirst hwhole

/-- Rows over which nothing is skipped are further rows, or rows if the first one has no comma. -/
theorem RowsWhole.written {first : Bool} (h : RowsWhole Whole n first cursor)
    (hread : RowsRead Reads n cursor rows)
    (hrow : ∀ cursor row rest rest', Reads cursor row rest → Whole cursor rest' → rest' = rest ∧
      ∃ o w, (o = [] ∨ o = [comma]) ∧ cursor = o ++ (w ++ rest) ∧ P row w ∧
        (w ++ rest).head? ≠ some comma) :
    (first = true → CommaSeparated P rows cursor) ∧ (first = false → FurtherRows P rows cursor) := by
  induction hread generalizing first with
  | nil =>
    cases h with
    | empty h => exact ⟨fun _ => .empty h, nofun⟩
    | nil => exact ⟨nofun, fun _ => .nil⟩
  | cons hreads _ ih =>
    cases h with
    | cons hcomma hwhole hrest =>
      obtain ⟨rfl, o, w, ho, rfl, hw, hhead⟩ := hrow _ _ _ _ hreads hwhole
      have hfurther := (ih hrest).2 rfl
      rcases ho with rfl | rfl
      · rw [List.nil_append] at hcomma ⊢
        refine ⟨fun _ => .rows hw hfurther, fun hfirst => ?_⟩
        exact absurd (hcomma.mpr hfirst) hhead
      · rw [List.singleton_append] at hcomma ⊢
        refine ⟨fun hfirst => ?_, fun _ => .cons hw hfurther⟩
        exact absurd (hcomma.mp rfl) (by simp [hfirst])

end Separated

/-! ## The rows of insertions -/

/-- The text is a row of the universe. -/
def UniverseRowStored (keyTypes attributeTypes : List Bytes) (row : List Bytes × List Bytes)
    (w : Bytes) : Prop :=
  ∃ a k b c t d, Spaces a ∧ ItemStored keyTypes row.1 k ∧ Spaces b ∧ Spaces c ∧
    ItemStored attributeTypes row.2 t ∧ Spaces d ∧ w = a ++ (k ++ (b ++ colon :: (c ++ (t ++ d))))

/-- The text is a row of a set. -/
def SetRowStored (keyTypes row : List Bytes) (w : Bytes) : Prop :=
  ∃ a k b, Spaces a ∧ ItemStored keyTypes row k ∧ Spaces b ∧ w = a ++ (k ++ b)

/-- The row of the universe at a cursor, and the text behind it. -/
def UniverseRowRead (keyTypes attributeTypes : List Bytes) (cursor : Bytes)
    (row : List Bytes × List Bytes) (rest : Bytes) : Prop :=
  ∃ k offset t offset', item cursor = some (k, offset) ∧ cursor[offset]? = some colon ∧
    RowReads keyTypes k row.1 ∧ item (cursor.drop (offset + 1)) = some (t, offset') ∧
    RowReads attributeTypes t row.2 ∧ rest = (cursor.drop (offset + 1)).drop offset'

/-- The row of a set at a cursor, and the text behind it. -/
def SetRowRead (keyTypes : List Bytes) (cursor : Bytes) (row : List Bytes) (rest : Bytes) : Prop :=
  ∃ k offset, item cursor = some (k, offset) ∧ RowReads keyTypes k row ∧ rest = cursor.drop offset

/-- Nothing is skipped within the row of the universe at a cursor. -/
def UniverseRowWhole (keyTypes attributeTypes : List Bytes) (cursor rest : Bytes) : Prop :=
  ∃ k offset t offset', item cursor = some (k, offset) ∧ ItemWhole keyTypes k ∧
    item (cursor.drop (offset + 1)) = some (t, offset') ∧
    (cursor.drop (offset + 1)).head? ≠ some comma ∧ ItemWhole attributeTypes t ∧
    rest = (cursor.drop (offset + 1)).drop offset'

/-- Nothing is skipped within the row of a set at a cursor. -/
def SetRowWhole (keyTypes : List Bytes) (cursor rest : Bytes) : Prop :=
  ∃ k offset, item cursor = some (k, offset) ∧ ItemWhole keyTypes k ∧ rest = cursor.drop offset

section InsertedRows

variable {keyTypes attributeTypes row : List Bytes} {cursor rest rest' o w v a k x : Bytes}
  {offset n : ℕ} {pair : List Bytes × List Bytes}

/-- The item at a cursor is in front of the text behind it, with white space around it and perhaps a
comma in front. -/
theorem exists_of_item (h : item cursor = some (k, offset)) : ∃ o a s,
    (o = [] ∨ o = [comma]) ∧ Spaces a ∧ (AnyText k ∨ TupleText k) ∧ Spaces s ∧
      cursor = o ++ (a ++ (k ++ (s ++ cursor.drop offset))) := by
  obtain ⟨m, hm, h⟩ := Option.bind_eq_some_iff.mp h
  obtain ⟨part, hpart, h⟩ := Option.bind_eq_some_iff.mp h
  obtain ⟨rfl, rfl⟩ := Prod.mk.inj (Option.some.inj h)
  obtain ⟨pre, w, post, hcursor, hpre, hstop, hparse⟩ := exists_parse_of_regexec hm
  have hstart : m.start = 0 := (regexec_eq_some hm).1 rfl
  rw [hstart] at hpre hstop
  obtain rfl := List.length_eq_zero_iff.mp hpre
  obtain ⟨l, t, s, c, rfl, ⟨o, a, ho, ha, rfl⟩, ht, hs, hcs⟩ := hparse.item
  have hone : m.group 1 = some ((o ++ a).length, (o ++ a).length + t.length) := by
    rw [RegMatch.group, if_neg (by decide), hcs]
    simp
  obtain rfl := Option.some.inj (hpart.symm.trans hone)
  rw [Nat.sub_zero] at hstop
  have hdrop : cursor.drop m.stop = post := by
    rw [hcursor, List.nil_append, List.drop_left' hstop]
  have hcursor : cursor = (o ++ a) ++ (t ++ (s ++ post)) := by
    rw [hcursor]
    simp
  have hslice : slice cursor ((o ++ a).length, (o ++ a).length + t.length) = t := by
    rw [hcursor, slice_append]
  rw [hslice, hdrop]
  exact ⟨o, a, s, ho, ha, ht, hs, by rw [hcursor, List.append_assoc]⟩

/-- An item does not start with a comma. -/
theorem head_item_ne_comma (ha : Spaces a) (hk : AnyText k ∨ TupleText k) :
    (a ++ (k ++ x)).head? ≠ some comma := by
  intro hhead
  cases a with
  | nil => exact (not_isSpace_of_itemStart (head_of_itemText hk x _ hhead)).2.1 rfl
  | cons b a =>
    obtain rfl : b = comma := Option.some.inj hhead
    exact absurd (ha comma List.mem_cons_self) (by decide)

/-- An item in front of a text that ends it is read up to this text. -/
theorem exists_offset (ho : o = [] ∨ o = [comma]) (ha : Spaces a) (hk : AnyText k ∨ TupleText k)
    {s : Bytes} (hs : Spaces s) (hx : Stops x) : ∃ offset,
      item (o ++ (a ++ (k ++ (s ++ x)))) = some (k, offset) ∧
      (o ++ (a ++ (k ++ (s ++ x)))).drop offset = x := by
  have hitem := item_eq (l := o ++ a) ⟨o, a, ho, ha, rfl⟩ hk hs hx
  rw [List.append_assoc] at hitem
  refine ⟨_, hitem, ?_⟩
  have hsplit : o ++ (a ++ (k ++ (s ++ x))) = ((o ++ a) ++ (k ++ s)) ++ x := by simp
  rw [hsplit, List.drop_left]

/-- **Nothing is skipped within a row of the universe.** -/
theorem UniverseRowStored.whole (h : UniverseRowStored keyTypes attributeTypes pair w)
    (ho : o = [] ∨ o = [comma]) (hv : Stops v) :
    UniverseRowWhole keyTypes attributeTypes (o ++ (w ++ v)) v ∧ (w ++ v).head? ≠ some comma := by
  obtain ⟨a, k, b, c, t, d, ha, hk, hb, hc, ht, hd, rfl⟩ := h
  have hsplit : (a ++ (k ++ (b ++ colon :: (c ++ (t ++ d))))) ++ v =
      a ++ (k ++ (b ++ colon :: (c ++ (t ++ (d ++ v))))) := by simp
  rw [hsplit]
  refine ⟨?_, head_item_ne_comma ha hk.text⟩
  obtain ⟨offset, hkeys, hcolon⟩ := exists_offset ho ha hk.text hb
    (stops_cons (b := colon) (x := c ++ (t ++ (d ++ v))) ⟨by decide, by decide⟩)
  obtain ⟨offset', hattributes, hrest⟩ := exists_offset (o := []) (Or.inl rfl) hc ht.text hd hv
  rw [List.nil_append] at hattributes hrest
  have hbehind : (o ++ (a ++ (k ++ (b ++ colon :: (c ++ (t ++ (d ++ v))))))).drop (offset + 1) =
      c ++ (t ++ (d ++ v)) := by
    rw [← List.drop_drop, hcolon]
    rfl
  refine ⟨k, offset, t, offset', hkeys, hk.itemWhole, ?_, ?_, ht.itemWhole, ?_⟩
  · rw [hbehind]
    exact hattributes
  · rw [hbehind]
    exact head_item_ne_comma hc ht.text
  · rw [hbehind, hrest]

/-- **A row of the universe that is read is all of its text** if nothing is skipped within it. -/
theorem UniverseRowRead.stored (h : UniverseRowRead keyTypes attributeTypes cursor pair rest)
    (hwhole : UniverseRowWhole keyTypes attributeTypes cursor rest') : rest' = rest ∧
      ∃ o w, (o = [] ∨ o = [comma]) ∧ cursor = o ++ (w ++ rest) ∧
        UniverseRowStored keyTypes attributeTypes pair w ∧ (w ++ rest).head? ≠ some comma := by
  obtain ⟨k, offset, t, offset', hkeys, hcolon, hkeyRow, hattributes, hattributeRow, rfl⟩ := h
  obtain ⟨k₁, offset₁, t₁, offset₁', hkeys₁, hk, hattributes₁, hcomma, ht, rfl⟩ := hwhole
  obtain ⟨rfl, rfl⟩ := Prod.mk.inj (Option.some.inj (hkeys.symm.trans hkeys₁))
  obtain ⟨rfl, rfl⟩ := Prod.mk.inj (Option.some.inj (hattributes.symm.trans hattributes₁))
  refine ⟨rfl, ?_⟩
  obtain ⟨o, a, b, ho, ha, hkItem, hb, hcursor⟩ := exists_of_item hkeys
  obtain ⟨o', c, d, ho', hc, htItem, hd, hbehind⟩ := exists_of_item hattributes
  obtain rfl : o' = [] := by
    apply ho'.resolve_right
    rintro rfl
    exact hcomma (by rw [hbehind]; rfl)
  rw [List.nil_append] at hbehind
  have hdrop : cursor.drop offset = colon :: cursor.drop (offset + 1) :=
    List.drop_eq_getElem?_toList_append.trans (by rw [hcolon]; rfl)
  generalize (cursor.drop (offset + 1)).drop offset' = rest at hbehind ⊢
  rw [hdrop, hbehind] at hcursor
  refine ⟨o, a ++ (k ++ (b ++ colon :: (c ++ (t ++ d)))), ho, ?_,
    ⟨a, k, b, c, t, d, ha, hkeyRow.itemStored hk, hb, hc, hattributeRow.itemStored ht, hd, rfl⟩, ?_⟩
  · rw [hcursor]
    simp
  · rw [List.append_assoc, List.append_assoc]
    exact head_item_ne_comma ha hkItem

theorem SetRowStored.whole (h : SetRowStored keyTypes row w) (ho : o = [] ∨ o = [comma])
    (hv : Stops v) :
    SetRowWhole keyTypes (o ++ (w ++ v)) v ∧ (w ++ v).head? ≠ some comma := by
  obtain ⟨a, k, b, ha, hk, hb, rfl⟩ := h
  rw [List.append_assoc, List.append_assoc]
  obtain ⟨offset, hkeys, hrest⟩ := exists_offset ho ha hk.text hb hv
  exact ⟨⟨k, offset, hkeys, hk.itemWhole, hrest.symm⟩, head_item_ne_comma ha hk.text⟩

theorem SetRowRead.stored (h : SetRowRead keyTypes cursor row rest)
    (hwhole : SetRowWhole keyTypes cursor rest') : rest' = rest ∧
      ∃ o w, (o = [] ∨ o = [comma]) ∧ cursor = o ++ (w ++ rest) ∧
        SetRowStored keyTypes row w ∧ (w ++ rest).head? ≠ some comma := by
  obtain ⟨k, offset, hkeys, hkeyRow, rfl⟩ := h
  obtain ⟨k₁, offset₁, hkeys₁, hk, rfl⟩ := hwhole
  obtain ⟨rfl, rfl⟩ := Prod.mk.inj (Option.some.inj (hkeys.symm.trans hkeys₁))
  refine ⟨rfl, ?_⟩
  obtain ⟨o, a, b, ho, ha, hkItem, hb, hcursor⟩ := exists_of_item hkeys
  refine ⟨o, a ++ (k ++ b), ho, ?_, ⟨a, k, b, ha, hkeyRow.itemStored hk, hb, rfl⟩, ?_⟩
  · conv_lhs => rw [hcursor]
    simp
  · rw [List.append_assoc, List.append_assoc]
    exact head_item_ne_comma ha hkItem

theorem UniverseRowsRead.rowsRead {rows : List (List Bytes × List Bytes)}
    (h : UniverseRowsRead keyTypes attributeTypes n cursor rows) :
    RowsRead (UniverseRowRead keyTypes attributeTypes) n cursor rows := by
  induction h with
  | nil cursor => exact .nil cursor
  | cons hkeys _ hcolon hkeyRow hattributes hattributeRow _ ih =>
    exact .cons ⟨_, _, _, _, hkeys, hcolon, hkeyRow, hattributes, hattributeRow, rfl⟩ ih

theorem SetRowsRead.rowsRead {rows : List (List Bytes)} (h : SetRowsRead keyTypes n cursor rows) :
    RowsRead (SetRowRead keyTypes) n cursor rows := by
  induction h with
  | nil cursor => exact .nil cursor
  | cons hkeys hkeyRow _ ih => exact .cons ⟨_, _, hkeys, hkeyRow, rfl⟩ ih

end InsertedRows

/-! ## Statements -/

/-- If the expression is found in the text, its match is the whole text. -/
def Spans (p : Pattern) (t : Bytes) : Prop :=
  ∀ m, regexec p t = some m → m.start = 0 ∧ m.stop = t.length

section Statements

variable {p : Pattern} {u u' : Universe} {t pre w post cursor items name columns : Bytes}
  {cs : List Capture} {m : RegMatch} {n i : ℕ}

/-- What an expression matches does not depend on the offset. -/
theorem Parse.exists_at {r : Regex} (h : Parse r i w cs) (j : ℕ) : ∃ cs', Parse r j w cs' := by
  have hlens : w.length ∈ r.lens w :=
    (mem_lens_iff (i := i)).mpr ⟨le_rfl, cs, by rwa [List.take_length]⟩
  obtain ⟨-, cs', hcs'⟩ := (mem_lens_iff (i := j)).mp hlens
  rw [List.take_length] at hcs'
  exact ⟨cs', hcs'⟩

theorem spans_of_parse (heol : p.eol = false) (h : Parse p.body 0 t cs) : Spans p t := by
  obtain ⟨m, w, rest, hm, hstart, hstop, heq, hlen, -⟩ := regexec_of_parse [] heol h
  rw [List.append_nil] at hm heq
  intro m' hm'
  obtain rfl := Option.some.inj (hm.symm.trans hm')
  have := congrArg List.length heq
  rw [List.length_append] at this
  exact ⟨hstart, by omega⟩

/-- The part of a text that is matched is the text. -/
theorem Spans.eq (h : Spans p t) (hm : regexec p t = some m) (ht : t = pre ++ (w ++ post))
    (hpre : pre.length = m.start) (hw : w.length = m.stop - m.start) : w = t := by
  obtain ⟨hstart, hstop⟩ := h m hm
  have hlen := congrArg List.length ht
  simp only [List.length_append] at hlen
  obtain rfl : pre = [] := List.length_eq_zero_iff.mp (by omega)
  obtain rfl : post = [] := List.length_eq_zero_iff.mp (by omega)
  rw [ht, List.nil_append, List.append_nil]

/-- **An insertion is the whole text** exactly if no match is a part of it. -/
theorem insertShape_iff (h : insertion t = some (items, name)) :
    InsertShape t items name ↔ Spans parserRegex.universeInsert t := by
  constructor
  · rintro ⟨a, k, b, c, l, d, e, ha, hk, hb, hitems, hc, hl, hd, hname, he, hs⟩
    exact spans_of_parse rfl (parse_insertRegex.mpr ⟨a, k, b, items, c, l, d, name, e, ha, hk, hb,
      hitems, hc, hl, hd, hname, he, hs, rfl⟩)
  · intro hspans
    cases hm : regexec parserRegex.universeInsert t with
    | none => rw [insertion, found_of_eq_none hm] at h; cases h
    | some m =>
      obtain ⟨pre, w, post, items', name', ht, hpre, hw, hshape, hins⟩ := insertion_of_regexec hm
      obtain ⟨rfl, rfl⟩ := Prod.mk.inj (Option.some.inj (hins.symm.trans h))
      rwa [hspans.eq hm ht hpre hw] at hshape

/-- The expression of a definition matches the text of one. -/
theorem DefinitionShape.exists_parse {word : Bytes} (hword : ∀ b ∈ word, 65 ≤ b ∧ b ≤ 90)
    (h : DefinitionShape word t name columns) : ∃ cs, Parse (definitionRegex word) 0 t cs := by
  obtain ⟨a, k, b, l, c, d, e, f, ha, hk, hb, hl, hc, hname, hd, he, ⟨i, cs, hcs⟩, hf, ht⟩ := h
  obtain ⟨cs', hcs'⟩ := hcs.exists_at (0 + a.length + k.length + b.length + l.length + c.length +
    name.length + d.length + 1 + e.length)
  exact ⟨_, (parse_definitionRegex hword).mpr ⟨a, k, b, l, c, name, d, e, columns, f, _, ha, hk, hb,
    hl, hc, hname, hd, he, hcs', hf, ht, rfl⟩⟩

/-- **A definition is the whole text** exactly if no match is a part of it. -/
theorem definitionShape_iff {word : Bytes} (hword : ∀ b ∈ word, 65 ≤ b ∧ b ≤ 90)
    (h : definition ⟨false, definitionRegex word, false⟩ t = some (name, columns)) :
    (∃ columns, DefinitionShape word t name columns) ↔
      Spans ⟨false, definitionRegex word, false⟩ t := by
  constructor
  · rintro ⟨columns, hshape⟩
    obtain ⟨cs, hcs⟩ := hshape.exists_parse hword
    exact spans_of_parse rfl hcs
  · intro hspans
    cases hm : regexec ⟨false, definitionRegex word, false⟩ t with
    | none => rw [definition, found_of_eq_none hm] at h; cases h
    | some m =>
      obtain ⟨pre, w, post, name', columns', ht, hpre, hw, hshape, hdefinition⟩ :=
        definition_of_regexec hword hm
      obtain ⟨rfl, rfl⟩ := Prod.mk.inj (Option.some.inj (hdefinition.symm.trans h))
      rw [hspans.eq hm ht hpre hw] at hshape
      exact ⟨columns', hshape⟩

/-- A row that is stored passes its assertions. -/
theorem assertions_of_parseRow {wrongAmount kind : Bytes} {types row : List Bytes} {assertions : Bool}
    (h : parseRow parserRegex wrongAmount kind types n assertions t = .ok (.ok row)) :
    assertions = true := by
  cases assertions with
  | true => rfl
  | false =>
    by_cases hcount : n = countDelimiter t comma + 1
    · cases (parseRow_eq_assertion.mpr ⟨hcount, rfl⟩).symm.trans h
    · rw [parseRow, if_pos hcount] at h
      cases h

/-- A universe into which a row is inserted is declared with as many names as types. -/
theorem declared_of_universeRowsFrom
    (h : universeRowsFrom parserRegex (n + 1) i cursor u = .ok (u', none)) : u.Declared := by
  rw [universeRowsFrom, nextItem_eq, ok_bind] at h
  cases hitem : item cursor with
  | none =>
    rw [hitem] at h
    exact absurd h (rowError_ne_ok _ _ _ _)
  | some it =>
    obtain ⟨keys, offset⟩ := it
    rw [hitem] at h
    dsimp only at h
    split_ifs at h
    · exact absurd h (rowError_ne_ok _ _ _ _)
    · obtain ⟨u₁, hkey, h⟩ := Parsed.andThen_eq_ok.mp h
      rw [parseUniverseValues, if_pos rfl, parseUniverseKeys] at hkey
      obtain ⟨result, hresult, hkey⟩ := bind_eq_ok.mp hkey
      cases result with
      | error message => cases (Prod.mk.inj (Except.ok.inj hkey)).2
      | ok row =>
        obtain rfl := (Prod.mk.inj (Except.ok.inj hkey)).1
        have hkeys := assertions_of_parseRow hresult
        rw [Bool.and_eq_true, beq_iff_eq] at hkeys
        rw [nextItem_eq, ok_bind] at h
        cases hitem' : item (cursor.drop (offset + 1)) with
        | none =>
          rw [hitem'] at h
          exact absurd h (rowError_ne_ok _ _ _ _)
        | some it' =>
          obtain ⟨attributes, offset'⟩ := it'
          rw [hitem'] at h
          obtain ⟨u₂, hattribute, -⟩ := Parsed.andThen_eq_ok.mp h
          rw [parseUniverseValues, if_neg Bool.false_ne_true, parseUniverseAttributes] at hattribute
          obtain ⟨result', hresult', hattribute⟩ := bind_eq_ok.mp hattribute
          cases result' with
          | error message => cases (Prod.mk.inj (Except.ok.inj hattribute)).2
          | ok row' =>
            have hattributes := assertions_of_parseRow hresult'
            rw [Bool.and_eq_true, beq_iff_eq] at hattributes
            exact ⟨hkeys.2, hattributes.2⟩

/-- **What an insertion into the universe appends**, however the universe is declared. -/
theorem exists_rows_of_parseUniverseInsert
    (h : parseUniverseInsert parserRegex u t = .ok (u', none)) : ∃ items rows,
      insertion t = some (items, u.name) ∧
      UniverseRowsRead u.keyDataTypeNames u.attributeDataTypeNames (countDelimiter items colon)
        items rows ∧
      u' = u.withRows (u.keyValues ++ rows.map fun row => some row.1)
        (u.attributeValues ++ rows.map fun row => some row.2) := by
  by_cases hu : u.Declared
  · obtain ⟨items, hins, -, rows, hread, hu'⟩ := (parseUniverseInsert_eq_ok hu).mp h
    exact ⟨items, rows, hins, hread, hu'⟩
  rw [parseUniverseInsert_eq] at h
  cases hins : insertion t with
  | none => rw [hins] at h; exact nomatch (Prod.mk.inj (Except.ok.inj h)).2
  | some ins =>
    obtain ⟨items, name⟩ := ins
    rw [hins] at h
    dsimp only at h
    split_ifs at h with hname
    · exact nomatch (Prod.mk.inj (Except.ok.inj h)).2
    obtain rfl := not_not.mp hname
    rw [parseUniverseInsertSupp] at h
    split_ifs at h
    cases hcount : countDelimiter items colon with
    | zero =>
      rw [hcount] at h
      obtain rfl := (Prod.mk.inj (Except.ok.inj h)).1
      refine ⟨items, [], rfl, ?_, ?_⟩
      · rw [hcount]
        exact .nil items
      · simp [Universe.withRows, ArrayList.grow]
    | succ n =>
      rw [hcount] at h
      have := declared_of_universeRowsFrom h
      exact absurd ⟨this.keys, this.attributes⟩ hu

end Statements

/-- The parser returns 0. -/
def Succeeds (parsed : C Parsed) : Prop := ∃ u', parsed = .ok (u', none)

/-- **The parsers accept only whole statements**: the text is a statement of its kind from its first
byte to its last, and the braces of an insertion hold the rows that are stored, with commas between
them and white space. -/
structure AcceptsOnlyWhole (u : Universe) (t : Bytes) : Prop where
  universeDefinition : ∀ u', parseUniverseDefinition parserRegex u t = .ok (u', none) →
    ∃ columns, DefinitionShape (lit "UNIVERSE") t u'.name columns
  attributesDefinition : ∀ u', parseAttributesDefinition parserRegex u t = .ok (u', none) →
    ∃ columns, DefinitionShape (lit "ATTRIBUTES") t u'.name columns
  universeInsert : ∀ u', parseUniverseInsert parserRegex u t = .ok (u', none) → ∃ items rows,
    InsertShape t items u.name ∧
    CommaSeparated (UniverseRowStored u.keyDataTypeNames u.attributeDataTypeNames) rows items ∧
    u' = u.withRows (u.keyValues ++ rows.map fun row => some row.1)
      (u.attributeValues ++ rows.map fun row => some row.2)
  setInsert : ∀ u', parseSetInsert parserRegex u t = .ok (u', none) → ∃ items name k set rows,
    InsertShape t items name ∧ universeSetPosition u name = some k ∧ u.sets[k]? = some set ∧
    CommaSeparated (SetRowStored u.keyDataTypeNames) rows items ∧
    u' = u.withSet k { set with keyValues := set.keyValues ++ rows.map some }

/-- **No byte of a text is skipped** where a parser returns 0: the match of its expression is the
whole text, and the items of an insertion have a comma in front of each row but the first, as many
values as there are types in each item, only digits behind the sign of a number, and nothing behind
the last row that is counted. -/
structure NothingSkipped (u : Universe) (t : Bytes) : Prop where
  universeDefinition : Succeeds (parseUniverseDefinition parserRegex u t) →
    Spans parserRegex.universeDefinition t
  attributesDefinition : Succeeds (parseAttributesDefinition parserRegex u t) →
    Spans parserRegex.attributesDefinition t
  universeInsert : Succeeds (parseUniverseInsert parserRegex u t) →
    Spans parserRegex.universeInsert t ∧ ∀ items name, insertion t = some (items, name) →
      RowsWhole (UniverseRowWhole u.keyDataTypeNames u.attributeDataTypeNames)
        (countDelimiter items colon) true items
  setInsert : Succeeds (parseSetInsert parserRegex u t) →
    Spans parserRegex.universeInsert t ∧ ∀ items name, insertion t = some (items, name) →
      RowsWhole (SetRowWhole u.keyDataTypeNames)
        (countDelimiterIgnoringParenthesesContent items comma + 1) true items

section Whole

variable {u u' : Universe} {t : Bytes}

theorem universeDefinition_whole_iff
    (h : parseUniverseDefinition parserRegex u t = .ok (u', none)) :
    (∃ columns, DefinitionShape (lit "UNIVERSE") t u'.name columns) ↔
      Spans parserRegex.universeDefinition t := by
  obtain ⟨name, columns, types, names, hdefinition, -, -, rfl⟩ := parseUniverseDefinition_eq_ok.mp h
  exact definitionShape_iff upper_universe hdefinition

theorem attributesDefinition_whole_iff
    (h : parseAttributesDefinition parserRegex u t = .ok (u', none)) :
    (∃ columns, DefinitionShape (lit "ATTRIBUTES") t u'.name columns) ↔
      Spans parserRegex.attributesDefinition t := by
  obtain ⟨columns, types, names, hdefinition, -, rfl⟩ := parseAttributesDefinition_eq_ok.mp h
  exact definitionShape_iff upper_attributes hdefinition

/-- **An insertion into the universe is accepted as a whole** exactly if nothing of it is skipped. -/
theorem universeInsert_whole_iff (h : parseUniverseInsert parserRegex u t = .ok (u', none)) :
    (∃ items rows, InsertShape t items u.name ∧
      CommaSeparated (UniverseRowStored u.keyDataTypeNames u.attributeDataTypeNames) rows items ∧
      u' = u.withRows (u.keyValues ++ rows.map fun row => some row.1)
        (u.attributeValues ++ rows.map fun row => some row.2)) ↔
      Spans parserRegex.universeInsert t ∧ ∀ items name, insertion t = some (items, name) →
        RowsWhole (UniverseRowWhole u.keyDataTypeNames u.attributeDataTypeNames)
          (countDelimiter items colon) true items := by
  obtain ⟨items, rows, hins, hread, rfl⟩ := exists_rows_of_parseUniverseInsert h
  constructor
  · rintro ⟨items', rows', hshape, hrows, hu'⟩
    obtain ⟨rfl, -⟩ := Prod.mk.inj (Option.some.inj ((insertion_eq_of_shape hshape).symm.trans hins))
    refine ⟨(insertShape_iff hins).mp hshape, ?_⟩
    rintro _ _ hins'
    obtain ⟨rfl, -⟩ := Prod.mk.inj (Option.some.inj (hins.symm.trans hins'))
    have hlen : rows'.length = countDelimiter items' colon := by
      have happend := List.append_cancel_left (congrArg Universe.keyValues hu')
      rw [← hread.rowsRead.length_eq]
      simpa using (congrArg List.length happend).symm
    rw [← hlen]
    exact hrows.rowsWhole fun _ _ _ _ h ho hv => h.whole ho hv
  · rintro ⟨hspans, hwhole⟩
    have hrows := (hwhole items _ hins).written hread.rowsRead fun _ _ _ _ h h' => h.stored h'
    exact ⟨items, rows, (insertShape_iff hins).mpr hspans, hrows.1 rfl, rfl⟩

/-- **An insertion into a set is accepted as a whole** exactly if nothing of it is skipped. -/
theorem setInsert_whole_iff (h : parseSetInsert parserRegex u t = .ok (u', none)) :
    (∃ items name k set rows, InsertShape t items name ∧ universeSetPosition u name = some k ∧
      u.sets[k]? = some set ∧ CommaSeparated (SetRowStored u.keyDataTypeNames) rows items ∧
      u' = u.withSet k { set with keyValues := set.keyValues ++ rows.map some }) ↔
      Spans parserRegex.universeInsert t ∧ ∀ items name, insertion t = some (items, name) →
        RowsWhole (SetRowWhole u.keyDataTypeNames)
          (countDelimiterIgnoringParenthesesContent items comma + 1) true items := by
  obtain ⟨items, name, k, set, rows, hins, hposition, hset, hread, -, rfl⟩ :=
    parseSetInsert_eq_ok.mp h
  constructor
  · rintro ⟨items', name', k', set', rows', hshape, hposition', hset', hrows, hu'⟩
    obtain ⟨rfl, rfl⟩ :=
      Prod.mk.inj (Option.some.inj ((insertion_eq_of_shape hshape).symm.trans hins))
    obtain rfl := Option.some.inj (hposition.symm.trans hposition')
    obtain rfl := Option.some.inj (hset.symm.trans hset')
    refine ⟨(insertShape_iff hins).mp hshape, ?_⟩
    rintro _ _ hins'
    obtain ⟨rfl, -⟩ := Prod.mk.inj (Option.some.inj (hins.symm.trans hins'))
    obtain ⟨hk, -⟩ := List.getElem?_eq_some_iff.mp hset
    have hlen : rows'.length = countDelimiterIgnoringParenthesesContent items' comma + 1 := by
      have hsets := congrArg (fun u : Universe => u.sets[k]?) hu'
      rw [Universe.sets_withSet hk, Universe.sets_withSet hk] at hsets
      have happend := List.append_cancel_left
        (congrArg UniverseSet.keyValues (Option.some.inj hsets))
      rw [← hread.rowsRead.length_eq]
      simpa using (congrArg List.length happend).symm
    rw [← hlen]
    exact hrows.rowsWhole fun _ _ _ _ h ho hv => h.whole ho hv
  · rintro ⟨hspans, hwhole⟩
    have hrows := (hwhole items _ hins).written hread.rowsRead fun _ _ _ _ h h' => h.stored h'
    exact ⟨items, name, k, set, rows, (insertShape_iff hins).mpr hspans, hposition, hset,
      hrows.1 rfl, rfl⟩

/-- **Only whole statements are accepted** exactly if nothing of the text is skipped. -/
theorem acceptsOnlyWhole_iff (u : Universe) (t : Bytes) :
    AcceptsOnlyWhole u t ↔ NothingSkipped u t := by
  constructor
  · intro h
    refine ⟨?_, ?_, ?_, ?_⟩
    · rintro ⟨u', hu'⟩
      exact (universeDefinition_whole_iff hu').mp (h.universeDefinition u' hu')
    · rintro ⟨u', hu'⟩
      exact (attributesDefinition_whole_iff hu').mp (h.attributesDefinition u' hu')
    · rintro ⟨u', hu'⟩
      exact (universeInsert_whole_iff hu').mp (h.universeInsert u' hu')
    · rintro ⟨u', hu'⟩
      exact (setInsert_whole_iff hu').mp (h.setInsert u' hu')
  · intro h
    refine ⟨?_, ?_, ?_, ?_⟩
    · intro u' hu'
      exact (universeDefinition_whole_iff hu').mpr (h.universeDefinition ⟨u', hu'⟩)
    · intro u' hu'
      exact (attributesDefinition_whole_iff hu').mpr (h.attributesDefinition ⟨u', hu'⟩)
    · intro u' hu'
      exact (universeInsert_whole_iff hu').mpr (h.universeInsert ⟨u', hu'⟩)
    · intro u' hu'
      exact (setInsert_whole_iff hu').mpr (h.setInsert ⟨u', hu'⟩)

/-- A definition is accepted with bytes in front of it and behind it. -/
theorem not_acceptsOnlyWhole :
    ¬AcceptsOnlyWhole createEmptyUniverse (lit "x CREATE UNIVERSE A(n STRING) y") := by
  intro h
  have haccepted : parseUniverseDefinition parserRegex createEmptyUniverse
      (lit "x CREATE UNIVERSE A(n STRING) y") =
        .ok (⟨lit "A", [lit "STRING"], [lit "n"], [], [], [], [], []⟩, none) := by decide
  obtain ⟨columns, a, k, b, l, c, d, e, f, ha, hk, -, -, -, -, -, -, -, -, htext⟩ :=
    h.universeDefinition _ haccepted
  have hfirst : (a ++ (k ++ (b ++ (l ++ (c ++ (lit "A" ++ (d ++ openParen :: (e ++ (columns ++
      closeParen :: f))))))))).head? = some (chr 'x') := by
    rw [← htext]
    decide
  cases a with
  | cons y a =>
    obtain rfl : y = chr 'x' := Option.some.inj hfirst
    exact absurd (ha _ List.mem_cons_self) (by decide)
  | nil =>
    obtain ⟨y, k, rfl⟩ := List.exists_cons_of_ne_nil
      (hk.isName (letters_of_upper upper_create) (by decide)).1
    obtain rfl : y = chr 'x' := Option.some.inj hfirst
    exact absurd (List.cons.inj hk).1 (by decide)

end Whole

end SetQL
