import SetQL.Base.Bytes
import SetQL.Spec.Store

/-!
# The query language

The language that the query parser is for, as derivations over bytes: a `SELECT` of column names
`FROM` a set expression, with keywords in any case and white space between the parts.

## Main definitions

* `Spaces`, `IsName`, `Keyword`: white space, a name, and a word in any case
* `Derives e w`: the text `w` is the set expression `e`
* `ColumnList ns w`: the text `w` lists the names `ns`
* `QueryForm s ns e`: the string `s` asks for the columns `ns` of the set `e`

## Main results

* `Derives.ne_nil`, `Derives.not_mem`: a set expression is not empty and has no semicolon
-/

namespace SetQL

/-- White space: a blank, or one of the control characters from tab to carriage return. -/
def IsSpace (b : UInt8) : Prop := b = 32 ∨ 9 ≤ b ∧ b ≤ 13

/-- A letter. -/
def IsLetter (b : UInt8) : Prop := 97 ≤ b ∧ b ≤ 122 ∨ 65 ≤ b ∧ b ≤ 90

/-- A letter, a digit or an underscore. -/
def IsNameByte (b : UInt8) : Prop := IsLetter b ∨ 48 ≤ b ∧ b ≤ 57 ∨ b = 95

instance : DecidablePred IsSpace := fun b => inferInstanceAs (Decidable (b = 32 ∨ 9 ≤ b ∧ b ≤ 13))

instance : DecidablePred IsLetter := fun b =>
  inferInstanceAs (Decidable (97 ≤ b ∧ b ≤ 122 ∨ 65 ≤ b ∧ b ≤ 90))

instance : DecidablePred IsNameByte := fun b =>
  inferInstanceAs (Decidable (IsLetter b ∨ 48 ≤ b ∧ b ≤ 57 ∨ b = 95))

/-- White space, possibly none. -/
def Spaces (w : Bytes) : Prop := ∀ b ∈ w, IsSpace b

/-- A name. -/
def IsName (w : Bytes) : Prop := w ≠ [] ∧ ∀ b ∈ w, IsNameByte b

/-- A word in any case. -/
def Keyword (word w : Bytes) : Prop := w.map toUpper = word

/-- The operations with two operands. -/
inductive BinaryOp
  | union
  | intersection
  | difference
  deriving DecidableEq

namespace BinaryOp

/-- The name of an operation. -/
def word : BinaryOp → Bytes
  | union => lit "UNION"
  | intersection => lit "INTERSECTION"
  | difference => lit "DIFFERENCE"

/-- The expression of an operation. -/
def expr : BinaryOp → SetExpr Bytes → SetExpr Bytes → SetExpr Bytes
  | union => .union
  | intersection => .intersection
  | difference => .difference

end BinaryOp

/-- `(`. -/
def openParen : UInt8 := 40

/-- `)`. -/
def closeParen : UInt8 := 41

/-- `,`. -/
def comma : UInt8 := 44

/-- `;`. -/
def semicolon : UInt8 := 59

/-- The punctuation of the language. -/
def IsPunctuation (b : UInt8) : Prop :=
  b = openParen ∨ b = closeParen ∨ b = comma ∨ b = semicolon

instance : DecidablePred IsPunctuation := fun b =>
  inferInstanceAs (Decidable (b = openParen ∨ b = closeParen ∨ b = comma ∨ b = semicolon))

/-! ## The language -/

/-- The text of a set expression. -/
inductive Derives : SetExpr Bytes → Bytes → Prop
  | name {n} (hn : IsName n) : Derives (.name n) n
  | parens {e a w b} (ha : Spaces a) (he : Derives e w) (hb : Spaces b) :
    Derives e (openParen :: (a ++ w ++ b ++ [closeParen]))
  | complementName {k a n} (hk : Keyword (lit "COMPLEMENT") k) (ha : Spaces a) (ha' : a ≠ [])
    (hn : IsName n) : Derives (.complement (.name n)) (k ++ a ++ n)
  | complement {e k a b w c} (hk : Keyword (lit "COMPLEMENT") k) (ha : Spaces a) (hb : Spaces b)
    (he : Derives e w) (hc : Spaces c) :
    Derives (.complement e) (k ++ a ++ openParen :: (b ++ w ++ c ++ [closeParen]))
  | binary {l r k a b u c d v f} (op : BinaryOp) (hk : Keyword op.word k) (ha : Spaces a)
    (hb : Spaces b) (hl : Derives l u) (hc : Spaces c) (hd : Spaces d) (hr : Derives r v)
    (hf : Spaces f) :
    Derives (op.expr l r)
      (k ++ a ++ openParen :: (b ++ u ++ c ++ comma :: (d ++ v ++ f) ++ [closeParen]))

/-- A list of names with commas between them. -/
inductive ColumnList : List Bytes → Bytes → Prop
  | single {n} (hn : IsName n) : ColumnList [n] n
  | cons {n a b ns w} (hn : IsName n) (ha : Spaces a) (hb : Spaces b) (hw : ColumnList ns w) :
    ColumnList (n :: ns) (n ++ a ++ comma :: (b ++ w))

/-- A query: `SELECT`, the column names, `FROM`, a set expression and a semicolon. -/
def QueryForm (s : Bytes) (columns : List Bytes) (e : SetExpr Bytes) : Prop :=
  ∃ a k₁ b names c k₂ d u f g,
    s = a ++ k₁ ++ b ++ names ++ c ++ k₂ ++ d ++ u ++ f ++ semicolon :: g ∧
    Spaces a ∧ Keyword (lit "SELECT") k₁ ∧ Spaces b ∧ b ≠ [] ∧ ColumnList columns names ∧
    Spaces c ∧ c ≠ [] ∧ Keyword (lit "FROM") k₂ ∧ Spaces d ∧ d ≠ [] ∧ Derives e u ∧
    Spaces f ∧ Spaces g

/-! ## The parts of a text -/

theorem not_isNameByte_of_isSpace {b : UInt8} : IsSpace b → ¬ IsNameByte b := by
  rw [IsSpace, IsNameByte, IsLetter]
  grind

theorem not_isSpace_of_isPunctuation {b : UInt8} (h : IsPunctuation b) : ¬ IsSpace b := by
  rcases h with rfl | rfl | rfl | rfl <;> decide

theorem not_isNameByte_of_isPunctuation {b : UInt8} (h : IsPunctuation b) : ¬ IsNameByte b := by
  rcases h with rfl | rfl | rfl | rfl <;> decide

theorem IsLetter.isNameByte {b : UInt8} (h : IsLetter b) : IsNameByte b := Or.inl h

theorem IsNameByte.not_isSpace {b : UInt8} (h : IsNameByte b) : ¬ IsSpace b :=
  fun hs => not_isNameByte_of_isSpace hs h

theorem isLetter_of_toUpper {b : UInt8} : IsLetter (toUpper b) → IsLetter b := by
  rw [IsLetter, IsLetter, toUpper]
  grind

theorem spaces_nil : Spaces [] := fun _ h => absurd h List.not_mem_nil

theorem Spaces.append {u v : Bytes} (hu : Spaces u) (hv : Spaces v) : Spaces (u ++ v) := by
  intro b hb
  rcases List.mem_append.mp hb with hb | hb
  · exact hu b hb
  · exact hv b hb

theorem spaces_append_iff {u v : Bytes} : Spaces (u ++ v) ↔ Spaces u ∧ Spaces v :=
  List.forall_mem_append

theorem IsName.head {n v : Bytes} (hn : IsName n) : ∀ b ∈ (n ++ v).head?, ¬ IsSpace b := by
  obtain ⟨hne, hall⟩ := hn
  obtain ⟨x, n, rfl⟩ := List.exists_cons_of_ne_nil hne
  rintro b hb
  obtain rfl : x = b := by simpa using hb
  exact (hall x List.mem_cons_self).not_isSpace

/-- White space is no part of a name in front of it. -/
theorem Spaces.head {w : Bytes} (h : Spaces w) : ∀ b ∈ w.head?, ¬ IsNameByte b := by
  intro b hb
  exact not_isNameByte_of_isSpace (h b (List.mem_of_mem_head? hb))

theorem Spaces.head_append {x r : Bytes} (hx : Spaces x) (hr : ∀ z ∈ r.head?, ¬ IsNameByte z) :
    ∀ z ∈ (x ++ r).head?, ¬ IsNameByte z := by
  cases x with
  | nil => exact hr
  | cons y x =>
    rintro z hz
    obtain rfl : y = z := by simpa using hz
    exact not_isNameByte_of_isSpace (hx y List.mem_cons_self)

theorem Spaces.head_of_ne_nil {x r : Bytes} (hx : Spaces x) (hne : x ≠ []) :
    ∀ z ∈ (x ++ r).head?, ¬ IsNameByte z := by
  obtain ⟨y, x, rfl⟩ := List.exists_cons_of_ne_nil hne
  rintro z hz
  obtain rfl : y = z := by simpa using hz
  exact not_isNameByte_of_isSpace (hx y List.mem_cons_self)

theorem Keyword.length {word k : Bytes} (h : Keyword word k) : k.length = word.length := by
  rw [← h, List.length_map]

/-- The words of the language are letters. -/
theorem Keyword.letters {word k : Bytes} (h : Keyword word k) (hw : ∀ b ∈ word, IsLetter b) :
    ∀ b ∈ k, IsLetter b := by
  intro b hb
  refine isLetter_of_toUpper (hw _ ?_)
  rw [← h]
  exact List.mem_map_of_mem hb

theorem Keyword.isName {word k : Bytes} (h : Keyword word k) (hw : ∀ b ∈ word, IsLetter b)
    (hne : word ≠ []) : IsName k := by
  refine ⟨?_, fun b hb => (h.letters hw b hb).isNameByte⟩
  rintro rfl
  exact hne h.symm

/-- **The text behind a word** is determined, whatever white space is in front of it. -/
theorem Keyword.append_inj {word a a' k k' v v' : Bytes} (hk : Keyword word k)
    (hk' : Keyword word k') (hw : ∀ b ∈ word, IsLetter b) (hne : word ≠ []) (ha : Spaces a)
    (ha' : Spaces a') (h : a ++ (k ++ v) = a' ++ (k' ++ v')) : v = v' := by
  obtain ⟨-, hword⟩ := append_inj_of_all (p := IsSpace) ha ha' (hk.isName hw hne).head
    (hk'.isName hw hne).head h
  exact (List.append_inj hword (hk.length.trans hk'.length.symm)).2

theorem Spaces.not_mem {w : Bytes} (h : Spaces w) {x : UInt8} (hx : IsPunctuation x) : x ∉ w :=
  fun hm => not_isSpace_of_isPunctuation hx (h x hm)

theorem IsName.not_mem {n : Bytes} (h : IsName n) {x : UInt8} (hx : IsPunctuation x) : x ∉ n :=
  fun hm => not_isNameByte_of_isPunctuation hx (h.2 x hm)

theorem isPunctuation_openParen : IsPunctuation openParen := Or.inl rfl

theorem isPunctuation_closeParen : IsPunctuation closeParen := Or.inr (Or.inl rfl)

theorem isPunctuation_comma : IsPunctuation comma := Or.inr (Or.inr (Or.inl rfl))

theorem isPunctuation_semicolon : IsPunctuation semicolon := Or.inr (Or.inr (Or.inr rfl))

theorem letters_complement : ∀ b ∈ lit "COMPLEMENT", IsLetter b := by decide +kernel

theorem BinaryOp.letters (op : BinaryOp) : ∀ b ∈ op.word, IsLetter b := by
  cases op <;> decide +kernel

theorem BinaryOp.word_ne_nil (op : BinaryOp) : op.word ≠ [] := by
  cases op <;> decide +kernel

theorem Derives.ne_nil {e : SetExpr Bytes} {w : Bytes} (h : Derives e w) : w ≠ [] := by
  cases h with
  | name hn => exact hn.1
  | parens => exact List.cons_ne_nil _ _
  | complementName hk ha ha' hn => simp [ha']
  | complement | binary => simp

/-- A set expression has no semicolon. -/
theorem Derives.not_mem {e : SetExpr Bytes} {w : Bytes} (h : Derives e w) : semicolon ∉ w := by
  have hx := isPunctuation_semicolon
  have hword : ∀ {word k : Bytes}, Keyword word k → (∀ b ∈ word, IsLetter b) → semicolon ∉ k :=
    fun hk hw hm => not_isNameByte_of_isPunctuation hx (hk.letters hw _ hm).isNameByte
  have hparens : semicolon ≠ openParen ∧ semicolon ≠ closeParen ∧ semicolon ≠ comma := by decide
  induction h with
  | name hn => exact hn.not_mem hx
  | parens ha _ hb ih => simp [ha.not_mem hx, hb.not_mem hx, ih, hparens]
  | complementName hk ha ha' hn =>
    simp [hword hk letters_complement, ha.not_mem hx, hn.not_mem hx]
  | complement hk ha hb _ hc ih =>
    simp [hword hk letters_complement, ha.not_mem hx, hb.not_mem hx, hc.not_mem hx, ih, hparens]
  | binary op hk ha hb _ hc hd _ hf ihl ihr =>
    simp [hword hk op.letters, ha.not_mem hx, hb.not_mem hx, hc.not_mem hx, hd.not_mem hx,
      hf.not_mem hx, ihl, ihr, hparens]

end SetQL
