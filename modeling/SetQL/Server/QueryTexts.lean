import SetQL.Parser.Language
import SetQL.Server.EventLoop
import Mathlib.Logic.Relation

/-!
# The error texts of queries

`parse_query` has a buffer of 200 bytes for the text of an error. The longest text names an
operation that is not known. The name is a part of the message: it is copied from a string that was
taken apart at any depth from the text of the set, which is itself copied from the query. Each step
leaves out the bytes around what it copies, and those that are left out at the least are counted
here.

## Main definitions

* `NestedCall`: a call calls itself with another string
* `OperationText`: a text that a call writes by itself
* `CalledWith`: `parse_set_operation` is called with the string, at some depth
* `QueryText`: a text that is written while a query is parsed
* `QueryTextsFit`: every text that is written fits the buffer

## Main results

* `NestedCall.length_lt`: a nested call has a shorter string
* `CalledWith.length_le`: the strings of all calls are shorter than the query
* `parseEntireQuery_failed`: a query fails with a text that is written
* `queryTexts_fit`: the texts of every message fit
-/

namespace SetQL

/-- The text about an operation that is not known. -/
def unknownOperation (opTypeString : Bytes) : Bytes :=
  lit "Error parsing: \"" ++ opTypeString ++
    lit "\" is not a set operation (COMPLEMENT, UNION, INTERSECTION, DIFFERENCE)."

/-- The text about an operation without a second operand. -/
def missingComma (opTypeString : Bytes) : Bytes :=
  lit "Error parsing: Missing comma. Expected format: " ++ opTypeString ++
    lit " (<op_set>, <op_set)"

/-- The text about a string that is no set operation. -/
def unparsedString (string : Bytes) : Bytes := lit "Error parsing string=" ++ string

/-- `parse_set_operation` calls itself: with the content of parentheses, with the operand of a
complement, and with the operands of an operation that is known; with the second one only if the
first one is parsed. -/
inductive NestedCall (rx : QueryRegex) : Bytes → Bytes → Prop
  | parentheses {string content m} (hm : regexec rx.parentheses string = some m)
    (hcopy : strCopyIdx string (m.group 1) = .ok content) : NestedCall rx string content
  | complement {string content m} (hparens : regexec rx.parentheses string = none)
    (hname : regexec rx.setName string = none)
    (hm : (regexec rx.setComplement1 string).or (regexec rx.setComplement2 string) = some m)
    (hcopy : strCopyIdx string (m.group 1) = .ok content) : NestedCall rx string content
  | left {string opTypeString content splitIndex}
    (hop : ReadsOperation rx string opTypeString content)
    (htype : string2opType (str2upper opTypeString) ≠ 0)
    (hsplit : findDelimiterIgnoringParenthesesContent content (chr ',') = some splitIndex) :
    NestedCall rx string (content.take splitIndex)
  | right {string opTypeString content splitIndex fuel leftOp}
    (hop : ReadsOperation rx string opTypeString content)
    (htype : string2opType (str2upper opTypeString) ≠ 0)
    (hsplit : findDelimiterIgnoringParenthesesContent content (chr ',') = some splitIndex)
    (hleft : parseSetOperation rx fuel (content.take splitIndex) = .ok (.ok leftOp)) :
    NestedCall rx string (content.drop (splitIndex + 1))

/-- A call writes the text by itself, not in a nested call. -/
inductive OperationText (rx : QueryRegex) (string : Bytes) : Bytes → Prop
  | unknownOperation {opTypeString content} (hop : ReadsOperation rx string opTypeString content)
    (htype : string2opType (str2upper opTypeString) = 0) :
    OperationText rx string (unknownOperation (str2upper opTypeString))
  | missingComma {opTypeString content} (hop : ReadsOperation rx string opTypeString content)
    (htype : string2opType (str2upper opTypeString) ≠ 0)
    (hsplit : findDelimiterIgnoringParenthesesContent content (chr ',') = none) :
    OperationText rx string (missingComma (str2upper opTypeString))
  | unparsedString (hparens : regexec rx.parentheses string = none)
    (hname : regexec rx.setName string = none)
    (hcomplement : (regexec rx.setComplement1 string).or (regexec rx.setComplement2 string) = none)
    (hbinary : regexec rx.setBinaryOp string = none) :
    OperationText rx string (unparsedString string)

/-- While the query is parsed, `parse_set_operation` is called with the string, at some depth of its
recursion. -/
def CalledWith (rx : QueryRegex) (queryString string : Bytes) : Prop :=
  ∃ m setOperation, regexec rx.query queryString = some m ∧
    copyGroup queryString m 3 = .ok (some setOperation) ∧
    Relation.ReflTransGen (NestedCall rx) setOperation string

/-- The text is written while the query is parsed; the text about the values is overwritten by the
one about the column names. -/
inductive QueryText (rx : QueryRegex) (queryString : Bytes) : Bytes → Prop
  | query (hm : regexec rx.query queryString = none) : QueryText rx queryString
      (lit "Error parsing the query. Does not match the pattern: SELECT <name_1>, ... FROM <set_operation> ;")
  | values {m names dataValues} (hm : regexec rx.query queryString = some m)
    (hcopy : copyGroup queryString m 1 = .ok (some names))
    (hnames : columnNamesFrom rx (countChars names (chr ',') + 1) names = .ok (dataValues, true)) :
    QueryText rx queryString (lit "Error parsing the values.")
  | columnNames {m names dataValues} (hm : regexec rx.query queryString = some m)
    (hcopy : copyGroup queryString m 1 = .ok (some names))
    (hnames : columnNamesFrom rx (countChars names (chr ',') + 1) names = .ok (dataValues, true)) :
    QueryText rx queryString (lit "Error parsing column names in the query.")
  | setOperation {string text} (hcall : CalledWith rx queryString string)
    (htext : OperationText rx string text) : QueryText rx queryString text

/-- **The error texts of a query fit** the buffer of 200 bytes, with their terminator. The name of
an operation fits as well, at whatever depth it is copied: it is shorter than the query by the 18
bytes that a query has around it at the least. The text that is printed is one of the texts. -/
structure QueryTextsFit (s : Bytes) : Prop where
  length_lt : ∀ text, QueryText queryRegex s text → text.length < 200
  operation : ∀ string opTypeString content, CalledWith queryRegex s string →
    ReadsOperation queryRegex string opTypeString content →
      (str2upper opTypeString).length + 18 ≤ s.length ∧
        (unknownOperation (str2upper opTypeString)).length < 200
  printed : ∀ message, parseQuery s = .ok (.error message) → QueryText queryRegex s message
  in_bounds : parseQuery s ≠ .error .outOfBounds

/-! ## Lengths -/

section Lengths

variable {s c k string content opTypeString text : Bytes} {ns : List Bytes}

/-- The bytes that are around the text of the set in a query. -/
theorem QueryParts.length_le (h : QueryParts s ns c) : c.length + 15 ≤ s.length := by
  obtain ⟨a, k₁, b, names, x, k₂, d, f, -, hk₁, hb, hnames, hx, hk₂, hd, -, -, rfl⟩ := h
  obtain ⟨n, e, t, ms, -, hn, -, -, rfl⟩ := hnames
  have hselect : k₁.length = 6 := hk₁.length
  have hfrom : k₂.length = 4 := hk₂.length
  have hblank := List.length_pos_of_ne_nil hb.1
  have hname := List.length_pos_of_ne_nil hn.1
  have hblank' := List.length_pos_of_ne_nil hx.1
  have hblank'' := List.length_pos_of_ne_nil hd.1
  simp only [List.length_append, List.length_cons]
  omega

/-- The name of an operation leaves room for its parentheses and what is in them. -/
theorem ReadsOperation.length_le (h : ReadsOperation queryRegex string k content) :
    k.length + 3 ≤ string.length := by
  have hle := h.enclosed.length_le
  obtain ⟨_, _, _, -, -, -, -, ⟨hne, -⟩, -⟩ := h.enclosed
  have hpos := List.length_pos_of_ne_nil hne
  omega

/-- **A nested call has a shorter string.** -/
theorem NestedCall.length_lt (h : NestedCall queryRegex string c) : c.length < string.length := by
  cases h with
  | parentheses hm hcopy => exact ((finds_parentheses string).shape hm hcopy).length_lt
  | complement hparens hname hm hcopy =>
    cases h₁ : regexec queryRegex.setComplement1 string with
    | some m =>
      rw [h₁, Option.some_or] at hm
      obtain rfl := Option.some.inj hm
      exact ((finds_setComplement1 string).shape h₁ hcopy).length_lt
    | none =>
      rw [h₁, Option.none_or] at hm
      obtain ⟨k, -, hc⟩ := (finds_setComplement2 string).shape hm hcopy
      exact hc.length_lt
  | left hop =>
    refine lt_of_le_of_lt ?_ hop.enclosed.length_lt
    simp only [List.length_take]
    omega
  | right hop =>
    refine lt_of_le_of_lt ?_ hop.enclosed.length_lt
    simp only [List.length_drop]
    omega

/-- The strings of all nested calls are as long as the first one at the most. -/
theorem length_le_of_nestedCalls (h : Relation.ReflTransGen (NestedCall queryRegex) c string) :
    string.length ≤ c.length := by
  induction h with
  | refl => exact le_rfl
  | tail _ hcall ih => exact hcall.length_lt.le.trans ih

/-- **The strings of all calls are shorter than the query.** -/
theorem CalledWith.length_le (h : CalledWith queryRegex s string) :
    string.length + 15 ≤ s.length := by
  obtain ⟨m, c, hm, hcopy, hcalls⟩ := h
  obtain ⟨m', ns, names, c', hm', -, hcopy', -, hparts⟩ := (finds_query s).resolve_right
    fun hn => nomatch hm.symm.trans hn.1
  obtain rfl := Option.some.inj (hm.symm.trans hm')
  obtain rfl := Option.some.inj (Except.ok.inj (hcopy.symm.trans hcopy'))
  have hlen := length_le_of_nestedCalls hcalls
  have hquery := hparts.length_le
  omega

@[simp] theorem length_str2upper (w : Bytes) : (str2upper w).length = w.length := List.length_map _

theorem length_unknownOperation (k : Bytes) : (unknownOperation k).length = k.length + 87 := by
  rw [unknownOperation, List.length_append, List.length_append,
    show (lit "Error parsing: \"").length = 16 by decide,
    show (lit "\" is not a set operation (COMPLEMENT, UNION, INTERSECTION, DIFFERENCE).").length = 71
      by decide]
  omega

theorem length_missingComma (k : Bytes) : (missingComma k).length = k.length + 67 := by
  rw [missingComma, List.length_append, List.length_append,
    show (lit "Error parsing: Missing comma. Expected format: ").length = 47 by decide,
    show (lit " (<op_set>, <op_set)").length = 20 by decide]
  omega

theorem length_unparsedString (w : Bytes) : (unparsedString w).length = w.length + 21 := by
  rw [unparsedString, List.length_append, show (lit "Error parsing string=").length = 21 by decide]
  omega

/-- The operations that are known have short names. -/
theorem length_le_of_string2opType (h : string2opType k ≠ 0) : k.length ≤ 12 := by
  rcases string2opType_ne_zero h with rfl | ⟨op, rfl⟩
  · decide
  · cases op <;> decide

theorem Enclosed.append_left {d : Bytes} (hd : Spaces d) (h : Enclosed k c content) :
    Enclosed k (d ++ c) content := by
  obtain ⟨a, w, b, ha, hw, hkw, hb, hcontent, rfl⟩ := h
  exact ⟨d ++ a, w, b, hd.append ha, hw, hkw, hb, hcontent, by simp⟩

/-- White space before an operation is no part of its name. -/
theorem Enclosed.of_append {d : Bytes} (hd : Spaces d) (hk : IsName k)
    (h : Enclosed k (d ++ c) content) : Enclosed k c content := by
  obtain ⟨a, w, b, ha, hw, hkw, hb, hcontent, heq⟩ := h
  rw [List.append_eq_append_iff] at heq
  rcases heq with ⟨y, rfl, rfl⟩ | ⟨y, rfl, heq⟩
  · exact ⟨y, w, b, (spaces_append_iff.mp ha).2, hw, hkw, hb, hcontent, rfl⟩
  · cases y with
    | nil => exact ⟨[], w, b, spaces_nil, hw, hkw, hb, hcontent, heq.symm⟩
    | cons z y =>
      have hz := hk.head z (by rw [heq]; rfl)
      exact absurd (hd z (by simp)) hz

/-- **A query with an unknown operation** writes the text about it. -/
theorem queryText_unknownOperation (hparts : QueryParts s ns c) (hne : k ≠ [])
    (hk : ∀ b ∈ k, IsLetter b) (h : Enclosed k c content)
    (htype : string2opType (str2upper k) = 0) :
    QueryText queryRegex s (unknownOperation (str2upper k)) := by
  obtain ⟨m, ns', names, c', hm, -, hcopy, -, hparts'⟩ := (finds_query s).resolve_right
    fun hn => hn.2 ns c hparts
  obtain ⟨-, d, d', hd, hd', heq⟩ := hparts.unique hparts'
  have henclosed : Enclosed k c' content :=
    .of_append hd' ⟨hne, fun b hb => (hk b hb).isNameByte⟩ (heq ▸ h.append_left hd)
  have hcomplement : ¬Keyword (lit "COMPLEMENT") k := by
    intro hword
    rw [str2upper, hword] at htype
    exact absurd htype (by decide)
  exact .setOperation ⟨m, c', hm, hcopy, .refl⟩
    (.unknownOperation (readsOperation_of_enclosed hne hk hcomplement henclosed) htype)

/-- The texts of a call with a short string fit. -/
theorem OperationText.length_lt (h : OperationText queryRegex string text)
    (hlen : string.length ≤ 113) : text.length < 200 := by
  cases h with
  | unknownOperation hop =>
    have hname := hop.length_le
    rw [length_unknownOperation, length_str2upper]
    omega
  | missingComma hop htype =>
    have hname := length_le_of_string2opType htype
    rw [length_missingComma]
    omega
  | unparsedString =>
    rw [length_unparsedString]
    omega

/-- The texts of a short query fit. -/
theorem QueryText.length_lt (h : QueryText queryRegex s text) (hlen : s.length ≤ 128) :
    text.length < 200 := by
  cases h with
  | query | values | columnNames => decide
  | setOperation hcall htext =>
    have hstring := hcall.length_le
    exact htext.length_lt (by omega)

end Lengths

/-! ## Failures -/

/-- The parser returns the text of an error, or writes one beyond its buffer. -/
def Failed {α : Type} (r : C (Except Bytes α)) : Prop :=
  (∃ message, r = .ok (.error message)) ∨ r = .error .outOfBounds

/-- The result is a text that the call with the string, or one that is nested in it, writes. -/
def FailsWithin (rx : QueryRegex) (string : Bytes) (r : C (Except Bytes SetOp)) : Prop :=
  ∃ string' text, Relation.ReflTransGen (NestedCall rx) string string' ∧
    OperationText rx string' text ∧ r = Except.error <$> errorMessage text

section Failures

variable {α β : Type} {rx : QueryRegex} {s c string text : Bytes} {r part : C (Except Bytes SetOp)}
  {rest : SetOp → C (Except Bytes SetOp)}

theorem not_failed_ok (a : α) : ¬Failed (.ok (.ok a)) := by
  rintro (⟨message, h⟩ | h)
  · exact nomatch h
  · exact nomatch h

theorem Failed.bind {x : C β} {f : β → C (Except Bytes α)} (h : Failed (x >>= f))
    (hx : x ≠ .error .outOfBounds) : ∃ a, x = .ok a ∧ Failed (f a) := by
  rcases h with ⟨message, h⟩ | h
  · obtain ⟨a, ha, h⟩ := bind_eq_ok.mp h
    exact ⟨a, ha, Or.inl ⟨message, h⟩⟩
  · obtain ⟨a, ha, h⟩ := (bind_eq_error.mp h).resolve_left hx
    exact ⟨a, ha, Or.inr h⟩

/-- Either part of a parser fails. -/
theorem Failed.andThen (h : Failed (andThen part rest)) :
    (Failed part ∧ andThen part rest = part) ∨
      ∃ op, part = .ok (.ok op) ∧ Failed (rest op) ∧ andThen part rest = rest op := by
  cases part with
  | error e => exact Or.inl ⟨h, rfl⟩
  | ok parsed =>
    cases parsed with
    | error message => exact Or.inl ⟨h, rfl⟩
    | ok op => exact Or.inr ⟨op, rfl, h, rfl⟩

theorem strCopyIdx_ne_outOfBounds (part : Option (ℕ × ℕ)) :
    strCopyIdx s part ≠ .error .outOfBounds := by
  cases part with
  | none => rintro ⟨⟩
  | some part =>
    rw [strCopyIdx]
    split_ifs
    · rintro ⟨⟩
    · rintro ⟨⟩

theorem not_failed_createSetOp (leftOp rightOp : SetOp) (opType : ℕ) :
    ¬Failed (Except.ok <$> createSetOp leftOp rightOp opType : C (Except Bytes SetOp)) := by
  rw [createSetOp]
  split_ifs
  · exact not_failed_ok _
  · rintro (⟨message, h⟩ | h)
    · exact nomatch h
    · exact nomatch h
  · exact not_failed_ok _
  · exact not_failed_ok _

theorem FailsWithin.head (hcall : NestedCall rx string c) (h : FailsWithin rx c r) :
    FailsWithin rx string r := by
  obtain ⟨string', text, hcalls, htext, hr⟩ := h
  exact ⟨string', text, .head hcall hcalls, htext, hr⟩

theorem OperationText.failsWithin (h : OperationText rx string text) :
    FailsWithin rx string (Except.error <$> errorMessage text) :=
  ⟨string, text, .refl, h, rfl⟩

/-- An operation with two operands fails if its name is not known, if there is no comma, or if one
of its operands fails. -/
theorem parseBinaryOp_failed {n : ℕ} {opTypeString content : Bytes}
    (hop : ReadsOperation rx string opTypeString content)
    (hparse : ∀ w, Failed (parseSetOperation rx n w) → FailsWithin rx w (parseSetOperation rx n w))
    (h : Failed (parseBinaryOp (parseSetOperation rx n) opTypeString content)) :
    FailsWithin rx string (parseBinaryOp (parseSetOperation rx n) opTypeString content) := by
  unfold parseBinaryOp at h ⊢
  dsimp only at h ⊢
  by_cases htype : string2opType (str2upper opTypeString) = 0
  · rw [if_pos htype]
    exact (OperationText.unknownOperation hop htype).failsWithin
  · rw [if_neg htype] at h ⊢
    cases hsplit : findDelimiterIgnoringParenthesesContent content (chr ',') with
    | none => exact (OperationText.missingComma hop htype hsplit).failsWithin
    | some splitIndex =>
      simp only [hsplit] at h ⊢
      rcases h.andThen with ⟨hleft, heq⟩ | ⟨leftOp, hleft, hrest, heq⟩
      · rw [heq]
        exact (hparse _ hleft).head (.left hop htype hsplit)
      · rw [heq]
        rcases hrest.andThen with ⟨hright, heq'⟩ | ⟨rightOp, -, hcreate, -⟩
        · rw [heq']
          exact (hparse _ hright).head (.right hop htype hsplit hleft)
        · exact absurd hcreate (not_failed_createSetOp _ _ _)

/-- **A set operation fails with a text of the call or of one that is nested in it.** -/
theorem parseSetOperation_failed {n : ℕ} (h : Failed (parseSetOperation rx n string)) :
    FailsWithin rx string (parseSetOperation rx n string) := by
  induction n generalizing string with
  | zero =>
    rcases h with ⟨message, h⟩ | h
    · exact nomatch h
    · exact nomatch h
  | succ n ih =>
    rw [parseSetOperation] at h ⊢
    -- one case for each expression, in the order in which the call tries them
    cases hparens : regexec rx.parentheses string with
    | some m =>
      simp only [hparens] at h ⊢
      obtain ⟨content, hcopy, hcontent⟩ := h.bind (strCopyIdx_ne_outOfBounds _)
      rw [hcopy, ok_bind]
      exact (ih hcontent).head (.parentheses hparens hcopy)
    | none =>
      simp only [hparens] at h ⊢
      cases hname : regexec rx.setName string with
      | some m =>
        simp only [hname] at h
        obtain ⟨setName, -, hleave⟩ := h.bind (strCopyIdx_ne_outOfBounds _)
        exact absurd hleave (not_failed_ok _)
      | none =>
        simp only [hname] at h ⊢
        cases hcomplement :
          (regexec rx.setComplement1 string).or (regexec rx.setComplement2 string) with
        | some m =>
          simp only [hcomplement] at h ⊢
          obtain ⟨content, hcopy, hoperand⟩ := h.bind (strCopyIdx_ne_outOfBounds _)
          rw [hcopy, ok_bind]
          rcases hoperand.andThen with ⟨hfailed, heq⟩ | ⟨op, -, hfailed, -⟩
          · rw [parseComplement, heq]
            exact (ih hfailed).head (.complement hparens hname hcomplement hcopy)
          · exact absurd hfailed (not_failed_createSetOp _ _ _)
        | none =>
          simp only [hcomplement] at h ⊢
          cases hbinary : regexec rx.setBinaryOp string with
          | none =>
            exact (OperationText.unparsedString hparens hname hcomplement hbinary).failsWithin
          | some m =>
            simp only [hbinary] at h ⊢
            obtain ⟨opTypeString, hcopy₁, h⟩ := h.bind (strCopyIdx_ne_outOfBounds _)
            obtain ⟨content, hcopy₂, h⟩ := h.bind (strCopyIdx_ne_outOfBounds _)
            rw [hcopy₁, ok_bind, hcopy₂, ok_bind]
            have hop : ReadsOperation rx string opTypeString content :=
              ⟨hparens, hname, hcomplement, m, hbinary, hcopy₁, hcopy₂⟩
            exact parseBinaryOp_failed hop (fun _ hfailed => ih hfailed) h

/-- **A query fails with a text that is written.** -/
theorem parseEntireQuery_failed (h : Failed (parseEntireQuery queryRegex s)) :
    ∃ text, QueryText queryRegex s text ∧
      parseEntireQuery queryRegex s = Except.error <$> errorMessage text := by
  rcases finds_query s with ⟨m, ns, names, c, hm, hnames, hset, hcols, -⟩ | ⟨hm, -⟩
  · obtain ⟨n, b, t, ms, rfl, hn, hb, ht, rfl⟩ := hcols
    rw [parseEntireQuery, hm] at h ⊢
    simp only [hnames, hset, ok_bind, strCopy, parseColumnNames_eq hn hb ht] at h ⊢
    have hfailed : Failed (parseSetOperation queryRegex (c.length + 1) c) := by
      cases hparsed : parseSetOperation queryRegex (c.length + 1) c with
      | error e =>
        rw [hparsed, error_bind] at h
        rcases h with ⟨message, h⟩ | h
        · cases h
        · exact Or.inr (congrArg Except.error (Except.error.inj h))
      | ok parsed =>
        cases parsed with
        | error message => exact Or.inl ⟨message, rfl⟩
        | ok op =>
          simp only [hparsed, ok_bind, Bool.false_eq_true, if_false] at h
          split_ifs at h
          · rcases h with ⟨message, h⟩ | h
            · cases h
            · cases h
          · exact absurd h (not_failed_ok _)
    obtain ⟨string, text, hcalls, htext, heq⟩ := parseSetOperation_failed hfailed
    refine ⟨text, .setOperation ⟨m, c, hm, hset, hcalls⟩ htext, ?_⟩
    rw [heq]
    cases errorMessage text <;> rfl
  · refine ⟨_, .query hm, ?_⟩
    rw [parseEntireQuery, hm]

theorem errorMessage_of_length_lt (h : text.length < 200) : errorMessage text = .ok text := if_pos h

end Failures

/-- **The error texts of every message fit** that `handle_message` can read. -/
theorem queryTexts_fit (msg : Bytes) (hmsg : msg.length ≤ maxMessageSize) :
    QueryTextsFit (cstr msg) := by
  have hlen : (cstr msg).length ≤ 128 := (List.takeWhile_prefix _).length_le.trans hmsg
  have hfailed : Failed (parseQuery (cstr msg)) → ∃ text, QueryText queryRegex (cstr msg) text ∧
      parseQuery (cstr msg) = .ok (.error text) := by
    intro h
    rw [parseQuery_eq] at h ⊢
    obtain ⟨text, htext, heq⟩ := parseEntireQuery_failed h
    refine ⟨text, htext, ?_⟩
    rw [heq, errorMessage_of_length_lt (htext.length_lt hlen), map_ok]
  constructor
  · exact fun text htext => htext.length_lt hlen
  · intro string opTypeString content hcall hop
    have hname := hop.length_le
    have hstring := hcall.length_le
    rw [length_unknownOperation, length_str2upper]
    omega
  · intro message h
    obtain ⟨text, htext, heq⟩ := hfailed (Or.inl ⟨message, h⟩)
    obtain rfl := Except.error.inj (Except.ok.inj (h.symm.trans heq))
    exact htext
  · intro h
    obtain ⟨text, -, heq⟩ := hfailed (Or.inr h)
    exact nomatch h.symm.trans heq

/-- A message with the longest name of an operation. -/
def longestQuery : Bytes := lit "SELECT a FROM " ++ (List.replicate 110 (chr 'x') ++ lit "(a);")

/-- The longest text, of 197 bytes, is written and fits. -/
theorem queryTexts_fit_longest : longestQuery.length = maxMessageSize ∧
    QueryTextsFit (cstr longestQuery) ∧ ∃ text, QueryText queryRegex (cstr longestQuery) text ∧
      text.length = 197 := by
  have hlength : longestQuery.length = maxMessageSize := by decide +kernel
  have hblank : ([32] : Bytes) ≠ [] ∧ Spaces [32] := ⟨by decide, by simp [Spaces, IsSpace]⟩
  have hname : IsName (lit "a") := ⟨by decide, by decide +kernel⟩
  have hparts : QueryParts (cstr longestQuery) [lit "a"]
      (List.replicate 110 (chr 'x') ++ lit "(a)") :=
    ⟨[], lit "SELECT", [32], lit "a", [32], lit "FROM", [32], [], spaces_nil, rfl, hblank,
      ⟨lit "a", [], [], [], rfl, hname, spaces_nil, .nil, rfl⟩, hblank, rfl, hblank,
      by decide, spaces_nil, by decide⟩
  have henclosed : Enclosed (List.replicate 110 (chr 'x'))
      (List.replicate 110 (chr 'x') ++ lit "(a)") (lit "a") :=
    ⟨[], [], [], spaces_nil, spaces_nil, fun _ => rfl, spaces_nil, by decide,
      by decide⟩
  have htext := queryText_unknownOperation hparts (by decide) (by decide +kernel) henclosed
    (by decide)
  refine ⟨hlength, queryTexts_fit longestQuery hlength.le, _, htext, ?_⟩
  rw [length_unknownOperation, length_str2upper, List.length_replicate]

end SetQL
