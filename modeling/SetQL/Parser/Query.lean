import SetQL.Base.Posix
import SetQL.Query.RunQuery

/-!
# Parsing a query

`query_parser.c`: a query is matched as a whole, its column names are read one after the other, and
its set operation is parsed by trying five expressions in order. A function that fails writes the
text of its error into a buffer of 200 bytes.

## Main definitions

* `QueryRegex`, `initializeRegex`: the compiled expressions
* `findDelimiterIgnoringParenthesesContent`: the first delimiter outside all parentheses
* `parseColumnNames`, `parseSetOperation`, `parseEntireQuery`, `parseQuery`: the parser

## Main results

* `initializeRegex_eq`: all expressions compile
-/

namespace SetQL

/-! ## Strings -/

/-- `count_chars`. -/
def countChars (str : Bytes) (c : UInt8) : ℕ := str.count c

/-- `str2upper`. -/
def str2upper (str : Bytes) : Bytes := str.map toUpper

/-- `str_copy_idx` of the part matched by a group; the offsets of a group without a match fail its
assertion. -/
def strCopyIdx (str : Bytes) : Option (ℕ × ℕ) → C Bytes
  | none => .error .assertion
  | some (startIndex, endIndex) =>
    if startIndex ≤ str.length ∧ endIndex ≤ str.length then
      .ok ((str.take endIndex).drop startIndex)
    else .error .assertion

/-- The copy of a group, null for a group without a match. -/
def copyGroup (str : Bytes) (m : RegMatch) (g : ℕ) : C (Option Bytes) :=
  match m.group g with
  | none => .ok none
  | some part => some <$> strCopyIdx str (some part)

/-- `str_copy`, or any other read of a string through a pointer. -/
def strCopy : Option Bytes → C Bytes
  | none => .error .nullDeref
  | some s => .ok s

/-- `copy_string_array`. -/
def copyStringArray (strings : List (Option Bytes)) : C (List Bytes) := strings.mapM strCopy

/-- The text of an error, in a buffer of 200 bytes. -/
def errorMessage (text : Bytes) : C Bytes :=
  if text.length < 200 then .ok text else .error .outOfBounds

/-- The loop of `find_delimiter_ignoring_parentheses_content` from index `i`, within
`parenthesesCount` parentheses. -/
def findDelimiterFrom (delimiter : UInt8) : Bytes → ℕ → ℕ → Option ℕ
  | [], _, _ => none
  | c :: str, i, parenthesesCount =>
    if c = chr '(' then findDelimiterFrom delimiter str (i + 1) (parenthesesCount + 1)
    else if c = chr ')' then
      -- a count below zero ends the search
      if parenthesesCount = 0 then none
      else findDelimiterFrom delimiter str (i + 1) (parenthesesCount - 1)
    else if c = delimiter ∧ parenthesesCount = 0 then some i
    else findDelimiterFrom delimiter str (i + 1) parenthesesCount

/-- The index of the first delimiter outside all parentheses; `none` for the result -1. -/
def findDelimiterIgnoringParenthesesContent (str : Bytes) (delimiter : UInt8) : Option ℕ :=
  findDelimiterFrom delimiter str 0 0

/-- The type of an operation, 0 for an unknown one. -/
def string2opType (string : Bytes) : ℕ :=
  if string = lit "COMPLEMENT" then opComplement
  else if string = lit "UNION" then opUnion
  else if string = lit "INTERSECTION" then opIntersection
  else if string = lit "DIFFERENCE" then opDifference
  else 0

/-! ## Expressions -/

/-- The compiled expressions. -/
structure QueryRegex where
  columnNames : Pattern
  query : Pattern
  parentheses : Pattern
  setName : Pattern
  setComplement1 : Pattern
  setComplement2 : Pattern
  setBinaryOp : Pattern
  deriving DecidableEq, Repr

/-- `assert(regcomp(...) == 0)`. -/
def assertRegcomp (icase : Bool) (text : String) : C Pattern :=
  match regcomp icase text with
  | none => .error .assertion
  | some p => .ok p

/-- `initialize_regex`. -/
def initializeRegex : C QueryRegex := do
  let columnNames ← assertRegcomp true
    "^,?\\s*([a-zA-Z0-9_]+)\\s*((,\\s*[a-zA-Z0-9_]+\\s*)*)\\s*$"
  let query ← assertRegcomp true
    "^\\s*SELECT\\s+([a-zA-Z0-9_]+\\s*(,\\s*[a-zA-Z0-9_]+\\s*)*)\\s+FROM\\s+([^;]+);\\s*$"
  let parentheses ← assertRegcomp true "^\\s*\\(([^;]+)\\)\\s*$"
  let setName ← assertRegcomp true "^\\s*([a-zA-Z0-9_]+)\\s*$"
  let setComplement1 ← assertRegcomp true "^\\s*COMPLEMENT\\s+([a-zA-Z0-9_]+)\\s*$"
  let setComplement2 ← assertRegcomp true "^\\s*COMPLEMENT\\s*\\(([^;]+)\\)\\s*$"
  let setBinaryOp ← assertRegcomp true "^\\s*([a-zA-Z]+)\\s*\\(([^;]+)\\)\\s*$"
  return { columnNames, query, parentheses, setName, setComplement1, setComplement2, setBinaryOp }

/-! ## The parser -/

/-- The loop of `parse_column_names`: the next `n` names from the cursor, null from the first one
that does not match, and whether there was one. -/
def columnNamesFrom (rx : QueryRegex) : ℕ → Bytes → C (List (Option Bytes) × Bool)
  | 0, _ => .ok ([], false)
  | n + 1, cursor =>
    match regexec rx.columnNames cursor with
    | none => .ok (List.replicate (n + 1) none, true)
    | some m => do
      let group1 ← copyGroup cursor m 1
      let name ← strCopy group1
      match m.group 2 with
      | none => .error .undefined
      | some (offset, _) => do
        let rest ← columnNamesFrom rx n (cursor.drop offset)
        return (some name :: rest.1, rest.2)

/-- The column names, and whether there was an error; a name that was not read is copied all the
same. -/
def parseColumnNames (rx : QueryRegex) (str : Bytes) : C (List Bytes × Bool) := do
  let length := countChars str (chr ',') + 1
  let dataValues ← columnNamesFrom rx length str
  let columnNames ← copyStringArray dataValues.1
  return (columnNames, dataValues.2)

/-- The rest of a parser after one of its parts; a null part makes the whole null. -/
def andThen (part : C (Except Bytes SetOp)) (rest : SetOp → C (Except Bytes SetOp)) :
    C (Except Bytes SetOp) := do
  match ← part with
  | .error message => return .error message
  | .ok op => rest op

/-- The tree of a complement, from the parser of its operand. -/
def parseComplement (parse : Bytes → C (Except Bytes SetOp)) (content : Bytes) :
    C (Except Bytes SetOp) :=
  andThen (parse content) fun op => Except.ok <$> createSetOp op .null opComplement

/-- The tree of an operation with two operands, from the parser of its operands. -/
def parseBinaryOp (parse : Bytes → C (Except Bytes SetOp)) (opTypeString content : Bytes) :
    C (Except Bytes SetOp) :=
  let opTypeString := str2upper opTypeString
  let opType := string2opType opTypeString
  if opType = 0 then
    Except.error <$> errorMessage (lit "Error parsing: \"" ++ opTypeString ++
      lit "\" is not a set operation (COMPLEMENT, UNION, INTERSECTION, DIFFERENCE).")
  else
    match findDelimiterIgnoringParenthesesContent content (chr ',') with
    | none =>
      Except.error <$> errorMessage (lit "Error parsing: Missing comma. Expected format: " ++
        opTypeString ++ lit " (<op_set>, <op_set)")
    | some splitIndex =>
      andThen (parse (content.take splitIndex)) fun leftOp =>
        andThen (parse (content.drop (splitIndex + 1))) fun rightOp =>
          Except.ok <$> createSetOp leftOp rightOp opType

/-- The parser of set operations: a tree, or the text of the error that made it null. The fuel
bounds the depth of the recursion. -/
def parseSetOperation (rx : QueryRegex) : ℕ → Bytes → C (Except Bytes SetOp)
  | 0, _ => .error .undefined
  | fuel + 1, string =>
    match regexec rx.parentheses string with
    | some m => do
      let stringWithoutParentheses ← strCopyIdx string (m.group 1)
      parseSetOperation rx fuel stringWithoutParentheses
    | none =>
    match regexec rx.setName string with
    | some m => do
      let setName ← strCopyIdx string (m.group 1)
      return .ok (createSetOpLeave setName)
    | none =>
    match (regexec rx.setComplement1 string).or (regexec rx.setComplement2 string) with
    | some m => do
      let content ← strCopyIdx string (m.group 1)
      parseComplement (parseSetOperation rx fuel) content
    | none =>
    match regexec rx.setBinaryOp string with
    | some m => do
      let opTypeString ← strCopyIdx string (m.group 1)
      let content ← strCopyIdx string (m.group 2)
      parseBinaryOp (parseSetOperation rx fuel) opTypeString content
    | none => Except.error <$> errorMessage (lit "Error parsing string=" ++ string)

/-- The parser of a query: a query, or the text of the error. A null tree without an error text
would print an unwritten buffer. -/
def parseEntireQuery (rx : QueryRegex) (queryString : Bytes) : C (Except Bytes Query) :=
  match regexec rx.query queryString with
  | none => Except.error <$> errorMessage
      (lit "Error parsing the query. Does not match the pattern: SELECT <name_1>, ... FROM <set_operation> ;")
  | some m => do
    let group1 ← copyGroup queryString m 1
    let group3 ← copyGroup queryString m 3
    let columnNames ← strCopy group1
    let parsed ← parseColumnNames rx columnNames
    let setOperation ← strCopy group3
    match ← parseSetOperation rx (setOperation.length + 1) setOperation with
    | .error message => return .error message
    | .ok op =>
      if op = .null then .error .undefined
      else if parsed.2 then
        Except.error <$> errorMessage (lit "Error parsing column names in the query.")
      else return .ok ⟨parsed.1, op⟩

/-- `parse_query`: `.ok q` for the result 0, and the printed error for the result 1. -/
def parseQuery (queryString : Bytes) : C (Except Bytes Query) := do
  let rx ← initializeRegex
  parseEntireQuery rx queryString

/-! ## The compiled expressions -/

/-- `\s*` and then an expression. -/
def spacesThen (r : Regex) : Regex := .seq (.star (.set (spaceSet true))) r

/-- `\s+` and then an expression. -/
def spaces1Then (r : Regex) : Regex := .seq (.plus (.set (spaceSet true))) r

/-- A character and then an expression. -/
def charThen (c : Char) (r : Regex) : Regex := .seq (.set (literal true (chr c))) r

/-- `[a-zA-Z0-9_]`. -/
def nameSet : ByteSet :=
  ⟨false, true, [(chr 'a', chr 'z'), (chr 'A', chr 'Z'), (chr '0', chr '9'), (chr '_', chr '_')]⟩

/-- `[a-zA-Z]`. -/
def letterSet : ByteSet := ⟨false, true, [(chr 'a', chr 'z'), (chr 'A', chr 'Z')]⟩

/-- `[^;]`. -/
def contentSet : ByteSet := ⟨true, true, [(chr ';', chr ';')]⟩

/-- `(,\s*[a-zA-Z0-9_]+\s*)*`, with its group. -/
def columnTailRegex (n : ℕ) : Regex :=
  .star (.group n (charThen ',' (spacesThen (.seq (.plus (.set nameSet))
    (.star (.set (spaceSet true)))))))

/-- `\(([^;]+)\)\s*`, with its group. -/
def contentRegex (n : ℕ) : Regex :=
  charThen '(' (.seq (.group n (.plus (.set contentSet)))
    (charThen ')' (.star (.set (spaceSet true)))))

/-- The expressions as they are compiled. -/
def queryRegex : QueryRegex where
  columnNames := ⟨true, .seq (.opt (.set (literal true (chr ','))))
    (spacesThen (.seq (.group 1 (.plus (.set nameSet)))
      (spacesThen (.seq (.group 2 (columnTailRegex 3)) (.star (.set (spaceSet true))))))), true⟩
  query := ⟨true, spacesThen (.word true (lit "SELECT") (spaces1Then
    (.seq (.group 1 (.seq (.plus (.set nameSet)) (spacesThen (columnTailRegex 2))))
      (spaces1Then (.word true (lit "FROM") (spaces1Then
        (.seq (.group 3 (.plus (.set contentSet)))
          (charThen ';' (.star (.set (spaceSet true))))))))))), true⟩
  parentheses := ⟨true, spacesThen (contentRegex 1), true⟩
  setName := ⟨true, spacesThen (.seq (.group 1 (.plus (.set nameSet)))
    (.star (.set (spaceSet true)))), true⟩
  setComplement1 := ⟨true, spacesThen (.word true (lit "COMPLEMENT") (spaces1Then
    (.seq (.group 1 (.plus (.set nameSet))) (.star (.set (spaceSet true)))))), true⟩
  setComplement2 := ⟨true, spacesThen (.word true (lit "COMPLEMENT")
    (spacesThen (contentRegex 1))), true⟩
  setBinaryOp := ⟨true, spacesThen (.seq (.group 1 (.plus (.set letterSet)))
    (spacesThen (contentRegex 2))), true⟩

/-- **All expressions compile.** -/
theorem initializeRegex_eq : initializeRegex = .ok queryRegex := by decide +kernel

end SetQL
