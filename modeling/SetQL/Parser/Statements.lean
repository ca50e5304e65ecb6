import SetQL.Parser.Query
import SetQL.Parser.Grammar
import SetQL.Parser.Universe

/-!
# Parsing the statements of an initialization file

`parser.c`: the five kinds of statements, `CREATE UNIVERSE`, `CREATE ATTRIBUTES`, `INSERT` into the
universe, `CREATE SET` and `INSERT` into a set. The rows of an insertion are counted first, by their
delimiters, and then read one after the other from a cursor that moves behind each match. A parser
that fails leaves the text of its error in a buffer of 200 bytes, and the universe as it then is.

## Main definitions

* `ParserRegex`, `initializeParserRegex`: the compiled expressions
* `countDelimiter`, `countDelimiterIgnoringParenthesesContent`: the counts of delimiters
* `parseValue`: the value of a text, by its type
* `parseUniverseDefinition`, `parseAttributesDefinition`, `parseUniverseInsert`, `parseCreateSet`,
  `parseSetInsert`: the parsers of the statements
* `parserRegex`: the expressions as they are compiled

## Main results

* `initializeParserRegex_eq`: all expressions compile
-/

namespace SetQL

/-- A double quote. -/
def quote : UInt8 := 34

/-- `:`. -/
def colon : UInt8 := 58

/-! ## Counting -/

/-- The loop of `count_delimiter`, after a byte, inside or outside of quotes. -/
def countDelimiterFrom (delimiter : UInt8) : UInt8 → Bool → Bytes → ℕ
  | _, _, [] => 0
  | previousChar, insideString, currentChar :: str =>
    if currentChar = quote ∧ previousChar ≠ backslash then
      countDelimiterFrom delimiter currentChar (!insideString) str
    else if insideString = false ∧ currentChar = delimiter then
      countDelimiterFrom delimiter currentChar insideString str + 1
    else countDelimiterFrom delimiter currentChar insideString str

/-- `count_delimiter`. -/
def countDelimiter (str : Bytes) (delimiter : UInt8) : ℕ := countDelimiterFrom delimiter 0 false str

/-- The loop of `count_delimiter_ignoring_parentheses_content`; parentheses count inside of quotes
as well. -/
def countDelimiterIgnoringFrom (delimiter : UInt8) : UInt8 → Bool → Bool → Bytes → ℕ
  | _, _, _, [] => 0
  | previousChar, insideString, insideParentheses, currentChar :: str =>
    if currentChar = quote ∧ previousChar ≠ backslash then
      countDelimiterIgnoringFrom delimiter currentChar (!insideString) insideParentheses str
    else if insideParentheses = false ∧ currentChar = openParen then
      countDelimiterIgnoringFrom delimiter currentChar insideString true str
    else if insideParentheses = true ∧ currentChar = closeParen then
      countDelimiterIgnoringFrom delimiter currentChar insideString false str
    else if insideString = false ∧ insideParentheses = false ∧ currentChar = delimiter then
      countDelimiterIgnoringFrom delimiter currentChar insideString insideParentheses str + 1
    else countDelimiterIgnoringFrom delimiter currentChar insideString insideParentheses str

/-- `count_delimiter_ignoring_parentheses_content`. -/
def countDelimiterIgnoringParenthesesContent (str : Bytes) (delimiter : UInt8) : ℕ :=
  countDelimiterIgnoringFrom delimiter 0 false false str

/-! ## Types -/

/-- The types of values; `NO_TYPE` is the absence of one. -/
inductive DataType
  | string
  | integer
  | float
  deriving DecidableEq, Repr

/-- `type_name2data_type`. -/
def typeName2dataType (typeName : Bytes) : Option DataType :=
  let typeNameUppercase := str2upper typeName
  if typeNameUppercase = lit "STRING" then some .string
  else if typeNameUppercase = lit "INTEGER" then some .integer
  else if typeNameUppercase = lit "FLOAT" then some .float
  else none

/-! ## Sets -/

/-- `universe_set_position`; `none` for the result `MAX_ULONG`. -/
def universeSetPosition (u : Universe) (setName : Bytes) : Option ℕ :=
  u.sets.findIdx? fun set => set.name = setName

/-- `exists_universe_set`. -/
def existsUniverseSet (u : Universe) (setName : Bytes) : Bool :=
  (universeSetPosition u setName).isSome

/-- `initialize_sets`. -/
def initializeSets (u : Universe) (length : ℕ) : Universe :=
  { u with sets := List.replicate length ⟨[], []⟩ }

/-- The list with null rows behind its rows. -/
def ArrayList.grow (values : ArrayList) (length : ℕ) : ArrayList :=
  values ++ List.replicate length none

/-! ## Expressions -/

/-- The compiled expressions. -/
structure ParserRegex where
  valueType : Pattern
  universeDefinition : Pattern
  attributesDefinition : Pattern
  str1 : Pattern
  str2 : Pattern
  int1 : Pattern
  int2 : Pattern
  universeValues : Pattern
  universeInsertSupp : Pattern
  universeInsert : Pattern
  createSet : Pattern
  setInsert : Pattern
  deriving DecidableEq, Repr

/-- `any_value`. -/
def anyValue : String := "(([a-zA-Z0-9_.+\\-]+)|(\"(([^\"\\\\]|(\\\\.))+)\"))"

/-- `initialize_regex` of the parser of initialization files. -/
def initializeParserRegex : C ParserRegex := do
  let valueType ← assertRegcomp true ",?\\s*(\\w+)\\s+(\\w+)\\s*((,\\s*\\w+\\s+\\w+\\s*)*)"
  let universeDefinition ← assertRegcomp true
    "\\s*CREATE\\s+UNIVERSE\\s+(\\w+)\\s*\\(\\s*(\\w+\\s+\\w+\\s*(,\\s*\\w+\\s+\\w+\\s*)*)\\)\\s*"
  let attributesDefinition ← assertRegcomp true
    "\\s*CREATE\\s+ATTRIBUTES\\s+(\\w+)\\s*\\(\\s*(\\w+\\s+\\w+\\s*(,\\s*\\w+\\s+\\w+\\s*)*)\\)\\s*"
  let str1 ← assertRegcomp false "\\s*\"(([^\"\\]|(\\\\.))+)\"\\s*"
  let str2 ← assertRegcomp false "\\s*'(([^'\\]|(\\\\.))+)'\\s*"
  let int1 ← assertRegcomp false "\\s*[-]\\s*([0-9]+)\\s*"
  let int2 ← assertRegcomp false "\\s*[+]?\\s*([0-9]+)\\s*"
  let universeValues ← assertRegcomp true
    ("^\\s*[(,]?\\s*" ++ anyValue ++ "\\s*((,\\s*" ++ anyValue ++ "\\s*)*)")
  let universeInsertSupp ← assertRegcomp true
    ("^,?\\s*((" ++ anyValue ++ ")|(\\(" ++ anyValue ++ "(\\s*,\\s*" ++ anyValue ++ ")*\\)))\\s*")
  let universeInsert ← assertRegcomp true
    "\\s*INSERT\\s*\\\x7b([^;]+)\\\x7d\\s*INTO\\s+(\\w+)\\s*"
  let createSet ← assertRegcomp true "^\\s*CREATE\\s+SET\\s+([a-zA-Z0-9_]+)\\s*$"
  let setInsert ← assertRegcomp true
    "^\\s*INSERT\\s*\\\x7b([^;]+)\\\x7d\\s*INTO\\s+([a-zA-Z0-9_]+)\\s*$"
  return { valueType, universeDefinition, attributesDefinition, str1, str2, int1, int2,
           universeValues, universeInsertSupp, universeInsert, createSet, setInsert }

/-- A universe, and the text of the error for the result 1. -/
abbrev Parsed := Universe × Option Bytes

/-- The rest of a parser after a part that returns an error. -/
def Parsed.andThen (part : C Parsed) (rest : Universe → C Parsed) : C Parsed := do
  match ← part with
  | (u, some message) => return (u, some message)
  | (u, none) => rest u

/-! ## Definitions -/

/-- A column that is read: its name and its type, and the text after it. -/
def nextColumn (rx : ParserRegex) (cursor : Bytes) : C (Option (Bytes × Bytes × Bytes)) :=
  match regexec rx.valueType cursor with
  | none => .ok none
  | some m => do
    let group1 ← copyGroup cursor m 1
    let group2 ← copyGroup cursor m 2
    let name ← strCopy group1
    let type ← strCopy group2
    match m.group 3 with
    | none => .error .undefined
    | some (offset, _) => return some (name, type, cursor.drop offset)

/-- The loop of the definitions: the next `n` names and types from the cursor, null from the first
one that does not match, and whether there was one. -/
def columnsFrom (rx : ParserRegex) : ℕ → Bytes → C (List (Option Bytes) × List (Option Bytes) × Bool)
  | 0, _ => .ok ([], [], false)
  | n + 1, cursor => do
    match ← nextColumn rx cursor with
    | none => return (List.replicate (n + 1) none, List.replicate (n + 1) none, true)
    | some (name, type, cursor) =>
      let (names, types, error) ← columnsFrom rx n cursor
      return (some name :: names, some type :: types, error)

/-- The types, the names and whether there was an error; what was not read is copied all the
same. -/
def parseValueType (rx : ParserRegex) (str : Bytes) : C (List Bytes × List Bytes × Bool) := do
  let dataTypeLength := countDelimiter str comma + 1
  let (names, types, error) ← columnsFrom rx dataTypeLength str
  let dataTypeNames ← copyStringArray types
  let dataNames ← copyStringArray names
  return (dataTypeNames, dataNames, error)

/-- `parse_universe_value_type`. -/
def parseUniverseValueType (rx : ParserRegex) (u : Universe) (str : Bytes) : C Parsed := do
  let (keyDataTypeNames, keyDataNames, error) ← parseValueType rx str
  let u := { u with keyDataTypeNames, keyDataNames }
  return (u, if error then
    some (lit "Error parsing the universe definition. Usage: CREATE UNIVERSE <universe_name>(<value_name_1> <data_type_1>, <value_name_2> <data_type_2>);")
  else none)

/-- `parse_attributes_value_type`. -/
def parseAttributesValueType (rx : ParserRegex) (u : Universe) (str : Bytes) : C Parsed := do
  let (attributeDataTypeNames, attributeDataNames, error) ← parseValueType rx str
  let u := { u with attributeDataTypeNames, attributeDataNames }
  return (u, if error then
    some (lit "Error parsing the attribute values in the attribute definition. Usage: CREATE ATTRIBUTES <universe_name>(<value_name_1> <data_type_1>, <value_name_2> <data_type_2>);")
  else none)

/-- `parse_universe_definition`. -/
def parseUniverseDefinition (rx : ParserRegex) (u : Universe) (str : Bytes) : C Parsed :=
  match regexec rx.universeDefinition str with
  | none => return (u, some (lit "Error parsing the universe definition. Usage: CREATE UNIVERSE <universe_name>(<value_name_1> <data_type_1>);"))
  | some m => do
    let group1 ← copyGroup str m 1
    let group2 ← copyGroup str m 2
    let universeName ← strCopy group1
    if 256 ≤ universeName.length then
      return (u, some (lit "Error parsing the universe definition: <universe_name> too long (max 256)."))
    else
      let columns ← strCopy group2
      parseUniverseValueType rx { u with name := universeName } columns

/-- `parse_attributes_definition`. -/
def parseAttributesDefinition (rx : ParserRegex) (u : Universe) (str : Bytes) : C Parsed :=
  match regexec rx.attributesDefinition str with
  | none => return (u, some (lit "Error parsing the attributes definition. Usage: CREATE ATTRIBUTES <universe_name>(<value_name_1> <data_type_1>);"))
  | some m => do
    let group1 ← copyGroup str m 1
    let group2 ← copyGroup str m 2
    let universeName ← strCopy group1
    if u.name ≠ universeName then
      return (u, some (lit "Error parsing the attributes definition: Incorrect <universe_name>"))
    else
      let columns ← strCopy group2
      parseAttributesValueType rx u columns

/-! ## Values -/

/-- The copy of the first group of a match, null if there is none. -/
def matchedGroup1 (p : Pattern) (stringValue : Bytes) : C (Option Bytes) :=
  match regexec p stringValue with
  | none => .ok none
  | some m => do
    let group1 ← copyGroup stringValue m 1
    some <$> strCopy group1

/-- `parse_string`. -/
def parseString (rx : ParserRegex) (stringValue : Bytes) : C (Option Bytes) :=
  matchedGroup1 rx.str1 stringValue

/-- `parse_integer`. -/
def parseInteger (rx : ParserRegex) (stringValue : Bytes) : C (Option Bytes) := do
  match ← matchedGroup1 rx.int1 stringValue with
  | some digits => return some (chr '-' :: digits)
  | none => matchedGroup1 rx.int2 stringValue

/-- `parse_float`. -/
def parseFloat (rx : ParserRegex) (stringValue : Bytes) : C (Option Bytes) :=
  parseInteger rx stringValue

/-- `parse_value`; without a type the text is not read, and may be null. -/
def parseValue (rx : ParserRegex) (stringValue : Option Bytes) : Option DataType → C (Option Bytes)
  | none => .ok none
  | some dataType =>
    match stringValue with
    | none => .error .undefined
    | some stringValue =>
      match dataType with
      | .string => parseString rx stringValue
      | .integer => parseInteger rx stringValue
      | .float => parseFloat rx stringValue

/-- A value that is read, and the text after it. -/
def nextValue (rx : ParserRegex) (cursor : Bytes) : C (Option (Bytes × Bytes)) :=
  match regexec rx.universeValues cursor with
  | none => .ok none
  | some m => do
    let group1 ← copyGroup cursor m 1
    let value ← strCopy group1
    match m.group 7 with
    | none => .error .undefined
    | some (offset, _) => return some (value, cursor.drop offset)

/-- The loop over the texts of the values: the next `n` from the cursor, null from the first one
that does not match, and whether there was one. -/
def valuesFrom (rx : ParserRegex) : ℕ → Bytes → C (List (Option Bytes) × Bool)
  | 0, _ => .ok ([], false)
  | n + 1, cursor => do
    match ← nextValue rx cursor with
    | none => return (List.replicate (n + 1) none, true)
    | some (value, cursor) =>
      let (values, error) ← valuesFrom rx n cursor
      return (some value :: values, error)

/-- The loop over the values: each is parsed by its type, and the first one that does not parse is
named in the error. -/
def parseValues (rx : ParserRegex) (kind : Bytes) :
    List (Option Bytes) → List Bytes → C (Except Bytes (List Bytes))
  | [], _ => .ok (.ok [])
  | _ :: _, [] => .error .outOfBounds
  | value :: values, typeName :: typeNames => do
    match ← parseValue rx value (typeName2dataType typeName) with
    | none =>
      -- a null text is an argument of `%s`
      match value with
      | none => .error .undefined
      | some value =>
        Except.error <$> errorMessage (lit "Error parsing " ++ kind ++ lit " value " ++ value ++
          lit " of type " ++ typeName ++ lit ".")
    | some parsed =>
      let rest ← parseValues rx kind values typeNames
      return rest.map (parsed :: ·)

/-- The row of a text with `dataTypeLength` values: the values are counted, read and parsed; the
assertions come between the reading and the parsing. -/
def parseRow (rx : ParserRegex) (wrongAmount kind : Bytes) (dataTypeNames : List Bytes)
    (dataTypeLength : ℕ) (assertions : Bool) (str : Bytes) : C (Except Bytes (List Bytes)) :=
  if dataTypeLength ≠ countDelimiter str comma + 1 then return .error wrongAmount
  else do
    let (dataValues, error) ← valuesFrom rx dataTypeLength str
    if !assertions then .error .assertion
    else
      match ← parseValues rx kind dataValues dataTypeNames with
      | .error message => return .error message
      | .ok row => return if error then .error (lit "Error parsing the values.") else .ok row

/-- `parse_universe_values` of a key. -/
def parseUniverseKeys (rx : ParserRegex) (u : Universe) (str : Bytes) (dataTypeLength dataIndex : ℕ) :
    C Parsed := do
  match ← parseRow rx (lit "Error parsing values: Wrong amount of values") (lit "key")
      u.keyDataTypeNames dataTypeLength
      (dataIndex < u.keyValues.length && dataTypeLength == u.keyDataTypeNames.length) str with
  | .error message => return (u, some message)
  | .ok row => return ({ u with keyValues := u.keyValues.set dataIndex (some row) }, none)

/-- `parse_universe_values` of the attributes. -/
def parseUniverseAttributes (rx : ParserRegex) (u : Universe) (str : Bytes)
    (dataTypeLength dataIndex : ℕ) : C Parsed := do
  match ← parseRow rx (lit "Error parsing values: Wrong amount of values") (lit "attribute")
      u.attributeDataTypeNames dataTypeLength
      (dataIndex < u.attributeValues.length && dataTypeLength == u.attributeDataTypeNames.length)
      str with
  | .error message => return (u, some message)
  | .ok row =>
    return ({ u with attributeValues := u.attributeValues.set dataIndex (some row) }, none)

/-- `parse_universe_values`. -/
def parseUniverseValues (rx : ParserRegex) (u : Universe) (str : Bytes)
    (dataTypeLength dataIndex : ℕ) (isKeyValue : Bool) : C Parsed :=
  if isKeyValue then parseUniverseKeys rx u str dataTypeLength dataIndex
  else parseUniverseAttributes rx u str dataTypeLength dataIndex

/-- `parse_set_values`. -/
def parseSetValues (rx : ParserRegex) (u : Universe) (str : Bytes) (dataIndex setIndex : ℕ) :
    C Parsed := do
  match ← parseRow rx (lit "Error parsing set values: Wrong amount of values") (lit "key")
      u.keyDataTypeNames u.keyDataTypeNames.length
      (dataIndex < u.keyValues.length && setIndex < u.sets.length) str with
  | .error message => return (u, some message)
  | .ok row => do
    let set ← fetch u.sets setIndex
    let keyValues ← store set.keyValues dataIndex (some row)
    return ({ u with sets := u.sets.set setIndex { set with keyValues } }, none)

/-! ## Insertions -/

/-- An item of an insertion that is read: the text of its values, and where it ends. -/
def nextItem (rx : ParserRegex) (cursor : Bytes) : C (Option (Bytes × ℕ)) :=
  match regexec rx.universeInsertSupp cursor with
  | none => .ok none
  | some m => do
    let group1 ← copyGroup cursor m 1
    let valuesString ← strCopy group1
    return some (valuesString, m.stop)

/-- The text of an error in a row. -/
def rowError (before : Bytes) (i : ℕ) (after : Bytes) : C (Option Bytes) :=
  some <$> errorMessage (before ++ lit (toString i) ++ after)

/-- The loop of `parse_universe_insert_supp`: the next `n` rows from the cursor, into the rows from
`i` on. -/
def universeRowsFrom (rx : ParserRegex) : ℕ → ℕ → Bytes → Universe → C Parsed
  | 0, _, _, u => .ok (u, none)
  | n + 1, i, cursor, u => do
    match ← nextItem rx cursor with
    | none =>
      return (u, ← rowError (lit "Error parsing key values in row ") i (lit " at insert supp."))
    | some (keyValuesString, offset) =>
      -- an item is not empty, so there is a byte before its end
      if cursor[offset - 1]?.getD 0 = 0 ∨ cursor[offset]? ≠ some colon then
        return (u, ← rowError (lit "Error parsing values in row ") i
          (lit " at insert supp. Expected character ':' missing."))
      else
        Parsed.andThen (parseUniverseValues rx u keyValuesString u.keyDataNames.length i true)
          fun u => do
          let cursor := cursor.drop (offset + 1)
          match ← nextItem rx cursor with
          | none =>
            return (u, ← rowError (lit "Error parsing attribute values in row ") i
              (lit " at insert supp."))
          | some (attributeValuesString, offset) =>
            Parsed.andThen
              (parseUniverseValues rx u attributeValuesString u.attributeDataNames.length i false)
              fun u => universeRowsFrom rx n (i + 1) (cursor.drop offset) u

/-- `parse_universe_insert_supp`. -/
def parseUniverseInsertSupp (rx : ParserRegex) (u : Universe) (str : Bytes) : C Parsed :=
  let dataLength := countDelimiter str colon
  if u.keyValues.length ≠ u.attributeValues.length then .error .assertion
  else
    let firstDataIndex := u.keyValues.length
    let u := { u with keyValues := u.keyValues.grow dataLength
                      attributeValues := u.attributeValues.grow dataLength }
    universeRowsFrom rx dataLength firstDataIndex str u

/-- `parse_universe_insert`. -/
def parseUniverseInsert (rx : ParserRegex) (u : Universe) (str : Bytes) : C Parsed :=
  match regexec rx.universeInsert str with
  | none => return (u, some (lit "Error parsing the universe insert."))
  | some m => do
    let group1 ← copyGroup str m 1
    let group2 ← copyGroup str m 2
    let universeName ← strCopy group2
    if u.name ≠ universeName then
      return (u, some (lit "Error parsing the universe insert: Incorrect <universe_name>"))
    else
      let items ← strCopy group1
      parseUniverseInsertSupp rx u items

/-- `parse_create_set`. -/
def parseCreateSet (rx : ParserRegex) (u : Universe) (str : Bytes) (setIndex : ℕ) : C Parsed :=
  match regexec rx.createSet str with
  | none => return (u, some (lit "Error parsing the create set."))
  | some m => do
    let group1 ← copyGroup str m 1
    let setName ← strCopy group1
    if 256 ≤ setName.length then .error .assertion
    else if existsUniverseSet u setName then
      let message ← errorMessage
        (lit "Error creating set. Set \"" ++ setName ++ lit "\" already exists.")
      return (u, some message)
    else if u.name = setName then
      return (u, some (lit "Error creating set. Sets cannot have the same name as the universe."))
    else
      match u.sets[setIndex]? with
      | none => .error .assertion
      | some set => return ({ u with sets := u.sets.set setIndex { set with name := setName } }, none)

/-- The loop of `parse_set_insert_supp`: the next `n` rows from the cursor, into the rows of the set
from `i` on. -/
def setRowsFrom (rx : ParserRegex) (setIndex : ℕ) : ℕ → ℕ → Bytes → Universe → C Parsed
  | 0, _, _, u => .ok (u, none)
  | n + 1, i, cursor, u => do
    match ← nextItem rx cursor with
    | none =>
      return (u, ← rowError (lit "Error parsing key values in row ") i (lit " at insert set supp."))
    | some (keyValuesString, offset) =>
      Parsed.andThen (parseSetValues rx u keyValuesString i setIndex) fun u =>
        setRowsFrom rx setIndex n (i + 1) (cursor.drop offset) u

/-- `parse_set_insert_supp`. -/
def parseSetInsertSupp (rx : ParserRegex) (u : Universe) (str : Bytes) (setIndex : ℕ) : C Parsed :=
  let length := countDelimiterIgnoringParenthesesContent str comma + 1
  if u.keyValues.length < length then .error .assertion
  else do
    let set ← fetch u.sets setIndex
    -- the rows that the set has are kept if the universe has keys
    let previous := if u.keyValues.length = 0 then [] else set.keyValues
    let u := { u with
      sets := u.sets.set setIndex { set with keyValues := ArrayList.grow previous length } }
    setRowsFrom rx setIndex length previous.length str u

/-- `parse_set_insert`. -/
def parseSetInsert (rx : ParserRegex) (u : Universe) (str : Bytes) : C Parsed :=
  match regexec rx.universeInsert str with
  | none => return (u, some (lit "Error parsing the set insert."))
  | some m => do
    let group1 ← copyGroup str m 1
    let group2 ← copyGroup str m 2
    let setName ← strCopy group2
    match universeSetPosition u setName with
    | none =>
      let message ← errorMessage
        (lit "Error parsing set insert. Set \"" ++ setName ++ lit "\" does not exist")
      return (u, some message)
    | some setIndex =>
      let items ← strCopy group1
      parseSetInsertSupp rx u items setIndex

/-! ## The compiled expressions -/

/-- `\w+\s+\w+` and then an expression. -/
def columnThen (r : Regex) : Regex :=
  .seq (.plus (.set nameSet)) (spaces1Then (.seq (.plus (.set nameSet)) r))

/-- `(,\s*\w+\s+\w+\s*)*`, with its group. -/
def columnsTailRegex (n : ℕ) : Regex :=
  .star (.group n (charThen ',' (spacesThen (columnThen (.star (.set (spaceSet true)))))))

/-- `\s*CREATE\s+word\s+(\w+)\s*\(\s*(\w+\s+\w+\s*(,\s*\w+\s+\w+\s*)*)\)\s*`. -/
def definitionRegex (word : Bytes) : Regex :=
  spacesThen (.word true (lit "CREATE") (spaces1Then (.word true word (spaces1Then
    (.seq (.group 1 (.plus (.set nameSet))) (spacesThen (charThen '(' (spacesThen
      (.seq (.group 2 (columnThen (spacesThen (columnsTailRegex 3))))
        (charThen ')' (.star (.set (spaceSet true)))))))))))))

/-- `[a-zA-Z0-9_.+\-]`, with a backslash. -/
def bareSet : ByteSet :=
  ⟨false, true, [(chr 'a', chr 'z'), (chr 'A', chr 'Z'), (chr '0', chr '9'), (chr '_', chr '_'),
    (chr '.', chr '.'), (chr '+', chr '+'), (backslash, backslash), (chr '-', chr '-')]⟩

/-- `[^"\\]`. -/
def unquotedSet : ByteSet :=
  ⟨true, true, [(quote, quote), (backslash, backslash), (backslash, backslash)]⟩

/-- `[(,]`. -/
def openingSet : ByteSet := ⟨false, true, [(openParen, openParen), (comma, comma)]⟩

/-- Any byte. -/
def anySet (icase : Bool) : ByteSet := ⟨true, icase, []⟩

/-- `(([^x]|(\\.))+)` and then an expression, with the first of its three groups. -/
def stringBodyThen (icase : Bool) (x : ByteSet) (n : ℕ) (r : Regex) : Regex :=
  .seq (.group n (.plus (.group (n + 1) (.alt (.set x)
    (.group (n + 2) (.seq (.set (literal icase backslash)) (.set (anySet icase)))))))) r

/-- `any_value`, with the first of its six groups. -/
def anyRegex (n : ℕ) : Regex :=
  .group n (.alt (.group (n + 1) (.plus (.set bareSet)))
    (.group (n + 2) (.seq (.set (literal true quote))
      (stringBodyThen true unquotedSet (n + 3) (.set (literal true quote))))))

/-- `(,\s*any_value\s*)*`, with its group. -/
def valuesTailRegex (n : ℕ) : Regex :=
  .star (.group n (charThen ',' (spacesThen (.seq (anyRegex (n + 1)) (.star (.set (spaceSet true)))))))

/-- `\(any_value(\s*,\s*any_value)*\)`, with the first of its groups. -/
def tupleRegex (n : ℕ) : Regex :=
  .group n (charThen '(' (.seq (anyRegex (n + 1)) (.seq
    (.star (.group (n + 7) (spacesThen (charThen ',' (spacesThen (anyRegex (n + 8)))))))
    (.set (literal true (chr ')'))))))

/-- `\s*INSERT\s*\{([^;]+)\}\s*INTO\s+(\w+)\s*`. -/
def insertRegex : Regex :=
  spacesThen (.word true (lit "INSERT") (spacesThen (.seq (.set (literal true 123))
    (.seq (.group 1 (.plus (.set contentSet))) (.seq (.set (literal true 125))
      (spacesThen (.word true (lit "INTO") (spaces1Then
        (.seq (.group 2 (.plus (.set nameSet))) (.star (.set (spaceSet true))))))))))))

/-- `[0-9]`. -/
def digitSet : ByteSet := ⟨false, false, [(chr '0', chr '9')]⟩

/-- `\s*([0-9]+)\s*`. -/
def digitsRegex : Regex :=
  .seq (.star (.set (spaceSet false)))
    (.seq (.group 1 (.plus (.set digitSet))) (.star (.set (spaceSet false))))

/-- `\s*q(([^q\]|(\\.))+)q\s*` for a quotation mark. -/
def quotedRegex (q : UInt8) : Regex :=
  .seq (.star (.set (spaceSet false))) (.seq (.set (literal false q))
    (stringBodyThen false ⟨true, false, [(q, q), (backslash, backslash)]⟩ 1
      (.seq (.set (literal false q)) (.star (.set (spaceSet false))))))

/-- The expressions as they are compiled. -/
def parserRegex : ParserRegex where
  valueType := ⟨false, .seq (.opt (.set (literal true (chr ',')))) (spacesThen
    (.seq (.group 1 (.plus (.set nameSet))) (spaces1Then (.seq (.group 2 (.plus (.set nameSet)))
      (spacesThen (.group 3 (columnsTailRegex 4))))))), false⟩
  universeDefinition := ⟨false, definitionRegex (lit "UNIVERSE"), false⟩
  attributesDefinition := ⟨false, definitionRegex (lit "ATTRIBUTES"), false⟩
  str1 := ⟨false, quotedRegex quote, false⟩
  str2 := ⟨false, quotedRegex 39, false⟩
  int1 := ⟨false, .seq (.star (.set (spaceSet false)))
    (.seq (.set ⟨false, false, [(chr '-', chr '-')]⟩) digitsRegex), false⟩
  int2 := ⟨false, .seq (.star (.set (spaceSet false)))
    (.seq (.opt (.set ⟨false, false, [(chr '+', chr '+')]⟩)) digitsRegex), false⟩
  universeValues := ⟨true, spacesThen (.seq (.opt (.set openingSet)) (spacesThen
    (.seq (anyRegex 1) (spacesThen (.group 7 (valuesTailRegex 8)))))), false⟩
  universeInsertSupp := ⟨true, .seq (.opt (.set (literal true (chr ',')))) (spacesThen
    (.seq (.group 1 (.alt (.group 2 (anyRegex 3)) (tupleRegex 9)))
      (.star (.set (spaceSet true))))), false⟩
  universeInsert := ⟨false, insertRegex, false⟩
  createSet := ⟨true, spacesThen (.word true (lit "CREATE") (spaces1Then (.word true (lit "SET")
    (spaces1Then (.seq (.group 1 (.plus (.set nameSet))) (.star (.set (spaceSet true)))))))), true⟩
  setInsert := ⟨true, insertRegex, true⟩

/-- **All expressions compile.** -/
theorem initializeParserRegex_eq : initializeParserRegex = .ok parserRegex := by decide +kernel

end SetQL
