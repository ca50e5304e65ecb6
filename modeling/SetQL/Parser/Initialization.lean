import SetQL.Parser.Statements

/-!
# Parsing an initialization file

`parse_initialization` of `parser.c`: the statements of a file are read up to each semicolon into a
buffer of one mebibyte. The first three are the definitions and an insertion into the universe. As
many insertions into the universe as there are then follow; the rest of the file is read once to
count the sets it creates, and once more, from the start, to be executed.

## Main definitions

* `Input`, `fscanf`: what is left of the file, the buffer, and the reading of a statement
* `whileScan`: a loop as long as a statement is read
* `parseInitialization`: the parser
-/

namespace SetQL

/-- The open file: what is not read yet, and the string in the buffer, if anything was read. -/
structure Input where
  rest : Bytes
  buffer : Option Bytes
  deriving DecidableEq, Repr

/-- The size of the buffer. -/
def bufferSize : ℕ := 1024 * 1024

/-- `fscanf(ptr, "%[^;];", buffer)`: -1 at the end of the file and 0 before a semicolon, without an
effect; else 1, the buffer holds the text up to the next semicolon, and the file is behind it. -/
def fscanf (input : Input) : C (ℤ × Input) :=
  match input.rest with
  | [] => .ok (-1, input)
  | c :: _ =>
    if c = semicolon then .ok (0, input)
    else
      let statement := input.rest.takeWhile (· != semicolon)
      if statement.length < bufferSize then
        .ok (1, ⟨(input.rest.dropWhile (· != semicolon)).drop 1, some (cstr statement)⟩)
      else .error .outOfBounds

/-- The string in the buffer. -/
def readBuffer (input : Input) : C Bytes :=
  match input.buffer with
  | none => .error .undefined
  | some str => .ok str

/-- `while (fscanf(...) == 1)`: the body is run on each statement until it breaks. The fuel bounds
the number of statements. -/
def whileScan {σ : Type} (body : σ → Bytes → C (σ × Bool)) : ℕ → σ → Input → C (σ × Input)
  | 0, _, _ => .error .undefined
  | fuel + 1, s, input => do
    let (result, input) ← fscanf input
    if result ≠ 1 then return (s, input)
    else
      let statement ← readBuffer input
      let (s, stop) ← body s statement
      if stop then return (s, input) else whileScan body fuel s input

/-- The universe read so far, and the statements that were executed. -/
structure Progress where
  u : Universe
  executed : List Bytes
  deriving DecidableEq, Repr

/-- The progress after a statement that is executed unless it returns an error. -/
def Progress.step (p : Progress) (statement : Bytes) : Parsed → Progress × Option Bytes
  | (u, some message) => (⟨u, p.executed⟩, some message)
  | (u, none) => (⟨u, p.executed ++ [statement]⟩, none)

/-- One of the first three statements. Only an empty one is missing: at the end of the file the
buffer is parsed as it is. -/
def nextStatement (parse : Universe → Bytes → C Parsed) (missing : Bytes) (p : Progress)
    (input : Input) : C ((Progress × Option Bytes) × Input) := do
  let (result, input) ← fscanf input
  if result = 0 then return ((p, some missing), input)
  else
    let statement ← readBuffer input
    let parsed ← parse p.u statement
    return (p.step statement parsed, input)

/-- Whether a statement is matched as `CREATE SET`. -/
def isCreateSet (rx : ParserRegex) (str : Bytes) : Bool := (regexec rx.createSet str).isSome

/-- The body of the loop over the insertions into the universe, with the number of statements
executed; it breaks at a statement that is not executed. -/
def insertBody (rx : ParserRegex) (s : Progress × ℕ) (statement : Bytes) :
    C ((Progress × ℕ) × Bool) := do
  let parsed ← parseUniverseInsert rx s.1.u statement
  match s.1.step statement parsed with
  | (p, some _) => return ((p, s.2), true)
  | (p, none) => return ((p, s.2 + 1), false)

/-- The body of the loop that counts the sets. -/
def countBody (rx : ParserRegex) (setsCount : ℕ) (statement : Bytes) : C (ℕ × Bool) :=
  return (if isCreateSet rx statement then setsCount + 1 else setsCount, false)

/-- The state of the second pass: the progress, the index of the next set, and the error that ended
it. -/
structure SetPass where
  progress : Progress
  setIndex : ℕ
  error : Option Bytes
  deriving DecidableEq, Repr

/-- The body of the loop over the sets and the insertions into them. -/
def setBody (rx : ParserRegex) (s : SetPass) (statement : Bytes) : C (SetPass × Bool) :=
  if isCreateSet rx statement then do
    let parsed ← parseCreateSet rx s.progress.u statement s.setIndex
    match s.progress.step statement parsed with
    | (p, some message) => return (⟨p, s.setIndex, some message⟩, true)
    | (p, none) => return (⟨p, s.setIndex + 1, none⟩, false)
  else do
    let parsed ← parseSetInsert rx s.progress.u statement
    match s.progress.step statement parsed with
    | (p, some message) => return (⟨p, s.setIndex, some message⟩, true)
    | (p, none) => return (⟨p, s.setIndex, none⟩, false)

/-- The part of the parser after the first three statements. -/
def parseStatements (rx : ParserRegex) (file : Bytes) (p : Progress) (input : Input) :
    C (Progress × Option Bytes) := do
  let fuel := file.length + 1
  let ((p, scannedCommands), input) ← whileScan (insertBody rx) fuel (p, 3) input
  -- the statement that ended the loop is in the buffer
  let statement ← readBuffer input
  let (setsCount, _) ← countBody rx 0 statement
  let (setsCount, input) ← whileScan (countBody rx) fuel setsCount input
  let reopened : Input := ⟨file, input.buffer⟩
  let input ← (List.range scannedCommands).foldlM (fun input _ => Prod.snd <$> fscanf input) reopened
  let p := { p with u := initializeSets p.u setsCount }
  let (s, _) ← whileScan (setBody rx) fuel ⟨p, 0, none⟩ input
  return (s.progress, s.error)

/-- The rest of the parser after one of the first three statements. -/
def orReport (part : C ((Progress × Option Bytes) × Input))
    (rest : Progress → Input → C (Progress × Option Bytes)) : C (Progress × Option Bytes) := do
  match ← part with
  | ((p, some message), _) => return (p, some message)
  | ((p, none), input) => rest p input

/-- `parse_initialization`: the progress at the end, and the error printed for the result 1. -/
def parseInitialization (u : Universe) (file : Bytes) : C (Progress × Option Bytes) := do
  let rx ← initializeParserRegex
  orReport (nextStatement (parseUniverseDefinition rx) (lit "Error: No semicolons found")
    ⟨u, []⟩ ⟨file, none⟩) fun p input =>
  orReport (nextStatement (parseAttributesDefinition rx)
    (lit "Error: No semicolons found after CREATE UNIVERSE") p input) fun p input =>
  orReport (nextStatement (parseUniverseInsert rx)
    (lit "Error: No semicolons found after CREATE ATTRIBUTES") p input) fun p input =>
  parseStatements rx file p input

end SetQL
