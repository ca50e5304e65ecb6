import SetQL.Parser.SinglePass

/-!
# The lines of an error

`parse_initialization` counts the lines of the statements that it executes, and prints with the error
of a statement the lines from the count on, as many more as the statement has. The counter goes
through both passes over the file. In a file of at least three statements the lines printed are those
at which the statement with the error starts and ends.

## Main definitions

* `LineProgress`, `Report`: the progress with the line, and what is printed for an error
* `parseInitializationLines`: the parser with the line
* `StatementAt`: the place of a statement in a file
* `Inspected`, `Counted`, `RefusedAt`: what was read, executed and reported at a statement

## Main results

* `parseInitializationLines_erase`: without the lines it is `parseInitialization`
* `whileScan_inspected`: an invariant of the statements read is one of a loop
* `exists_statement_of_report`: the lines printed are those of the first statement not executed
-/

namespace SetQL

/-- `'\n'`. -/
def newline : UInt8 := 10

/-- `count_lines`. -/
def countLines (str : Bytes) : ℕ := str.count newline

/-- The progress, and `line`, an `int`. -/
structure LineProgress where
  progress : Progress
  line : BitVec 32
  deriving DecidableEq, Repr

/-- What is printed for an error: the first and the last line, unsigned, unless a statement is
missing, and the text. -/
structure Report where
  lines : Option (ℕ × ℕ)
  message : Bytes
  deriving DecidableEq, Repr

/-- The progress after a statement, or the report of its error. -/
def LineProgress.step (q : LineProgress) (statement : Bytes) (parsed : Parsed) :
    LineProgress × Option Report :=
  let line := q.line + BitVec.ofNat 32 (countLines statement)
  match q.progress.step statement parsed with
  | (p, some message) => (⟨p, q.line⟩, some ⟨some (q.line.toNat, line.toNat), message⟩)
  | (p, none) => (⟨p, line⟩, none)

/-- One of the first three statements. -/
def nextStatementLines (parse : Universe → Bytes → C Parsed) (missing : Bytes) (q : LineProgress)
    (input : Input) : C ((LineProgress × Option Report) × Input) := do
  let (result, input) ← fscanf input
  if result = 0 then return ((q, some ⟨none, missing⟩), input)
  else
    let statement ← readBuffer input
    let parsed ← parse q.progress.u statement
    return (q.step statement parsed, input)

/-- The body of the loop over the insertions into the universe. No error is printed at its end. -/
def insertBodyLines (rx : ParserRegex) (s : LineProgress × ℕ) (statement : Bytes) :
    C ((LineProgress × ℕ) × Bool) := do
  let parsed ← parseUniverseInsert rx s.1.progress.u statement
  match s.1.step statement parsed with
  | (q, some _) => return ((q, s.2), true)
  | (q, none) => return ((q, s.2 + 1), false)

/-- The state of the second pass with the line. -/
structure SetPassLines where
  progress : LineProgress
  setIndex : ℕ
  report : Option Report
  deriving DecidableEq, Repr

/-- The body of the loop over the sets and the insertions into them. -/
def setBodyLines (rx : ParserRegex) (s : SetPassLines) (statement : Bytes) : C (SetPassLines × Bool) :=
  if isCreateSet rx statement then do
    let parsed ← parseCreateSet rx s.progress.progress.u statement s.setIndex
    match s.progress.step statement parsed with
    | (q, some report) => return (⟨q, s.setIndex, some report⟩, true)
    | (q, none) => return (⟨q, s.setIndex + 1, none⟩, false)
  else do
    let parsed ← parseSetInsert rx s.progress.progress.u statement
    match s.progress.step statement parsed with
    | (q, some report) => return (⟨q, s.setIndex, some report⟩, true)
    | (q, none) => return (⟨q, s.setIndex, none⟩, false)

/-- The part of the parser after the first three statements. -/
def parseStatementsLines (rx : ParserRegex) (file : Bytes) (q : LineProgress) (input : Input) :
    C (LineProgress × Option Report) := do
  let fuel := file.length + 1
  let ((q, scannedCommands), input) ← whileScan (insertBodyLines rx) fuel (q, 3) input
  let statement ← readBuffer input
  let (setsCount, _) ← countBody rx 0 statement
  let (setsCount, input) ← whileScan (countBody rx) fuel setsCount input
  let reopened : Input := ⟨file, input.buffer⟩
  let input ← (List.range scannedCommands).foldlM (fun input _ => Prod.snd <$> fscanf input) reopened
  let q := { q with progress := { q.progress with u := initializeSets q.progress.u setsCount } }
  let (s, _) ← whileScan (setBodyLines rx) fuel ⟨q, 0, none⟩ input
  return (s.progress, s.report)

/-- The rest of the parser after one of the first three statements. -/
def orReportLines (part : C ((LineProgress × Option Report) × Input))
    (rest : LineProgress → Input → C (LineProgress × Option Report)) :
    C (LineProgress × Option Report) := do
  match ← part with
  | ((q, some report), _) => return (q, some report)
  | ((q, none), input) => rest q input

/-- `parse_initialization`, with the lines of the error that it prints. -/
def parseInitializationLines (u : Universe) (file : Bytes) : C (LineProgress × Option Report) := do
  let rx ← initializeParserRegex
  orReportLines (nextStatementLines (parseUniverseDefinition rx) (lit "Error: No semicolons found")
    ⟨⟨u, []⟩, 1⟩ ⟨file, none⟩) fun q input =>
  orReportLines (nextStatementLines (parseAttributesDefinition rx)
    (lit "Error: No semicolons found after CREATE UNIVERSE") q input) fun q input =>
  orReportLines (nextStatementLines (parseUniverseInsert rx)
    (lit "Error: No semicolons found after CREATE ATTRIBUTES") q input) fun q input =>
  parseStatementsLines rx file q input

/-! ## Without the lines -/

section Erase

variable {σ τ : Type} {g : σ → τ} {body : σ → Bytes → C (σ × Bool)} {body' : τ → Bytes → C (τ × Bool)}
  {rx : ParserRegex}

/-- A loop and one on less. -/
theorem whileScan_map (h : ∀ s t, Prod.map g id <$> body s t = body' (g s) t) (fuel : ℕ) (s : σ)
    (input : Input) :
    Prod.map g id <$> whileScan body fuel s input = whileScan body' fuel (g s) input := by
  induction fuel generalizing s input with
  | zero => rfl
  | succ fuel ih =>
    rw [whileScan, whileScan]
    cases fscanf input with
    | error e => rfl
    | ok r =>
      obtain ⟨result, input'⟩ := r
      simp only [ok_bind]
      split_ifs
      · rfl
      · cases readBuffer input' with
        | error e => rfl
        | ok t =>
          rw [ok_bind, ok_bind, ← h]
          cases body s t with
          | error e => rfl
          | ok r =>
            obtain ⟨s', _ | _⟩ := r
            · exact ih s' input'
            · rfl

/-- A step without the line. -/
theorem LineProgress.step_erase (q : LineProgress) (statement : Bytes) (parsed : Parsed) :
    q.progress.step statement parsed =
      Prod.map LineProgress.progress (Option.map Report.message) (q.step statement parsed) := by
  rw [step]
  obtain ⟨u, _ | message⟩ := parsed <;> rfl

theorem nextStatementLines_erase (parse : Universe → Bytes → C Parsed) (missing : Bytes)
    (q : LineProgress) (input : Input) :
    Prod.map (Prod.map LineProgress.progress (Option.map Report.message)) id <$>
      nextStatementLines parse missing q input = nextStatement parse missing q.progress input := by
  rw [nextStatementLines, nextStatement]
  cases fscanf input with
  | error e => rfl
  | ok r =>
    obtain ⟨result, input'⟩ := r
    simp only [ok_bind]
    split_ifs
    · rfl
    · cases readBuffer input' with
      | error e => rfl
      | ok t =>
        rw [ok_bind, ok_bind]
        cases parse q.progress.u t with
        | error e => rfl
        | ok parsed =>
          simp only [ok_bind, q.step_erase]
          rfl

theorem insertBodyLines_erase (rx : ParserRegex) (s : LineProgress × ℕ) (t : Bytes) :
    Prod.map (Prod.map LineProgress.progress id) id <$> insertBodyLines rx s t =
      insertBody rx (Prod.map LineProgress.progress id s) t := by
  rw [insertBodyLines, insertBody]
  show _ = (parseUniverseInsert rx s.1.progress.u t >>= _)
  cases parseUniverseInsert rx s.1.progress.u t with
  | error e => rfl
  | ok parsed =>
    obtain ⟨u, _ | message⟩ := parsed <;> rfl

/-- The state of the second pass without the line. -/
def SetPassLines.erase (s : SetPassLines) : SetPass :=
  ⟨s.progress.progress, s.setIndex, s.report.map Report.message⟩

theorem setBodyLines_erase (rx : ParserRegex) (s : SetPassLines) (t : Bytes) :
    Prod.map SetPassLines.erase id <$> setBodyLines rx s t = setBody rx s.erase t := by
  rw [setBodyLines, setBody]
  split_ifs
  · show _ = (parseCreateSet rx s.progress.progress.u t s.setIndex >>= _)
    cases parseCreateSet rx s.progress.progress.u t s.setIndex with
    | error e => rfl
    | ok parsed => obtain ⟨u, _ | message⟩ := parsed <;> rfl
  · show _ = (parseSetInsert rx s.progress.progress.u t >>= _)
    cases parseSetInsert rx s.progress.progress.u t with
    | error e => rfl
    | ok parsed => obtain ⟨u, _ | message⟩ := parsed <;> rfl

theorem parseStatementsLines_erase (file : Bytes) (q : LineProgress) (input : Input) :
    Prod.map LineProgress.progress (Option.map Report.message) <$>
      parseStatementsLines rx file q input = parseStatements rx file q.progress input := by
  have hinsert := whileScan_map (insertBodyLines_erase rx) (file.length + 1) (q, 3) input
  have hset := whileScan_map (setBodyLines_erase rx) (file.length + 1)
  rw [parseStatementsLines, parseStatements]
  dsimp only [Prod.map, id] at hinsert ⊢
  rw [← hinsert]
  cases whileScan (insertBodyLines rx) (file.length + 1) (q, 3) input with
  | error e => rfl
  | ok r =>
    obtain ⟨⟨q', n⟩, input₁⟩ := r
    show _ <$> (readBuffer input₁ >>= _) = (readBuffer input₁ >>= _)
    cases readBuffer input₁ with
    | error e => rfl
    | ok t =>
      simp only [countBody, pure_eq_ok, ok_bind, Prod.map, id]
      cases whileScan (countBody rx) (file.length + 1) (if isCreateSet rx t then 0 + 1 else 0) input₁ with
      | error e => rfl
      | ok r =>
        obtain ⟨setsCount, input₂⟩ := r
        simp only [ok_bind]
        cases (List.range n).foldlM (fun input _ => Prod.snd <$> fscanf input)
          ⟨file, input₂.buffer⟩ with
        | error e => rfl
        | ok input₃ =>
          have h := hset ⟨⟨⟨initializeSets q'.progress.u setsCount, q'.progress.executed⟩, q'.line⟩,
            0, none⟩ input₃
          simp only [ok_bind]
          rw [SetPassLines.erase] at h
          dsimp only [Option.map_none] at h
          rw [← h]
          cases whileScan (setBodyLines rx) (file.length + 1) _ input₃ with
          | error e => rfl
          | ok r => rfl

theorem orReportLines_erase {part : C ((LineProgress × Option Report) × Input)}
    {part' : C ((Progress × Option Bytes) × Input)}
    {rest : LineProgress → Input → C (LineProgress × Option Report)}
    {rest' : Progress → Input → C (Progress × Option Bytes)}
    (hpart : Prod.map (Prod.map LineProgress.progress (Option.map Report.message)) id <$> part = part')
    (hrest : ∀ q input, Prod.map LineProgress.progress (Option.map Report.message) <$> rest q input =
      rest' q.progress input) :
    Prod.map LineProgress.progress (Option.map Report.message) <$> orReportLines part rest =
      orReport part' rest' := by
  subst hpart
  cases part with
  | error e => rfl
  | ok r =>
    obtain ⟨⟨q, _ | report⟩, input⟩ := r
    · exact hrest q input
    · rfl

/-- **Without the lines** it is the parser. -/
theorem parseInitializationLines_erase (u : Universe) (file : Bytes) :
    Prod.map LineProgress.progress (Option.map Report.message) <$> parseInitializationLines u file =
      parseInitialization u file := by
  rw [parseInitializationLines, parseInitialization, initializeParserRegex_eq, ok_bind, ok_bind]
  refine orReportLines_erase (nextStatementLines_erase _ _ _ _) fun q input => ?_
  refine orReportLines_erase (nextStatementLines_erase _ _ _ _) fun q input => ?_
  refine orReportLines_erase (nextStatementLines_erase _ _ _ _) fun q input => ?_
  exact parseStatementsLines_erase file q input

end Erase

/-! ## The place of a statement -/

/-- A statement of a file: what is before it ends with a semicolon, and what is after it starts with
one. -/
structure StatementAt (file before statement after : Bytes) : Prop where
  eq : file = before ++ (statement ++ after)
  not_mem : semicolon ∉ statement
  before : before = [] ∨ ∃ text, before = text ++ [semicolon]
  after : after = [] ∨ ∃ text, after = semicolon :: text

section Place

variable {file s : Bytes} {k : ℕ}

/-- The lines of a file are those of its statements. -/
theorem countLines_eq_sum (file : Bytes) : countLines file = ((statements file).map countLines).sum := by
  induction file with
  | nil => rfl
  | cons c file ih =>
    rw [statements, countLines, List.count_cons, ← countLines, ih]
    split_ifs with hnewline hc hc
    · rw [hc] at hnewline
      exact absurd hnewline (by decide)
    · cases statements file with
      | nil => simp_all [countLines]
      | cons t L =>
        simp only [List.map_cons, List.sum_cons, countLines, List.count_cons, hnewline, if_true]
        omega
    · simp [countLines]
    · cases statements file with
      | nil => simp_all [countLines]
      | cons t L =>
        simp only [List.map_cons, List.sum_cons, countLines, List.count_cons, hnewline]
        simp

/-- The first statement of a file. -/
theorem statements_cases (h : file ≠ []) :
    (semicolon ∉ file ∧ statements file = [file]) ∨
    ∃ s rest, semicolon ∉ s ∧ file = s ++ semicolon :: rest ∧
      statements file = s :: statements rest := by
  by_cases hmem : semicolon ∈ file
  · obtain ⟨s, rest, rfl, hs⟩ := List.eq_append_cons_of_mem hmem
    exact Or.inr ⟨s, rest, hs, rfl, statements_append_semicolon hs rest⟩
  · exact Or.inl ⟨hmem, statements_of_not_mem hmem h⟩

/-- The place of a statement, and the statements before it. -/
theorem exists_statementAt (h : (statements file)[k]? = some s) : ∃ before after,
    StatementAt file before s after ∧ statements before = (statements file).take k := by
  induction k generalizing file with
  | zero =>
    have hne : file ≠ [] := by
      rintro rfl
      cases h
    rcases statements_cases hne with ⟨hmem, hall⟩ | ⟨t, rest, ht, hfile, hall⟩
    · rw [hall] at h
      obtain rfl := Option.some.inj h
      exact ⟨[], [], ⟨by simp, hmem, Or.inl rfl, Or.inl rfl⟩, rfl⟩
    · rw [hall] at h
      obtain rfl := Option.some.inj h
      exact ⟨[], semicolon :: rest, ⟨hfile, ht, Or.inl rfl, Or.inr ⟨rest, rfl⟩⟩, rfl⟩
  | succ k ih =>
    have hne : file ≠ [] := by
      rintro rfl
      cases h
    rcases statements_cases hne with ⟨-, hall⟩ | ⟨t, rest, ht, hfile, hall⟩
    · rw [hall] at h
      cases h
    · rw [hall, List.getElem?_cons_succ] at h
      obtain ⟨before, after, hplace, hbefore⟩ := ih h
      refine ⟨t ++ semicolon :: before, after, ⟨?_, hplace.not_mem, Or.inr ?_, hplace.after⟩, ?_⟩
      · rw [hfile, hplace.eq, List.append_assoc, List.cons_append]
      · rcases hplace.before with rfl | ⟨text, rfl⟩
        · exact ⟨t, rfl⟩
        · exact ⟨t ++ semicolon :: text, by simp⟩
      · rw [statements_append_semicolon ht, hbefore, hall, List.take_succ_cons]

end Place

/-! ## The line of a statement -/

/-- The line behind a number of statements. -/
def lineBehind (file : Bytes) (k : ℕ) : ℕ := 1 + (((statements file).take k).map countLines).sum

/-- The statements up to a number were read, and those from it on are left. -/
structure Inspected (file : Bytes) (k : ℕ) (input : Input) : Prop where
  rest : statements input.rest = (statements file).drop k
  read : ∀ s ∈ (statements file).take k, s ≠ [] ∧ s.length < bufferSize

/-- The statements up to a number were executed, and their lines counted. -/
structure Counted (file : Bytes) (k : ℕ) (q : LineProgress) : Prop where
  executed : q.progress.executed = (statements file).take k
  line : q.line = BitVec.ofNat 32 (lineBehind file k)

/-- The report is about the first statement that is not executed. -/
structure RefusedAt (file : Bytes) (k : ℕ) (q : LineProgress) (report : Report) : Prop
    extends Counted file k q where
  lines : ∃ s, (statements file)[k]? = some s ∧
    report.lines = some (lineBehind file k % 2 ^ 32, (lineBehind file k + countLines s) % 2 ^ 32)

section Line

variable {σ : Type} {body : σ → Bytes → C (σ × Bool)} {rx : ParserRegex} {fuel k : ℕ} {file s : Bytes}
  {input input' : Input} {q q' : LineProgress} {x x' : σ}

/-- A statement is read. -/
theorem Inspected.fscanf (h : Inspected file k input) (hscan : SetQL.fscanf input = .ok (1, input')) :
    ∃ s, (statements file)[k]? = some s ∧ Inspected file (k + 1) input' ∧
      input'.buffer = some (cstr s) := by
  obtain ⟨s, hrest, hs, hbuffer⟩ := fscanf_eq_one hscan
  have hdrop := h.rest.symm.trans hrest
  have hget : (statements file)[k]? = some s := by
    rw [← List.head?_drop, hdrop, List.head?_cons]
  refine ⟨s, hget, ⟨?_, ?_⟩, hbuffer⟩
  · rw [← List.drop_drop, hdrop, List.drop_one, List.tail_cons]
  · rw [List.take_add_one, hget]
    intro t ht
    rcases List.mem_append.mp ht with ht | ht
    · exact h.read t ht
    · obtain rfl := List.mem_singleton.mp ht
      exact hs

/-- What holds behind a number of statements holds behind those that a loop reads. -/
theorem whileScan_inspected {I : ℕ → σ → Prop} {J : ℕ → σ → Prop}
    (hstep : ∀ k s x x', (statements file)[k]? = some s → I k x → body x (cstr s) = .ok (x', false) →
      I (k + 1) x')
    (hstop : ∀ k s x x', (statements file)[k]? = some s → I k x → body x (cstr s) = .ok (x', true) →
      J k x')
    (hinput : Inspected file k input) (hx : I k x)
    (h : whileScan body fuel x input = .ok (x', input')) :
    ∃ k, (∀ s ∈ (statements file).take k, s ≠ [] ∧ s.length < bufferSize) ∧ (I k x' ∨ J k x') := by
  induction fuel generalizing k x input with
  | zero => cases h
  | succ fuel ih =>
    obtain ⟨⟨result, input₁⟩, hscan, h⟩ := bind_eq_ok.mp h
    dsimp only at h
    split_ifs at h with hresult
    · obtain ⟨rfl, -⟩ := Prod.mk.inj (Except.ok.inj h)
      exact ⟨k, hinput.read, Or.inl hx⟩
    · obtain rfl := not_not.mp hresult
      obtain ⟨s, hget, hnext, hbuffer⟩ := hinput.fscanf hscan
      rw [readBuffer, hbuffer] at h
      dsimp only [ok_bind] at h
      obtain ⟨⟨x₁, stop⟩, hbody, h⟩ := bind_eq_ok.mp h
      dsimp only at h
      split_ifs at h with hstop'
      · obtain ⟨rfl, -⟩ := Prod.mk.inj (Except.ok.inj h)
        subst hstop'
        exact ⟨k, hinput.read, Or.inr (hstop k s x x₁ hget hx hbody)⟩
      · rw [Bool.not_eq_true] at hstop'
        subst hstop'
        exact ih hnext (hstep k s x x₁ hget hx hbody) h

/-- A statement is executed and its lines are counted, or it is reported. -/
theorem Counted.step (h : Counted file k q) (hget : (statements file)[k]? = some s)
    (parsed : Parsed) :
    (∃ report, (q.step s parsed).2 = some report ∧ RefusedAt file k (q.step s parsed).1 report) ∨
    (q.step s parsed).2 = none ∧ Counted file (k + 1) (q.step s parsed).1 := by
  obtain ⟨u, _ | message⟩ := parsed
  · refine Or.inr ⟨rfl, ?_, ?_⟩
    · show q.progress.executed ++ [s] = _
      rw [h.executed, List.take_add_one, hget]
      rfl
    · show q.line + BitVec.ofNat 32 (countLines s) = _
      rw [h.line, lineBehind, lineBehind, List.take_add_one, hget, List.map_append, List.sum_append,
        ← BitVec.ofNat_add, Nat.add_assoc]
      simp
  · refine Or.inl ⟨_, rfl, ⟨h.executed, h.line⟩, s, hget, ?_⟩
    show some (q.line.toNat, (q.line + BitVec.ofNat 32 (countLines s)).toNat) = _
    rw [h.line, ← BitVec.ofNat_add, BitVec.toNat_ofNat, BitVec.toNat_ofNat]

theorem insertBodyLines_counted {x x' : LineProgress × ℕ} {stop : Bool}
    (hget : (statements file)[k]? = some s) (hx : Counted file k x.1 ∧ x.2 = k)
    (h : insertBodyLines rx x s = .ok (x', stop)) :
    Counted file (if stop then k else k + 1) x'.1 ∧ x'.2 = if stop then k else k + 1 := by
  obtain ⟨parsed, -, h⟩ := bind_eq_ok.mp h
  obtain ⟨hcounted, hn⟩ := hx
  have hstep := hcounted.step hget parsed
  revert h
  cases hq : x.1.step s parsed with
  | mk q' report =>
    rw [hq] at hstep
    cases report with
    | some report =>
      rintro ⟨⟩
      rcases hstep with ⟨_, -, hrefused⟩ | ⟨⟨⟩, -⟩
      exact ⟨hrefused.toCounted, hn⟩
    | none =>
      rintro ⟨⟩
      rcases hstep with ⟨_, ⟨⟩, -⟩ | ⟨-, hcounted⟩
      exact ⟨hcounted, congrArg (· + 1) hn⟩

theorem setBodyLines_counted {x x' : SetPassLines} {stop : Bool}
    (hget : (statements file)[k]? = some s) (hx : Counted file k x.progress ∧ x.report = none)
    (h : setBodyLines rx x s = .ok (x', stop)) :
    (stop = true ∧ ∃ report, x'.report = some report ∧ RefusedAt file k x'.progress report) ∨
    stop = false ∧ Counted file (k + 1) x'.progress ∧ x'.report = none := by
  rw [setBodyLines] at h
  split_ifs at h
  all_goals
    obtain ⟨parsed, -, h⟩ := bind_eq_ok.mp h
    have hstep := hx.1.step hget parsed
    revert h
    cases hq : x.progress.step s parsed with
    | mk q' report =>
      rw [hq] at hstep
      cases report with
      | some report =>
        rintro ⟨⟩
        rcases hstep with ⟨_, ⟨⟩, hrefused⟩ | ⟨⟨⟩, -⟩
        exact Or.inl ⟨rfl, report, rfl, hrefused⟩
      | none =>
        rintro ⟨⟩
        rcases hstep with ⟨_, ⟨⟩, -⟩ | ⟨-, hcounted⟩
        exact Or.inr ⟨rfl, hcounted, rfl⟩

/-- The part after the first three statements. -/
theorem refused_of_parseStatementsLines (hnul : NulFree file) (hinput : Inspected file 3 input)
    (hq : Counted file 3 q) {report : Report}
    (h : parseStatementsLines rx file q input = .ok (q', some report)) :
    ∃ k, RefusedAt file k q' report := by
  have hcstr : ∀ k s, (statements file)[k]? = some s → cstr s = s := fun k s hget =>
    cstr_of_nulFree (nulFree_iff.mp hnul s (List.mem_of_getElem? hget))
  obtain ⟨⟨⟨q₁, n⟩, input₁⟩, hinsert, h⟩ := bind_eq_ok.mp h
  obtain ⟨t, -, h⟩ := bind_eq_ok.mp h
  obtain ⟨⟨c, stop⟩, -, h⟩ := bind_eq_ok.mp h
  obtain ⟨⟨setsCount, input₂⟩, -, h⟩ := bind_eq_ok.mp h
  obtain ⟨input₃, hskip, h⟩ := bind_eq_ok.mp h
  obtain ⟨⟨x, input₄⟩, hset, h⟩ := bind_eq_ok.mp h
  obtain ⟨rfl, hreport⟩ := Prod.mk.inj (Except.ok.inj h)
  -- the first pass stops behind the statements that it has executed
  obtain ⟨k, hread, hx⟩ := whileScan_inspected
    (I := fun k x => Counted file k x.1 ∧ x.2 = k) (J := fun k x => Counted file k x.1 ∧ x.2 = k)
    (fun k s x x' hget hx hbody => insertBodyLines_counted hget hx (hcstr k s hget ▸ hbody))
    (fun k s x x' hget hx hbody => insertBodyLines_counted hget hx (hcstr k s hget ▸ hbody))
    hinput ⟨hq, rfl⟩ hinsert
  obtain ⟨hcounted, rfl⟩ := or_self_iff.mp hx
  -- and the second one starts there
  obtain ⟨input, hskipped, hrest⟩ := foldlM_fscanf file n input₂.buffer hread
  obtain rfl := Except.ok.inj (hskipped.symm.trans hskip)
  obtain ⟨k, -, ⟨-, hnone⟩ | ⟨report', hsome, hrefused⟩⟩ := whileScan_inspected
    (I := fun k x => Counted file k x.progress ∧ x.report = none)
    (J := fun k x => ∃ report, x.report = some report ∧ RefusedAt file k x.progress report)
    (fun k s x x' hget hx hbody => by
      rcases setBodyLines_counted hget hx (hcstr k s hget ▸ hbody) with ⟨⟨⟩, -⟩ | ⟨-, hnext⟩
      exact hnext)
    (fun k s x x' hget hx hbody => by
      rcases setBodyLines_counted hget hx (hcstr k s hget ▸ hbody) with ⟨-, hstop⟩ | ⟨⟨⟩, -⟩
      exact hstop)
    ⟨hrest, hread⟩ ⟨⟨hcounted.executed, hcounted.line⟩, rfl⟩ hset
  · rw [hnone] at hreport
    cases hreport
  · obtain rfl := Option.some.inj (hsome.symm.trans hreport)
    exact ⟨k, hrefused⟩

/-- One of the first three statements, and the rest of the parser. -/
theorem refused_of_orReportLines {parse : Universe → Bytes → C Parsed} {missing : Bytes}
    {rest : LineProgress → Input → C (LineProgress × Option Report)} {report : Report}
    (hnul : NulFree file) (hk : k < (statements file).length) (hinput : Inspected file k input)
    (hq : Counted file k q)
    (hrest : ∀ q₁ input₁, Inspected file (k + 1) input₁ → Counted file (k + 1) q₁ →
      rest q₁ input₁ = .ok (q', some report) → ∃ k, RefusedAt file k q' report)
    (h : orReportLines (nextStatementLines parse missing q input) rest = .ok (q', some report))
    (hlines : report.lines ≠ none) : ∃ k, RefusedAt file k q' report := by
  obtain ⟨⟨⟨q₁, report₁⟩, input₁⟩, hnext, h⟩ := bind_eq_ok.mp h
  obtain ⟨⟨result, input₂⟩, hscan, hnext⟩ := bind_eq_ok.mp hnext
  dsimp only at hnext
  split_ifs at hnext with hresult
  · obtain ⟨hfirst, -⟩ := Prod.mk.inj (Except.ok.inj hnext)
    obtain ⟨-, rfl⟩ := Prod.mk.inj hfirst
    obtain ⟨-, hreport⟩ := Prod.mk.inj (Except.ok.inj h)
    obtain rfl := Option.some.inj hreport
    exact absurd rfl hlines
  · obtain ⟨s, L, hL⟩ : ∃ s L, statements input.rest = s :: L := by
      rw [hinput.rest]
      exact ⟨_, _, List.drop_eq_getElem_cons hk⟩
    obtain rfl : result = 1 := by
      rw [fscanf_eq, hL] at hscan
      dsimp only at hscan
      split_ifs at hscan
      · exact absurd (Prod.mk.inj (Except.ok.inj hscan)).1.symm hresult
      · exact (Prod.mk.inj (Except.ok.inj hscan)).1.symm
    obtain ⟨s, hget, hread, hbuffer⟩ := hinput.fscanf hscan
    have hs : cstr s = s := cstr_of_nulFree (nulFree_iff.mp hnul s (List.mem_of_getElem? hget))
    rw [readBuffer, hbuffer, hs] at hnext
    dsimp only [ok_bind] at hnext
    obtain ⟨parsed, -, hnext⟩ := bind_eq_ok.mp hnext
    obtain ⟨hfirst, rfl⟩ := Prod.mk.inj (Except.ok.inj hnext)
    have hstep := hq.step hget parsed
    rw [hfirst] at hstep
    rcases hstep with ⟨_, hsome, hrefused⟩ | ⟨hnone, hcounted⟩
    · obtain rfl : report₁ = _ := hsome
      obtain ⟨rfl, hreport⟩ := Prod.mk.inj (Except.ok.inj h)
      obtain rfl := Option.some.inj hreport
      exact ⟨k, hrefused⟩
    · obtain rfl : report₁ = none := hnone
      exact hrest q₁ input₂ hread hcounted h

/-- The lines printed with an error are those of the first statement that is not executed. -/
theorem refused_of_parseInitializationLines {u : Universe} {report : Report} (hnul : NulFree file)
    (hthree : 3 ≤ (statements file).length)
    (h : parseInitializationLines u file = .ok (q, some report)) (hlines : report.lines ≠ none) :
    ∃ k, RefusedAt file k q report := by
  rw [parseInitializationLines, initializeParserRegex_eq, ok_bind] at h
  refine refused_of_orReportLines (k := 0) hnul (by omega) ⟨rfl, by simp⟩ ⟨rfl, rfl⟩ ?_ h hlines
  refine fun q₁ input₁ hinput hq h => refused_of_orReportLines hnul (by omega) hinput hq ?_ h hlines
  refine fun q₂ input₂ hinput hq h => refused_of_orReportLines hnul (by omega) hinput hq ?_ h hlines
  exact fun q₃ input₃ hinput hq h => refused_of_parseStatementsLines hnul hinput hq h

/-- **The lines of an error** are those of a statement of the file, while the lines fit an `int`: it is
the first one that was not executed, the first line is the one at which it starts and the last line
the one at which it ends. -/
theorem exists_statement_of_report {u : Universe} {first last : ℕ} {message : Bytes}
    (hnul : NulFree file) (hthree : 3 ≤ (statements file).length)
    (hlines : 1 + countLines file < 2 ^ 31)
    (h : parseInitializationLines u file = .ok (q, some ⟨some (first, last), message⟩)) :
    ∃ before statement after, StatementAt file before statement after ∧
      statements before = q.progress.executed ∧ first = 1 + countLines before ∧
      last = 1 + countLines (before ++ statement) := by
  obtain ⟨k, hcounted, s, hget, hprinted⟩ := refused_of_parseInitializationLines hnul hthree h
    (Option.some_ne_none _)
  obtain ⟨before, after, hplace, hbefore⟩ := exists_statementAt hget
  have hfirst : lineBehind file k = 1 + countLines before := by
    rw [lineBehind, countLines_eq_sum before, hbefore]
  have hlast : lineBehind file k + countLines s = 1 + countLines (before ++ s) := by
    rw [hfirst, Nat.add_assoc, countLines, countLines, countLines, List.count_append]
  have hle : countLines before + countLines s ≤ countLines file := by
    rw [hplace.eq]
    simp only [countLines, List.count_append]
    omega
  obtain ⟨rfl, rfl⟩ := Prod.mk.inj (Option.some.inj hprinted)
  refine ⟨before, s, after, hplace, hbefore.trans hcounted.executed.symm, ?_, ?_⟩
  · rw [hfirst]
    exact Nat.mod_eq_of_lt (by omega)
  · rw [← hlast]
    exact Nat.mod_eq_of_lt (by omega)

end Line

/-- A file whose third statement is no insertion. -/
def threeFile : Bytes :=
  lit "CREATE UNIVERSE A(k STRING);\nCREATE ATTRIBUTES A(n INTEGER);\nINSERT\n\x7b\x7d INTO A"

theorem parseInitializationLines_threeFile :
    (fun r => (r.1.progress.executed, r.2)) <$> parseInitializationLines createEmptyUniverse threeFile =
      .ok ((statements threeFile).take 2,
        some ⟨some (2, 4), lit "Error parsing the universe insert."⟩) := by
  rw [parseInitializationLines, initializeParserRegex_eq, ok_bind]
  decide

theorem exists_statement_of_report_three : ∃ before statement after,
    StatementAt threeFile before statement after ∧ statements before = (statements threeFile).take 2 ∧
      2 = 1 + countLines before ∧ 4 = 1 + countLines (before ++ statement) := by
  obtain ⟨⟨q, report⟩, hparse, hq⟩ := map_eq_ok.mp parseInitializationLines_threeFile
  obtain ⟨hexecuted, hreport⟩ := Prod.mk.inj hq
  obtain rfl : report = _ := hreport
  rw [← show q.progress.executed = (statements threeFile).take 2 from hexecuted]
  exact exists_statement_of_report (by decide) (by decide) (by decide) hparse

end SetQL
