import SetQL.Parser.Initialization
import SetQL.Parser.Insertions
import SetQL.Parser.StatementShapes

/-!
# The two passes over an initialization file

The parser reads a file through `fscanf`, and what it does depends on the file only through its
statements, the texts between semicolons. The loops over the file are recursions over the list of
these texts: the first pass executes the insertions into the universe and counts the sets, and the
second executes the rest from the statement at which the first one stopped.

## Main definitions

* `statements file`: the texts up to the semicolons, and the text after the last one
* `readable`, `texts`: the statements before the first empty one, and the strings they are read as
* `insertRun`, `setRun`, `secondPass`, `runTexts`: the parser on a list of texts
* `Regular L`, `Sized L`: none of the first three statements is missing, and each fits the buffer

## Main results

* `parseInitialization_eq`: the parser is a recursion over the texts of a file
* `regular_of_parse`: a file that is not regular is neither accepted nor fails an assertion
-/

namespace SetQL

/-! ## Statements of a file -/

/-- The texts up to the semicolons of a file, and the text after the last one if there is any. -/
def statements : Bytes → List Bytes
  | [] => []
  | c :: file =>
    if c = semicolon then [] :: statements file
    else
      match statements file with
      | [] => [[c]]
      | statement :: rest => (c :: statement) :: rest

/-- The statements before the first empty one. -/
def readable (L : List Bytes) : List Bytes := L.takeWhile (· ≠ [])

/-- The strings that the readable statements are read as. -/
def texts (L : List Bytes) : List Bytes := (readable L).map cstr

/-- Each readable statement fits the buffer. -/
def Sized (L : List Bytes) : Prop := ∀ s ∈ readable L, s.length < bufferSize

/-- There is a statement, and none of the first three is empty. -/
def Regular (L : List Bytes) : Prop := L ≠ [] ∧ ∀ s ∈ L.take 3, s ≠ []

instance (L : List Bytes) : Decidable (Regular L) :=
  inferInstanceAs (Decidable (L ≠ [] ∧ ∀ s ∈ L.take 3, s ≠ []))

section Statements

variable {file s : Bytes} {L : List Bytes} {input : Input}

theorem statements_eq (h : file ≠ []) : statements file = file.takeWhile (· != semicolon) ::
    statements ((file.dropWhile (· != semicolon)).drop 1) := by
  induction file with
  | nil => exact absurd rfl h
  | cons c file ih =>
    rw [statements]
    by_cases hc : c = semicolon
    · subst hc
      simp
    · have hne : (c != semicolon) = true := by simpa using hc
      rw [if_neg hc, List.takeWhile_cons, List.dropWhile_cons, if_pos hne, if_pos hne]
      by_cases hfile : file = []
      · subst hfile
        rfl
      · rw [ih hfile]

theorem length_statements_le (file : Bytes) : (statements file).length ≤ file.length := by
  induction file with
  | nil => exact le_rfl
  | cons c file ih =>
    rw [statements]
    split_ifs
    · simpa using ih
    · cases h : statements file with
      | nil => simp
      | cons statement rest =>
        rw [h, List.length_cons] at ih
        rw [List.length_cons, List.length_cons]
        omega

/-- The statements of a file that starts with a statement and a semicolon. -/
theorem statements_append_semicolon (hs : semicolon ∉ s) (file : Bytes) :
    statements (s ++ semicolon :: file) = s :: statements file := by
  induction s with
  | nil => rw [List.nil_append, statements, if_pos rfl]
  | cons c s ih =>
    obtain ⟨hc, hs⟩ := List.ne_and_not_mem_of_not_mem_cons hs
    rw [List.cons_append, statements, if_neg (Ne.symm hc), ih hs]

theorem statements_of_not_mem (hs : semicolon ∉ s) (hne : s ≠ []) : statements s = [s] := by
  induction s with
  | nil => exact absurd rfl hne
  | cons c s ih =>
    obtain ⟨hc, hs⟩ := List.ne_and_not_mem_of_not_mem_cons hs
    rw [statements, if_neg (Ne.symm hc)]
    by_cases h : s = []
    · subst h
      rfl
    · rw [ih hs h]

@[simp] theorem readable_nil : readable [] = [] := rfl

theorem readable_cons_of_ne (h : s ≠ []) : readable (s :: L) = s :: readable L :=
  List.takeWhile_cons_of_pos (by simpa using h)

theorem readable_nil_cons : readable ([] :: L) = [] := List.takeWhile_cons_of_neg (by simp)

@[simp] theorem texts_nil : texts [] = [] := rfl

theorem texts_cons_of_ne (h : s ≠ []) : texts (s :: L) = cstr s :: texts L := by
  rw [texts, readable_cons_of_ne h, List.map_cons]
  rfl

theorem texts_nil_cons : texts ([] :: L) = [] := by rw [texts, readable_nil_cons, List.map_nil]

theorem sized_of_readable (h : readable L = []) : Sized L := by
  intro s hs
  rw [h] at hs
  exact absurd hs List.not_mem_nil

theorem sized_cons_of_ne (h : s ≠ []) : Sized (s :: L) ↔ s.length < bufferSize ∧ Sized L := by
  rw [Sized, readable_cons_of_ne h, List.forall_mem_cons]
  rfl

theorem readable_append {M : List Bytes} (h : ∀ s ∈ L, s ≠ []) :
    readable (L ++ M) = L ++ readable M := List.takeWhile_append_of_pos (by simpa using h)

/-! ## Reading -/

theorem fscanf_eq (input : Input) : fscanf input =
    match statements input.rest with
    | [] => .ok (-1, input)
    | s :: _ =>
      if s = [] then .ok (0, input)
      else if s.length < bufferSize then
        .ok (1, ⟨(input.rest.dropWhile (· != semicolon)).drop 1, some (cstr s)⟩)
      else .error .outOfBounds := by
  obtain ⟨rest, buffer⟩ := input
  cases rest with
  | nil => rfl
  | cons c rest =>
    rw [statements_eq (List.cons_ne_nil c rest), fscanf]
    by_cases hc : c = semicolon
    · subst hc
      simp
    · have hne : (c != semicolon) = true := by simpa using hc
      simp [hc]

/-- A statement is read. -/
theorem fscanf_of_cons (h : statements input.rest = s :: L) (hs : s ≠ [])
    (hlen : s.length < bufferSize) : ∃ rest, statements rest = L ∧
      fscanf input = .ok (1, ⟨rest, some (cstr s)⟩) := by
  refine ⟨(input.rest.dropWhile (· != semicolon)).drop 1, ?_, ?_⟩
  swap
  · rw [fscanf_eq, h]
    simp only [hs, hlen, if_true, if_false]
  have hne : input.rest ≠ [] := by
    intro hnil
    rw [hnil] at h
    exact nomatch h
  rw [statements_eq hne] at h
  exact (List.cons.inj h).2

/-- Nothing is read. -/
theorem fscanf_of_end (input : Input) (h : readable (statements input.rest) = []) :
    ∃ result, result ≠ 1 ∧ fscanf input = .ok (result, input) := by
  rw [fscanf_eq]
  cases hL : statements input.rest with
  | nil => exact ⟨-1, by decide, rfl⟩
  | cons s L =>
    rw [hL] at h
    by_cases hs : s = []
    · exact ⟨0, by decide, by simp [hs]⟩
    · rw [readable_cons_of_ne hs] at h
      exact nomatch h

/-- What a reading that returns 1 has read. -/
theorem fscanf_eq_one {input' : Input} (h : fscanf input = .ok (1, input')) : ∃ s,
    statements input.rest = s :: statements input'.rest ∧ (s ≠ [] ∧ s.length < bufferSize) ∧
      input'.buffer = some (cstr s) := by
  cases hL : statements input.rest with
  | nil => rw [fscanf_eq, hL] at h; exact nomatch h
  | cons s L =>
    by_cases hs : s = []
    · rw [fscanf_eq, hL] at h
      simp [hs] at h
    by_cases hlen : s.length < bufferSize
    · obtain ⟨rest, hrest, hscan⟩ := fscanf_of_cons hL hs hlen
      obtain rfl := (Prod.mk.inj (Except.ok.inj (hscan.symm.trans h))).2
      exact ⟨s, by rw [hrest], ⟨hs, hlen⟩, rfl⟩
    · rw [fscanf_eq, hL] at h
      simp [hs, hlen] at h

/-- A reading that does not return 1 has no effect. -/
theorem fscanf_ne_one {input' : Input} {result : ℤ} (h : fscanf input = .ok (result, input'))
    (hresult : result ≠ 1) : readable (statements input.rest) = [] ∧ input' = input := by
  rw [fscanf_eq] at h
  cases hL : statements input.rest with
  | nil =>
    rw [hL] at h
    exact ⟨rfl, (Prod.mk.inj (Except.ok.inj h)).2.symm⟩
  | cons s L =>
    rw [hL] at h
    dsimp only at h
    split_ifs at h with hs hlen
    · subst hs
      exact ⟨readable_nil_cons, (Prod.mk.inj (Except.ok.inj h)).2.symm⟩
    · exact absurd (Prod.mk.inj (Except.ok.inj h)).1.symm hresult

end Statements

/-! ## Loops -/

section Loops

variable {σ : Type} {body : σ → Bytes → C (σ × Bool)} {fuel : ℕ} {s s' : σ} {input input' : Input}
  {L : List Bytes}

/-- A loop has read the statements before those that are left. -/
theorem read_of_whileScan (h : whileScan body fuel s input = .ok (s', input')) : ∃ read,
    statements input.rest = read ++ statements input'.rest ∧
      ∀ t ∈ read, t ≠ [] ∧ t.length < bufferSize := by
  induction fuel generalizing s input with
  | zero => exact nomatch h
  | succ fuel ih =>
    obtain ⟨⟨result, input₁⟩, hscan, hrest⟩ := bind_eq_ok.mp h
    clear h
    dsimp only at hrest
    split_ifs at hrest with hresult
    · obtain ⟨-, rfl⟩ := fscanf_ne_one hscan hresult
      obtain ⟨-, rfl⟩ := Prod.mk.inj (Except.ok.inj hrest)
      exact ⟨[], rfl, nofun⟩
    · obtain rfl := not_not.mp hresult
      obtain ⟨t, hL, ht, -⟩ := fscanf_eq_one hscan
      obtain ⟨statement, -, hrest⟩ := bind_eq_ok.mp hrest
      obtain ⟨⟨s₁, stop⟩, -, hrest⟩ := bind_eq_ok.mp hrest
      dsimp only at hrest
      split_ifs at hrest
      · obtain ⟨-, rfl⟩ := Prod.mk.inj (Except.ok.inj hrest)
        exact ⟨[t], hL, by simpa using ht⟩
      · obtain ⟨read, hread, hall⟩ := ih hrest
        refine ⟨t :: read, by rw [hL, hread, List.cons_append], ?_⟩
        exact List.forall_mem_cons.mpr ⟨ht, hall⟩

/-- A loop whose body never breaks reads all that is readable. -/
theorem sized_of_whileScan (hbody : ∀ s t s', body s t ≠ .ok (s', true))
    (h : whileScan body fuel s input = .ok (s', input')) : Sized (statements input.rest) := by
  induction fuel generalizing s input with
  | zero => exact nomatch h
  | succ fuel ih =>
    obtain ⟨⟨result, input₁⟩, hscan, h⟩ := bind_eq_ok.mp h
    dsimp only at h
    split_ifs at h with hresult
    · rw [Sized, (fscanf_ne_one hscan hresult).1]
      exact nofun
    · obtain rfl := not_not.mp hresult
      obtain ⟨t, hL, ht, -⟩ := fscanf_eq_one hscan
      obtain ⟨statement, -, h⟩ := bind_eq_ok.mp h
      obtain ⟨⟨s₁, stop⟩, hs₁, h⟩ := bind_eq_ok.mp h
      cases stop with
      | true => exact absurd hs₁ (hbody _ _ _)
      | false =>
        rw [hL, sized_cons_of_ne ht.1]
        exact ⟨ht.2, ih h⟩

/-- One step of a loop. -/
theorem whileScan_of_cons (body : σ → Bytes → C (σ × Bool)) (fuel : ℕ) (s : σ) {t : Bytes}
    (hL : statements input.rest = t :: L) (ht : t ≠ [])
    (hlen : t.length < bufferSize) : ∃ rest, statements rest = L ∧
      whileScan body (fuel + 1) s input = (do
        let (s, stop) ← body s (cstr t)
        if stop then return (s, ⟨rest, some (cstr t)⟩)
        else whileScan body fuel s ⟨rest, some (cstr t)⟩) := by
  obtain ⟨rest, hrest, hscan⟩ := fscanf_of_cons hL ht hlen
  refine ⟨rest, hrest, ?_⟩
  rw [whileScan, hscan]
  rfl

theorem whileScan_of_end (h : readable (statements input.rest) = []) :
    whileScan body (fuel + 1) s input = .ok (s, input) := by
  obtain ⟨result, hresult, hscan⟩ := fscanf_of_end input h
  rw [whileScan, hscan]
  simp [hresult]

end Loops

/-! ## The parser on a list of texts -/

/-- The loop over the insertions into the universe: the progress, and the texts from the one at which
it stopped. -/
def insertRun (rx : ParserRegex) : List Bytes → Progress → C (Progress × List Bytes)
  | [], p => .ok (p, [])
  | t :: ts, p => do
    let parsed ← parseUniverseInsert rx p.u t
    match p.step t parsed with
    | (p, some _) => return (p, t :: ts)
    | (p, none) => insertRun rx ts p

/-- The loop over the sets and the insertions into them. -/
def setRun (rx : ParserRegex) : List Bytes → SetPass → C SetPass
  | [], s => .ok s
  | t :: ts, s => do
    let (s, stop) ← setBody rx s t
    if stop then return s else setRun rx ts s

/-- The second pass over the texts from the one at which the first one stopped. -/
def secondPass (rx : ParserRegex) (p : Progress) (ts : List Bytes) : C (Progress × Option Bytes) := do
  let u := initializeSets p.u (ts.countP (isCreateSet rx))
  let s ← setRun rx ts ⟨{ p with u }, 0, none⟩
  return (s.progress, s.error)

/-- One of the first three texts, and the rest of the parser. -/
def executeOne (parse : Universe → Bytes → C Parsed) (p : Progress) (t : Bytes)
    (rest : Progress → C (Progress × Option Bytes)) : C (Progress × Option Bytes) := do
  let parsed ← parse p.u t
  match p.step t parsed with
  | (p, some message) => return (p, some message)
  | (p, none) => rest p

/-- The parser on the texts of a file. -/
def runTexts (rx : ParserRegex) (u : Universe) : List Bytes → C (Progress × Option Bytes)
  | d :: a :: i :: ts =>
    executeOne (parseUniverseDefinition rx) ⟨u, []⟩ d fun p =>
    executeOne (parseAttributesDefinition rx) p a fun p =>
    executeOne (parseUniverseInsert rx) p i fun p => do
      let (p, ts) ← insertRun rx ts p
      secondPass rx p ts
  | _ => .error .undefined

/-- The texts that are parsed: the last one stands for those missing of the first three. -/
def padded : List Bytes → List Bytes
  | [d] => [d, d, d]
  | [d, a] => [d, a, a]
  | ts => ts

theorem mem_padded {t : Bytes} {T : List Bytes} : t ∈ padded T ↔ t ∈ T := by
  rcases T with _ | ⟨d, _ | ⟨a, _ | ⟨i, ts⟩⟩⟩ <;> simp [padded]

section Runs

variable {rx : ParserRegex} {fuel n : ℕ} {input : Input} {p : Progress} {L : List Bytes}

/-- The loop over the insertions, and where it leaves the file: a text that stopped it is in the
buffer, and else nothing is left and the buffer holds the last insertion, if there was one. -/
theorem whileScan_insertBody (rx : ParserRegex) (n : ℕ) (input : Input) (p : Progress)
    (hfuel : (statements input.rest).length < fuel)
    (hsized : Sized (statements input.rest)) :
    (∃ e, insertRun rx (texts (statements input.rest)) p = .error e ∧
      whileScan (insertBody rx) fuel (p, n) input = .error e) ∨
    ∃ p' ts input', insertRun rx (texts (statements input.rest)) p = .ok (p', ts) ∧
      whileScan (insertBody rx) fuel (p, n) input =
        .ok ((p', n + ((texts (statements input.rest)).length - ts.length)), input') ∧
      ts <:+ texts (statements input.rest) ∧ Sized (statements input'.rest) ∧
      (statements input'.rest).length < fuel ∧
      ((∃ t, ts = t :: texts (statements input'.rest) ∧ input'.buffer = some t) ∨
        ts = [] ∧ readable (statements input'.rest) = [] ∧ (input'.buffer = input.buffer ∨
          ∃ t u u', input'.buffer = some t ∧ parseUniverseInsert rx u t = .ok (u', none))) := by
  induction fuel generalizing input p n with
  | zero => exact absurd hfuel (Nat.not_lt_zero _)
  | succ fuel ih =>
    rcases hL : statements input.rest with _ | ⟨t, L⟩
    · have hend : readable (statements input.rest) = [] := by rw [hL, readable_nil]
      refine Or.inr ⟨p, [], input, rfl, ?_, List.nil_suffix, hsized, by omega,
        Or.inr ⟨rfl, by rw [hL, readable_nil], Or.inl rfl⟩⟩
      rw [whileScan_of_end hend]
      rfl
    by_cases ht : t = []
    · subst ht
      have hend : readable (statements input.rest) = [] := by rw [hL, readable_nil_cons]
      rw [texts_nil_cons]
      refine Or.inr ⟨p, [], input, rfl, ?_, List.nil_suffix, hsized, by omega,
        Or.inr ⟨rfl, hend, Or.inl rfl⟩⟩
      rw [whileScan_of_end hend]
      rfl
    rw [hL] at hfuel hsized
    rw [List.length_cons] at hfuel
    rw [texts_cons_of_ne ht]
    obtain ⟨hlen, hsized⟩ := (sized_cons_of_ne ht).mp hsized
    obtain ⟨rest, hrest, hstep⟩ := whileScan_of_cons (insertBody rx) fuel (p, n) hL ht hlen
    rw [hstep, insertRun, insertBody]
    cases hparse : parseUniverseInsert rx p.u (cstr t) with
    | error e => exact Or.inl ⟨e, rfl, rfl⟩
    | ok parsed =>
      obtain ⟨u, _ | message⟩ := parsed
      · have hrest' : (statements (Input.mk rest (some (cstr t))).rest) = L := hrest
        rcases ih (n + 1) ⟨rest, some (cstr t)⟩ ⟨u, p.executed ++ [cstr t]⟩
            (by rw [hrest']; omega) (by rwa [hrest']) with ⟨e, hrun, hscan⟩ | ⟨p', ts, input', hrun,
            hscan, hsuffix, hsized', hlen', hend⟩
        · rw [hrest'] at hrun
          exact Or.inl ⟨e, hrun, hscan⟩
        · rw [hrest'] at hrun hsuffix hscan
          refine Or.inr ⟨p', ts, input', hrun, ?_, hsuffix.trans (List.suffix_cons _ _), hsized',
            by omega, ?_⟩
          · have hle := hsuffix.length_le
            have hn : n + 1 + ((texts L).length - ts.length) =
                n + ((cstr t :: texts L).length - ts.length) := by
              rw [List.length_cons]
              omega
            rw [← hn]
            exact hscan
          · rcases hend with hend | ⟨hts, hread, hbuffer | hbuffer⟩
            · exact Or.inl hend
            · exact Or.inr ⟨hts, hread, Or.inr ⟨cstr t, p.u, u, hbuffer, hparse⟩⟩
            · exact Or.inr ⟨hts, hread, Or.inr hbuffer⟩
      · refine Or.inr ⟨⟨u, p.executed⟩, cstr t :: texts L, ⟨rest, some (cstr t)⟩, rfl, ?_,
          List.suffix_rfl, by rwa [hrest], by rw [hrest]; omega, Or.inl ⟨cstr t, by rw [hrest], rfl⟩⟩
        rw [Nat.sub_self]
        rfl

theorem whileScan_countBody (rx : ParserRegex) (n : ℕ) (input : Input)
    (hfuel : (statements input.rest).length < fuel)
    (hsized : Sized (statements input.rest)) : ∃ input',
    whileScan (countBody rx) fuel n input =
      .ok (n + (texts (statements input.rest)).countP (isCreateSet rx), input') := by
  induction fuel generalizing input n with
  | zero => exact absurd hfuel (Nat.not_lt_zero _)
  | succ fuel ih =>
    rcases hL : statements input.rest with _ | ⟨t, L⟩
    · exact ⟨input, whileScan_of_end (by rw [hL, readable_nil])⟩
    by_cases ht : t = []
    · subst ht
      rw [texts_nil_cons]
      exact ⟨input, whileScan_of_end (by rw [hL, readable_nil_cons])⟩
    rw [hL] at hfuel hsized
    rw [List.length_cons] at hfuel
    obtain ⟨hlen, hsized⟩ := (sized_cons_of_ne ht).mp hsized
    obtain ⟨rest, hrest, hstep⟩ := whileScan_of_cons (countBody rx) fuel n hL ht hlen
    have hrest' : (statements (Input.mk rest (some (cstr t))).rest) = L := hrest
    obtain ⟨input', hscan⟩ := ih (if isCreateSet rx (cstr t) then n + 1 else n)
      ⟨rest, some (cstr t)⟩ (by rw [hrest']; omega) (by rwa [hrest'])
    refine ⟨input', ?_⟩
    rw [hstep, texts_cons_of_ne ht, List.countP_cons]
    apply Eq.trans hscan
    rw [hrest']
    split_ifs
    · rw [Nat.add_assoc, Nat.add_comm 1]
    · rfl

theorem whileScan_setBody (rx : ParserRegex) (input : Input) (s : SetPass)
    (hfuel : (statements input.rest).length < fuel)
    (hsized : Sized (statements input.rest)) :
    Prod.fst <$> whileScan (setBody rx) fuel s input = setRun rx (texts (statements input.rest)) s := by
  induction fuel generalizing input s with
  | zero => exact absurd hfuel (Nat.not_lt_zero _)
  | succ fuel ih =>
    rcases hL : statements input.rest with _ | ⟨t, L⟩
    · rw [whileScan_of_end (by rw [hL, readable_nil])]
      rfl
    by_cases ht : t = []
    · subst ht
      rw [texts_nil_cons, whileScan_of_end (by rw [hL, readable_nil_cons])]
      rfl
    rw [hL] at hfuel hsized
    rw [List.length_cons] at hfuel
    obtain ⟨hlen, hsized⟩ := (sized_cons_of_ne ht).mp hsized
    obtain ⟨rest, hrest, hstep⟩ := whileScan_of_cons (setBody rx) fuel s hL ht hlen
    have hrest' : (statements (Input.mk rest (some (cstr t))).rest) = L := hrest
    rw [hstep, texts_cons_of_ne ht, setRun]
    cases setBody rx s (cstr t) with
    | error e => rfl
    | ok r =>
      obtain ⟨s', _ | _⟩ := r
      · have hrun := ih ⟨rest, some (cstr t)⟩ s' (by rw [hrest']; omega)
          (by rwa [hrest'])
        rw [hrest'] at hrun
        exact hrun
      · rfl

/-- The statements that were executed are skipped when the file is reopened. -/
theorem foldlM_fscanf (file : Bytes) (n : ℕ) (buffer : Option Bytes)
    (h : ∀ s ∈ (statements file).take n, s ≠ [] ∧ s.length < bufferSize) : ∃ input,
    (List.range n).foldlM (fun input _ => Prod.snd <$> fscanf input) ⟨file, buffer⟩ = .ok input ∧
      statements input.rest = (statements file).drop n := by
  induction n with
  | zero => exact ⟨⟨file, buffer⟩, rfl, rfl⟩
  | succ n ih =>
    obtain ⟨input, hskip, hinput⟩ := ih fun s hs =>
      h s ((List.take_sublist_take_left (Nat.le_succ n)).subset hs)
    rcases hL : (statements file).drop n with _ | ⟨t, L⟩
    · obtain ⟨result, -, hscan⟩ := fscanf_of_end input (by rw [hinput, hL, readable_nil])
      refine ⟨input, ?_, ?_⟩
      · rw [List.range_succ, foldlM_snoc_eq_ok]
        exact ⟨input, hskip, by rw [hscan]; rfl⟩
      · rw [hinput, hL, ← List.drop_drop, hL, List.drop_nil]
    · have ht : t ∈ (statements file).take (n + 1) := by
        rw [List.take_add, hL]
        simp
      obtain ⟨hne, hlen⟩ := h t ht
      obtain ⟨rest, hrest, hscan⟩ := fscanf_of_cons (hinput.trans hL) hne hlen
      refine ⟨⟨rest, some (cstr t)⟩, ?_, ?_⟩
      · rw [List.range_succ, foldlM_snoc_eq_ok]
        exact ⟨input, hskip, by rw [hscan]; rfl⟩
      · show statements rest = _
        rw [hrest, ← List.drop_drop, hL, List.drop_one, List.tail_cons]

theorem take_readable (L : List Bytes) (n : ℕ) (hn : n ≤ (readable L).length) :
    L.take n = (readable L).take n := by
  obtain ⟨rest, hrest⟩ := List.takeWhile_prefix (l := L) (· ≠ [])
  conv_lhs => rw [← hrest]
  exact List.take_append_of_le_length hn

theorem length_texts (L : List Bytes) : (texts L).length = (readable L).length := List.length_map ..

theorem texts_drop {L : List Bytes} (hn : n ≤ (readable L).length) :
    texts (L.drop n) = (texts L).drop n := by
  induction n generalizing L with
  | zero => rfl
  | succ n ih =>
    rcases L with _ | ⟨s, L⟩
    · rfl
    by_cases hs : s = []
    · subst hs
      rw [readable_nil_cons] at hn
      exact absurd hn (Nat.not_succ_le_zero n)
    · rw [readable_cons_of_ne hs, List.length_cons] at hn
      rw [texts_cons_of_ne hs, List.drop_succ_cons, List.drop_succ_cons, ih (by omega)]

theorem Sized.drop (h : Sized L) (hn : n ≤ (readable L).length) : Sized (L.drop n) := by
  induction n generalizing L with
  | zero => exact h
  | succ n ih =>
    rcases L with _ | ⟨s, L⟩
    · exact h
    by_cases hs : s = []
    · subst hs
      rw [readable_nil_cons] at hn
      exact absurd hn (Nat.not_succ_le_zero n)
    · rw [readable_cons_of_ne hs, List.length_cons] at hn
      exact ih ((sized_cons_of_ne hs).mp h).2 (by omega)

/-- An insertion into the universe does not create a set. -/
theorem isCreateSet_of_insert {u u' : Universe} {t : Bytes}
    (h : parseUniverseInsert parserRegex u t = .ok (u', none)) : isCreateSet parserRegex t = false := by
  rw [parseUniverseInsert_eq] at h
  rw [isCreateSet, isCreateSet_eq]
  cases hset : createdSet t with
  | none => rfl
  | some name =>
    rw [insertion_eq_none_of_createdSet hset] at h
    exact nomatch (Prod.mk.inj (Except.ok.inj h)).2

/-- **The part after the first three statements** is a recursion over the other texts. -/
theorem parseStatements_eq {file b : Bytes}
    (h₃ : ∀ s ∈ (statements file).take 3, s ≠ [] ∧ s.length < bufferSize)
    (hinput : statements input.rest = (statements file).drop 3)
    (hsized : Sized ((statements file).drop 3)) (hbuffer : input.buffer = some b)
    (hb : isCreateSet parserRegex b = false) :
    parseStatements parserRegex file p input = (do
      let (p, ts) ← insertRun parserRegex (texts ((statements file).drop 3)) p
      secondPass parserRegex p ts) := by
  have hfuel : ∀ n, ((statements file).drop n).length < file.length + 1 := by
    intro n
    have := length_statements_le file
    rw [List.length_drop]
    omega
  rw [parseStatements]
  rcases whileScan_insertBody parserRegex 3 input p (by rw [hinput]; exact hfuel 3)
    (by rwa [hinput]) with ⟨e, hrun, hscan⟩ | ⟨p', ts, input₁, hrun, hscan, hsuffix, hsized₁, hlen₁, hend⟩
  · rw [hinput] at hrun
    rw [hscan, hrun]
    rfl
  rw [hinput] at hrun hsuffix hscan
  rw [hscan, hrun]
  -- the texts from the statement that stopped the loop are counted
  have hcount : ∃ t, readBuffer input₁ = .ok t ∧ (if isCreateSet parserRegex t then 1 else 0) +
      (texts (statements input₁.rest)).countP (isCreateSet parserRegex) =
        ts.countP (isCreateSet parserRegex) := by
    rcases hend with ⟨t, rfl, ht⟩ | ⟨rfl, hread, hlast⟩
    · refine ⟨t, by rw [readBuffer, ht], ?_⟩
      rw [List.countP_cons, Nat.add_comm]
    · have hnone : texts (statements input₁.rest) = [] := by rw [texts, hread, List.map_nil]
      rw [hnone]
      rcases hlast with hlast | ⟨t, u, u', ht, hparse⟩
      · exact ⟨b, by rw [readBuffer, hlast, hbuffer], by simp [hb]⟩
      · refine ⟨t, by rw [readBuffer, ht], ?_⟩
        simp [isCreateSet_of_insert hparse]
  obtain ⟨t, ht, hcount⟩ := hcount
  obtain ⟨input₂, hscan₂⟩ := whileScan_countBody parserRegex
    (if isCreateSet parserRegex t then 1 else 0) input₁ hlen₁ hsized₁
  -- the statements before the one that stopped the loop are skipped
  generalize hk : (texts ((statements file).drop 3)).length - ts.length = k at *
  have hkle : k ≤ (readable ((statements file).drop 3)).length := by
    rw [← length_texts]
    omega
  obtain ⟨input₃, hskip, hinput₃⟩ := foldlM_fscanf file (3 + k) input₂.buffer
    (by
      intro s hs
      rw [List.take_add, List.mem_append] at hs
      rcases hs with hs | hs
      · exact h₃ s hs
      · rw [take_readable _ _ hkle] at hs
        have hmem := (List.take_subset _ _) hs
        exact ⟨by simpa using List.mem_takeWhile_imp hmem, hsized s hmem⟩)
  have hts : texts (statements input₃.rest) = ts := by
    rw [hinput₃, ← List.drop_drop, texts_drop hkle]
    obtain ⟨pre, hpre⟩ := hsuffix
    rw [← hpre, List.length_append, Nat.add_sub_cancel] at hk
    rw [← hpre, ← hk, List.drop_left]
  have hset := whileScan_setBody parserRegex input₃
    ⟨{ p' with u := initializeSets p'.u (ts.countP (isCreateSet parserRegex)) }, 0, none⟩
    (by rw [hinput₃]; exact hfuel _)
    (by rw [hinput₃, ← List.drop_drop]; exact hsized.drop hkle)
  rw [hts] at hset
  simp only [ok_bind, ht, countBody, pure_eq_ok, Nat.zero_add]
  rw [hscan₂, ok_bind, hcount]
  simp only [hskip, ok_bind]
  rw [secondPass, ← hset]
  cases whileScan (setBody parserRegex) (file.length + 1)
    ⟨{ p' with u := initializeSets p'.u (ts.countP (isCreateSet parserRegex)) }, 0, none⟩ input₃ with
  | error e => rfl
  | ok r => rfl

section FirstStatements

variable {parse : Universe → Bytes → C Parsed} {missing s b : Bytes}
  {rest rest' : Progress → C (Progress × Option Bytes)}

theorem executeOne_congr
    (h : ∀ u', parse p.u b = .ok (u', none) →
      rest ⟨u', p.executed ++ [b]⟩ = rest' ⟨u', p.executed ++ [b]⟩) :
    executeOne parse p b rest = executeOne parse p b rest' := by
  rw [executeOne, executeOne]
  cases hparse : parse p.u b with
  | error e => rfl
  | ok parsed =>
    obtain ⟨u', _ | message⟩ := parsed
    · exact h u' hparse
    · rfl

theorem orReport_nextStatement_of_cons (input : Input) (hL : statements input.rest = s :: L) (hs : s ≠ [])
    (hlen : s.length < bufferSize) : ∃ rest, statements rest = L ∧ ∀ parse missing p K,
      orReport (nextStatement parse missing p input) K =
        executeOne parse p (cstr s) fun p => K p ⟨rest, some (cstr s)⟩ := by
  obtain ⟨rest, hrest, hscan⟩ := fscanf_of_cons hL hs hlen
  refine ⟨rest, hrest, fun parse missing p K => ?_⟩
  rw [nextStatement, hscan, orReport, executeOne]
  simp only [ok_bind, one_ne_zero, if_false, readBuffer]
  cases parse p.u (cstr s) with
  | error e => rfl
  | ok parsed => obtain ⟨u', _ | message⟩ := parsed <;> rfl

theorem orReport_nextStatement_of_nil (hL : statements input.rest = []) (hb : input.buffer = some b)
    (K : Progress → Input → C (Progress × Option Bytes)) :
    orReport (nextStatement parse missing p input) K = executeOne parse p b fun p => K p input := by
  have hscan : fscanf input = .ok (-1, input) := by rw [fscanf_eq, hL]
  rw [nextStatement, hscan, orReport, executeOne]
  simp only [ok_bind, show (-1 : ℤ) ≠ 0 by decide, if_false, readBuffer, hb]
  cases parse p.u b with
  | error e => rfl
  | ok parsed => obtain ⟨u', _ | message⟩ := parsed <;> rfl

end FirstStatements

/-- **The parser is a recursion over the texts of a file.** -/
theorem parseInitialization_eq {file : Bytes} (hregular : Regular (statements file))
    (hsized : Sized (statements file)) (u : Universe) :
    parseInitialization u file = runTexts parserRegex u (padded (texts (statements file))) := by
  obtain ⟨hne, hthree⟩ := hregular
  rw [parseInitialization, initializeParserRegex_eq, ok_bind]
  obtain ⟨d, L, hL⟩ := List.exists_cons_of_ne_nil hne
  have hall : ∀ s ∈ (statements file).take 3, s ≠ [] ∧ s.length < bufferSize := by
    intro s hs
    refine ⟨hthree s hs, hsized s ?_⟩
    have hsplit := readable_append (L := (statements file).take 3) (M := (statements file).drop 3) hthree
    rw [List.take_append_drop] at hsplit
    rw [hsplit]
    exact List.mem_append_left _ hs
  rw [hL] at hall
  obtain ⟨hd, hdlen⟩ := hall d (by simp)
  obtain ⟨rest₁, hrest₁, hread₁⟩ := orReport_nextStatement_of_cons ⟨file, none⟩ hL hd hdlen
  rw [hread₁, hL]
  have hone : ∀ input b p, input.buffer = some b → statements input.rest = (statements file).drop 3 →
      (statements file).drop 3 = [] → ∀ ts, texts ((statements file).drop 3) = ts →
      executeOne (parseUniverseInsert parserRegex) p b (fun p => parseStatements parserRegex file p input) =
        executeOne (parseUniverseInsert parserRegex) p b (fun p => do
          let (p, ts) ← insertRun parserRegex ts p
          secondPass parserRegex p ts) := by
    intro input b p hbuffer hinput hnil ts hts
    refine executeOne_congr fun u' hparse => ?_
    rw [parseStatements_eq (by rw [hL]; exact hall) hinput (by rw [hnil]; exact nofun) hbuffer
      (isCreateSet_of_insert hparse), hts]
  rcases L with _ | ⟨a, L⟩
  · rw [texts_cons_of_ne hd, texts_nil]
    refine executeOne_congr fun u₁ _ => ?_
    rw [orReport_nextStatement_of_nil hrest₁ rfl]
    refine executeOne_congr fun u₂ _ => ?_
    rw [orReport_nextStatement_of_nil hrest₁ rfl]
    exact hone _ _ _ rfl (by rw [hL]; exact hrest₁) (by rw [hL]; rfl) [] (by rw [hL]; rfl)
  obtain ⟨ha, halen⟩ := hall a (by simp)
  obtain ⟨rest₂, hrest₂, hread₂⟩ := orReport_nextStatement_of_cons
    ⟨rest₁, some (cstr d)⟩ hrest₁ ha halen
  rcases L with _ | ⟨i, L⟩
  · rw [texts_cons_of_ne hd, texts_cons_of_ne ha, texts_nil]
    refine executeOne_congr fun u₁ _ => ?_
    rw [hread₂]
    refine executeOne_congr fun u₂ _ => ?_
    rw [orReport_nextStatement_of_nil hrest₂ rfl]
    exact hone _ _ _ rfl (by rw [hL]; exact hrest₂) (by rw [hL]; rfl) [] (by rw [hL]; rfl)
  obtain ⟨hi, hilen⟩ := hall i (by simp)
  obtain ⟨rest₃, hrest₃, hread₃⟩ := orReport_nextStatement_of_cons
    ⟨rest₂, some (cstr a)⟩ hrest₂ hi hilen
  rw [texts_cons_of_ne hd, texts_cons_of_ne ha, texts_cons_of_ne hi]
  refine executeOne_congr fun u₁ _ => ?_
  rw [hread₂]
  refine executeOne_congr fun u₂ _ => ?_
  rw [hread₃]
  refine executeOne_congr fun u₃ hparse => ?_
  rw [parseStatements_eq (by rw [hL]; exact hall) (by rw [hL]; exact hrest₃) ?_ rfl
    (isCreateSet_of_insert hparse), hL]
  · rfl
  · rw [hL] at hsized ⊢
    rw [sized_cons_of_ne hd, sized_cons_of_ne ha, sized_cons_of_ne hi] at hsized
    exact hsized.2.2.2

end Runs

/-! ## Files that are not regular -/

/-- The file is accepted, or an assertion fails. -/
def Settles (result : C (Progress × Option Bytes)) : Prop :=
  (∃ p, result = .ok (p, none)) ∨ result = .error .assertion

section Irregular

variable {input : Input} {p : Progress} {file : Bytes} {L : List Bytes} {u u' : Universe} {fuel n : ℕ}

theorem Settles.bind {α : Type} {x : C α} {f : α → C (Progress × Option Bytes)}
    (h : Settles (x >>= f)) (hx : x ≠ .error .assertion) : ∃ a, x = .ok a ∧ Settles (f a) := by
  cases x with
  | ok a => exact ⟨a, rfl, h⟩
  | error e =>
    rcases h with ⟨p, h⟩ | h
    · exact nomatch h
    · exact absurd (congrArg Except.error (Except.error.inj h)) hx

theorem fscanf_ne_assertion (input : Input) : fscanf input ≠ .error .assertion := by
  rw [fscanf_eq]
  cases statements input.rest with
  | nil => exact nofun
  | cons s L =>
    show (if _ then _ else _) ≠ _
    split_ifs <;> exact nofun

theorem readBuffer_ne_assertion (input : Input) : readBuffer input ≠ .error .assertion := by
  unfold readBuffer
  cases input.buffer <;> exact nofun

/-- One of the first three statements of such a file is not missing, and is executed. -/
theorem Settles.nextStatement {parse : Universe → Bytes → C Parsed} {missing : Bytes}
    {K : Progress → Input → C (Progress × Option Bytes)}
    (h : Settles (orReport (nextStatement parse missing p input) K))
    (hparse : ∀ t, parse p.u t ≠ .error .assertion) : ∃ t u' input', parse p.u t = .ok (u', none) ∧
      Settles (K ⟨u', p.executed ++ [t]⟩ input') ∧ (statements input.rest = [] ∧ input' = input ∧
          input.buffer = some t ∨
        ∃ s, statements input.rest = s :: statements input'.rest ∧ s ≠ [] ∧ s.length < bufferSize) := by
  have hnext : SetQL.nextStatement parse missing p input ≠ .error .assertion := by
    refine bind_ne_error (fscanf_ne_assertion input) fun r _ => ?_
    show (if _ then _ else _) ≠ _
    split_ifs
    · exact nofun
    · exact bind_ne_error (readBuffer_ne_assertion _) fun t _ => bind_ne_error (hparse t) fun _ _ => nofun
  obtain ⟨⟨⟨p', _ | message⟩, input'⟩, hnext, hK⟩ := h.bind hnext
  swap
  · rcases hK with ⟨_, hK⟩ | hK
    · exact nomatch (Prod.mk.inj (Except.ok.inj hK)).2
    · exact nomatch hK
  obtain ⟨⟨result, input₁⟩, hscan, hnext⟩ := bind_eq_ok.mp hnext
  dsimp only at hnext
  split_ifs at hnext with hresult
  · exact nomatch (Prod.mk.inj (Prod.mk.inj (Except.ok.inj hnext)).1).2
  obtain ⟨t, ht, hnext⟩ := bind_eq_ok.mp hnext
  obtain ⟨⟨u', _ | message⟩, hparsed, hnext⟩ := bind_eq_ok.mp hnext
  swap
  · exact nomatch (Prod.mk.inj (Prod.mk.inj (Except.ok.inj hnext)).1).2
  obtain ⟨hp, rfl⟩ := Prod.mk.inj (Except.ok.inj hnext)
  obtain ⟨rfl, -⟩ := Prod.mk.inj hp
  refine ⟨t, u', input₁, hparsed, hK, ?_⟩
  by_cases hone : result = 1
  · subst hone
    obtain ⟨s, hL, hs, -⟩ := fscanf_eq_one hscan
    exact Or.inr ⟨s, hL, hs⟩
  · obtain ⟨hread, rfl⟩ := fscanf_ne_one hscan hone
    cases hL : statements input₁.rest with
    | nil =>
      refine Or.inl ⟨rfl, rfl, ?_⟩
      rw [readBuffer] at ht
      cases hbuffer : input₁.buffer with
      | none => rw [hbuffer] at ht; exact nomatch ht
      | some b =>
        rw [hbuffer] at ht
        exact congrArg some (Except.ok.inj ht)
    | cons s L =>
      have hs : s = [] := by
        by_contra hs
        rw [hL, readable_cons_of_ne hs] at hread
        exact nomatch hread
      rw [fscanf_eq, hL] at hscan
      simp only [hs, if_true] at hscan
      exact absurd (Prod.mk.inj (Except.ok.inj hscan)).1.symm hresult

theorem whileScan_insertBody_ne_assertion (hu : p.u.Declared)
    (hlen : p.u.keyValues.length = p.u.attributeValues.length) :
    whileScan (insertBody parserRegex) fuel (p, n) input ≠ .error .assertion := by
  induction fuel generalizing p n input with
  | zero => rintro ⟨⟩
  | succ fuel ih =>
    refine bind_ne_error (fscanf_ne_assertion input) fun r _ => ?_
    show (if _ then _ else _) ≠ _
    split_ifs
    · rintro ⟨⟩
    refine bind_ne_error (readBuffer_ne_assertion _) fun t _ => ?_
    rw [insertBody]
    cases hparse : parseUniverseInsert parserRegex p.u t with
    | error e =>
      have := parseUniverseInsert_ne_assertion hu hlen t
      rw [hparse] at this
      exact fun h => this (congrArg Except.error (Except.error.inj h))
    | ok parsed =>
      obtain ⟨u', _ | message⟩ := parsed
      · obtain ⟨items, -, -, rows, -, rfl⟩ := (parseUniverseInsert_eq_ok hu).mp hparse
        exact ih (p := ⟨_, p.executed ++ [t]⟩) (hu.withRows _ _) (by simp [Universe.withRows, hlen])
      · rintro ⟨⟩

theorem whileScan_countBody_ne_assertion :
    whileScan (countBody parserRegex) fuel n input ≠ .error .assertion := by
  induction fuel generalizing n input with
  | zero => exact nofun
  | succ fuel ih =>
    refine bind_ne_error (fscanf_ne_assertion input) fun r _ => ?_
    show (if _ then _ else _) ≠ _
    split_ifs
    · exact nofun
    · exact bind_ne_error (readBuffer_ne_assertion _) fun t _ => ih

theorem sized_of_parseStatements (hu : p.u.Declared)
    (hlen : p.u.keyValues.length = p.u.attributeValues.length)
    (h : Settles (parseStatements parserRegex file p input)) : Sized (statements input.rest) := by
  obtain ⟨⟨⟨p', k⟩, input₁⟩, hscan, h⟩ := h.bind (whileScan_insertBody_ne_assertion hu hlen)
  obtain ⟨t, -, h⟩ := h.bind (readBuffer_ne_assertion _)
  obtain ⟨⟨c, stop⟩, -, h⟩ := h.bind (x := countBody parserRegex 0 t) nofun
  obtain ⟨⟨c', input₂⟩, hcount, -⟩ := h.bind whileScan_countBody_ne_assertion
  obtain ⟨read, hread, hall⟩ := read_of_whileScan hscan
  have hsized := sized_of_whileScan (fun s t s' => by simp [countBody]) hcount
  rw [hread, Sized, readable_append fun t ht => (hall t ht).1]
  intro t ht
  rcases List.mem_append.mp ht with ht | ht
  · exact (hall t ht).2
  · exact hsized t ht

/-- **A file that is not regular** is neither accepted nor fails an assertion. -/
theorem regular_of_parse (hu : u.keyValues.length = u.attributeValues.length)
    (h : Settles (parseInitialization u file)) :
    Regular (statements file) ∧ Sized (statements file) := by
  rw [parseInitialization, initializeParserRegex_eq, ok_bind] at h
  obtain ⟨d, u₁, input₁, hd, h, hfirst⟩ := h.nextStatement
    fun t => parseUniverseDefinition_ne_error _ t (by decide)
  obtain ⟨a, u₂, input₂, ha, h, hsecond⟩ := h.nextStatement
    fun t => parseAttributesDefinition_ne_error _ t (by decide)
  obtain ⟨name, columns, types, names, -, -, hkeys, rfl⟩ := parseUniverseDefinition_eq_ok.mp hd
  obtain ⟨columns', types', names', -, hattributes, rfl⟩ := parseAttributesDefinition_eq_ok.mp ha
  have hdeclared : Universe.Declared
      { u with name, keyDataTypeNames := types, keyDataNames := names,
               attributeDataTypeNames := types', attributeDataNames := names' } :=
    ⟨(parseValueType_eq_ok hkeys).2.1, (parseValueType_eq_ok hattributes).2.1⟩
  obtain ⟨i, u₃, input₃, hi, h, hthird⟩ := h.nextStatement
    (parseUniverseInsert_ne_assertion hdeclared hu)
  obtain ⟨items, -, -, rows, -, rfl⟩ := (parseUniverseInsert_eq_ok hdeclared).mp hi
  have hsized := sized_of_parseStatements (hdeclared.withRows _ _) (by simp [Universe.withRows, hu]) h
  rcases hfirst with ⟨-, -, hnone⟩ | ⟨s₁, hL₁, hs₁, hlen₁⟩
  · cases hnone
  have hL : statements file = s₁ :: statements input₁.rest := hL₁
  rw [hL, sized_cons_of_ne hs₁]
  rcases hsecond with ⟨hnil, rfl, -⟩ | ⟨s₂, hL₂, hs₂, hlen₂⟩
  · rw [hnil]
    exact ⟨⟨List.cons_ne_nil _ _, by simpa using hs₁⟩, hlen₁, sized_of_readable rfl⟩
  rw [hL₂, sized_cons_of_ne hs₂]
  rcases hthird with ⟨hnil, rfl, -⟩ | ⟨s₃, hL₃, hs₃, hlen₃⟩
  · rw [hnil]
    exact ⟨⟨List.cons_ne_nil _ _, by simp [hs₁, hs₂]⟩, hlen₁, hlen₂, sized_of_readable rfl⟩
  rw [hL₃, sized_cons_of_ne hs₃]
  exact ⟨⟨List.cons_ne_nil _ _, by simp [hs₁, hs₂, hs₃]⟩, hlen₁, hlen₂, hlen₃, hsized⟩

end Irregular

end SetQL
