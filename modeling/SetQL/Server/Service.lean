import SetQL.Parser.Meaning
import SetQL.Server.EndToEnd

/-!
# The service

`main.c`: the child process parses the initialization file, loads its universe into a new database,
and serves queries about it. What a client reads is what its query means over what the file means.

## Main definitions

* `startChild mem file`: the child process up to its server

## Main results

* `startChild_serves`: the service of a file
-/

namespace SetQL

/-- `main` in the child process, up to the server: the database that queries are run on, or none if
the file is refused. The value that `db_addParsedData` returns is not looked at. -/
def startChild (mem : Memory) (file : Bytes) : C (Option Database) := do
  let (p, error) ← parseInitialization createEmptyUniverse file
  if error.isSome then return none
  else
    let db ← mainDatabase p.u
    let (s, _) ← dbAddParsedData mem db p.u
    return some s.db

section Service

variable {mem : Memory} {d : Description} {u : Universe} {db : Database} {t₁ t₂ file : Bytes}
  {inserts sets : List Bytes}

/-- The server is started only with a file that is accepted. -/
theorem exists_parse_of_startChild (h : startChild mem file = .ok (some db)) :
    ∃ p, parseInitialization createEmptyUniverse file = .ok (p, none) := by
  rw [startChild, bind_eq_ok] at h
  obtain ⟨⟨p, error⟩, hparse, h⟩ := h
  cases error with
  | none => exact ⟨p, hparse⟩
  | some message =>
    simp only [Option.isSome_some, if_true, pure_eq_ok] at h
    cases h

theorem startChild_of_parse {p : Progress} {db₀ : Database} {s : Load} {ret : ℕ}
    (hparse : parseInitialization createEmptyUniverse file = .ok (p, none))
    (h₀ : mainDatabase p.u = .ok db₀) (hload : dbAddParsedData mem db₀ p.u = .ok (s, ret)) :
    startChild mem file = .ok (some s.db) := by
  rw [startChild, hparse, ok_bind]
  simp only [Option.isSome_none, Bool.false_eq_true, if_false, h₀, ok_bind, hload, pure_eq_ok]

/-- **A file is served as it is meant**: with a file that means nothing no server is started, and with
one that means a universe within the capacities every client is answered as its query means over
it. -/
theorem startChild_serves (mem : Memory) (h : d.Texts t₁ t₂ inserts sets)
    (hfile : FileOf (t₁ :: t₂ :: (inserts ++ sets)) file) (hnul : NulFree file)
    (hsized : ∀ t ∈ t₁ :: t₂ :: (inserts ++ sets), t.length < bufferSize) :
    (d.meaning = none → ∀ db, startChild mem file ≠ .ok (some db)) ∧
      ∀ u, d.meaning = some u → Loadable u →
        ∃ db, startChild mem file = .ok (some db) ∧ Serves u db := by
  have hstatements := h.statements_eq hfile
  have haccepts := fun p => h.parse_eq_ok (p := p) hstatements hnul (hstatements ▸ hsized)
  constructor
  · intro hnone db hstart
    obtain ⟨p, hparse⟩ := exists_parse_of_startChild hstart
    rw [haccepts, hnone] at hparse
    cases hparse.1
  · intro u hmeaning hu
    obtain ⟨db₀, s, h₀, hload, hloaded⟩ := exists_loadedFrom mem hu
    have hparse := (haccepts ⟨u, statements file⟩).mpr ⟨hmeaning, by dsimp only⟩
    exact ⟨s.db, startChild_of_parse hparse h₀ hload, hloaded.serves⟩

end Service

section Animal

theorem loadable_animalSetUniverse : Loadable animalSetUniverse where
  shaped := by
    refine ⟨by decide, rfl, fun k hk => ?_, fun k hk i hi => ?_, fun set hset j hj => ?_⟩
    · obtain rfl := Nat.lt_one_iff.mp hk
      exact ⟨_, rfl⟩
    · obtain rfl := Nat.lt_one_iff.mp hk
      obtain rfl := Nat.lt_one_iff.mp hi
      exact ⟨_, rfl⟩
    · obtain rfl := List.mem_singleton.mp hset
      obtain rfl := Nat.lt_one_iff.mp hj
      exact ⟨_, rfl⟩
  keyColumn := rfl
  keyName_ne := by decide
  keyName_lt := by decide
  rows_pos := by decide
  rows_le := by decide
  length_eq := rfl
  key := by decide
  names := by decide
  types := by decide
  strings := by decide
  integers := by
    intro i hi htype r hr
    obtain rfl := Nat.lt_one_iff.mp hr
    obtain rfl := Nat.lt_one_iff.mp hi
    exact ⟨2, ⟨lit "2", by decide, by decide +kernel,
      Or.inl ⟨by decide, by decide⟩⟩, by decide⟩
  setNames := by decide
  setNames_ne := by decide
  sets_le := by decide
  attributes_le := by decide

theorem queryForm_animal :
    QueryForm (lit "SELECT name, legs FROM Bird;") [lit "name", lit "legs"] (.name (lit "Bird")) := by
  have hname : IsName (lit "name") ∧ IsName (lit "legs") ∧ IsName (lit "Bird") := by
    unfold IsName IsNameByte IsLetter
    decide +kernel
  obtain ⟨hname, hlegs, hbird⟩ := hname
  exact ⟨[], lit "SELECT", lit " ", lit "name, legs", lit " ", lit "FROM", lit " ", lit "Bird", [], [],
    by decide, spaces_nil, by unfold Keyword; decide, spaces_blank, by decide,
    .cons (a := []) (b := lit " ") hname spaces_nil spaces_blank (.single hlegs),
    spaces_blank, by decide, by unfold Keyword; decide, spaces_blank, by decide,
    .name hbird, spaces_nil, spaces_nil⟩

theorem answerable_animal :
    Answerable animalSetUniverse [lit "name", lit "legs"] (.name (lit "Bird")) where
  sets := by
    intro s hs
    exact ⟨_, List.mem_singleton_self _, (List.mem_singleton.mp hs).symm⟩
  columns := by decide
  length_le := by decide
  texts := by
    unfold IsUtf8
    decide
  noPhantom := by decide
  rows_lt := by decide

/-- A file with one row and one set is served. -/
theorem startChild_serves_animal :
    ∃ db, startChild ⟨fun _ _ => 0, fun _ _ _ => 0, fun _ _ _ => 0⟩ animalFile = .ok (some db) ∧
      ∃ reply, messageCallbackFunc ⟨fun _ => 0, fun _ _ => 0⟩ db
          (lit "SELECT name, legs FROM Bird;") = .ok (1, reply) ∧
        fetchResult true reply = .ok ([.strings ["Crow"], .integers [2]], []) := by
  have hmeaning : animalDescription.meaning = some animalSetUniverse := by decide
  have hsized : ∀ t ∈ animalTexts, t.length < 64 := by decide
  obtain ⟨db, hstart, hserves⟩ := (startChild_serves ⟨fun _ _ => 0, fun _ _ _ => 0, fun _ _ _ => 0⟩
    animalDescription_texts animalFile_fileOf nulFree_animalFile
    fun t ht => (hsized t ht).trans (by decide)).2 _ hmeaning loadable_animalSetUniverse
  obtain ⟨reply, hreply, hfetch⟩ := hserves ⟨fun _ => 0, fun _ _ => 0⟩ _ _ _ (fun _ => rfl)
    queryForm_animal answerable_animal
  refine ⟨db, hstart, reply, hreply, hfetch.trans ?_⟩
  decide

end Animal

end SetQL
