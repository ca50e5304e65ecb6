import SetQL.Base.Search
import SetQL.Parser.WellFormed

/-!
# White space between statements

Every expression of a statement skips the white space before it, so a statement reads the same
behind any white space. White space behind a semicolon becomes part of the next statement; at the
end of the file, and before a semicolon, it becomes a statement of its own, which no parser accepts.

## Main definitions

* `SameReading t t'`: every parser of statements reads the two texts alike

## Main results

* `sameReading_append`: a text reads the same behind white space
* `Executes.congr`: texts that read alike are executed alike
* `spaced_iff`: an accepted file with white space behind a semicolon is accepted with the same
  universe exactly if a statement follows, or nothing is read there
-/

namespace SetQL

/-- Every parser of statements reads the two texts alike. -/
structure SameReading (t t' : Bytes) : Prop where
  universeDefinition : definition parserRegex.universeDefinition t' =
    definition parserRegex.universeDefinition t
  attributesDefinition : definition parserRegex.attributesDefinition t' =
    definition parserRegex.attributesDefinition t
  insertion : insertion t' = insertion t
  createdSet : createdSet t' = createdSet t

/-! ## Readings -/

section Readings

variable {p : Pattern} {r : Regex} {x : ByteSet} {c : UInt8} {s t t' w : Bytes} {g : ℕ}

/-- A group is found behind a byte that is skipped. -/
theorem found_cons_skip (hbody : p.body = skip x r) (hc : x.contains c = true)
    (hr : r.lens (c :: s) = []) (hg : g ≠ 0) : found p (c :: s) g = found p s g := by
  rw [found, regexec_cons_skip hbody hc hr, found]
  cases regexec p s with
  | none => rfl
  | some m =>
    show Option.map _ ((m.shift 1).group g) = Option.map _ (m.group g)
    rw [RegMatch.group, RegMatch.group, if_neg hg, if_neg hg, RegMatch.shift, ← List.map_reverse,
      List.find?_map, Option.map_map, Option.map_map, Option.map_map]
    rfl

/-- A match that starts with a word does not start with white space. -/
theorem lens_word_of_isSpace {word : Bytes} (hword : ∀ b ∈ word, 65 ≤ b ∧ b ≤ 90) (hne : word ≠ [])
    (hc : IsSpace c) : (Regex.word true word r).lens (c :: s) = [] := by
  refine List.eq_nil_iff_forall_not_mem.mpr fun k hk => ?_
  obtain ⟨-, cs, hparse⟩ := (mem_lens_iff (i := 0)).mp hk
  obtain ⟨l, v, hsplit, hl, -⟩ := (parse_keyword hword).mp hparse
  cases l with
  | nil => exact hne hl.symm
  | cons b l =>
    have hletter := hl.letters (letters_of_upper hword) b List.mem_cons_self
    cases k with
    | zero => exact nomatch hsplit
    | succ k =>
      obtain rfl : c = b := (List.cons.inj hsplit).1
      exact hletter.isNameByte.not_isSpace hc

/-- A group is found behind white space, if the expression skips it and then starts with a word. -/
theorem found_append_spaces {word : Bytes} (hword : ∀ b ∈ word, 65 ≤ b ∧ b ≤ 90) (hne : word ≠ [])
    (hbody : p.body = spacesThen (.word true word r)) (hw : Spaces w) (hg : g ≠ 0) :
    found p (w ++ s) g = found p s g := by
  induction w with
  | nil => rfl
  | cons c w ih =>
    obtain ⟨hc, hw⟩ := List.forall_mem_cons.mp hw
    rw [List.cons_append, found_cons_skip hbody ((contains_spaceSet c).mpr hc)
      (lens_word_of_isSpace hword hne hc) hg, ih hw]

/-- **A text reads the same behind white space.** -/
theorem sameReading_append (hw : Spaces w) (t : Bytes) : SameReading t (w ++ t) := by
  have hdefinition : ∀ {word : Bytes}, definition ⟨false, definitionRegex word, false⟩ (w ++ t) =
      definition ⟨false, definitionRegex word, false⟩ t := by
    intro word
    rw [definition, definition, found_append_spaces upper_create (by decide) rfl hw (by decide),
      found_append_spaces upper_create (by decide) rfl hw (by decide)]
  refine ⟨hdefinition, hdefinition, ?_, ?_⟩
  · rw [insertion, insertion, found_append_spaces upper_insert (by decide) rfl hw (by decide),
      found_append_spaces upper_insert (by decide) rfl hw (by decide)]
  · rw [createdSet, createdSet, found_append_spaces upper_create (by decide) rfl hw (by decide)]

theorem forall₂_sameReading (ts : List Bytes) : List.Forall₂ SameReading ts ts :=
  List.forall₂_same.mpr fun t _ => sameReading_append (w := []) nofun t

theorem SameReading.symm (h : SameReading t t') : SameReading t' t :=
  ⟨h.universeDefinition.symm, h.attributesDefinition.symm, h.insertion.symm, h.createdSet.symm⟩

end Readings

/-! ## Runs -/

section Runs

variable {u u' : Universe} {t t' d d' a a' i i' : Bytes} {ts ts' inserts inserts' sets sets' : List Bytes}
  {k k' : ℕ}

theorem SameReading.parseUniverseDefinition (h : SameReading t t') (u : Universe) :
    parseUniverseDefinition parserRegex u t' = parseUniverseDefinition parserRegex u t := by
  rw [parseUniverseDefinition_eq, parseUniverseDefinition_eq, h.universeDefinition]

theorem SameReading.parseAttributesDefinition (h : SameReading t t') (u : Universe) :
    parseAttributesDefinition parserRegex u t' = parseAttributesDefinition parserRegex u t := by
  rw [parseAttributesDefinition_eq, parseAttributesDefinition_eq, h.attributesDefinition]

theorem SameReading.parseUniverseInsert (h : SameReading t t') (u : Universe) :
    parseUniverseInsert parserRegex u t' = parseUniverseInsert parserRegex u t := by
  rw [parseUniverseInsert_eq, parseUniverseInsert_eq, h.insertion]

theorem SameReading.isCreateSet (h : SameReading t t') :
    isCreateSet parserRegex t' = isCreateSet parserRegex t := by
  rw [SetQL.isCreateSet, SetQL.isCreateSet, isCreateSet_eq, isCreateSet_eq, h.createdSet]

theorem SameReading.parseSetStatement (h : SameReading t t') (u : Universe) (k : ℕ) :
    parseSetStatement u k t' = parseSetStatement u k t := by
  rw [SetQL.parseSetStatement, SetQL.parseSetStatement, h.isCreateSet, parseCreateSet_eq,
    parseCreateSet_eq, h.createdSet, parseSetInsert_eq, parseSetInsert_eq, h.insertion]

theorem Inserts.congr (h : Inserts u ts u') (hts : List.Forall₂ SameReading ts ts') :
    Inserts u ts' u' := by
  induction h generalizing ts' with
  | nil u =>
    cases hts
    exact .nil u
  | cons h _ ih =>
    cases hts with
    | cons ht hts => exact .cons ((ht.parseUniverseInsert _).trans h) (ih hts)

theorem SetSteps.congr (h : SetSteps u k ts u' k') (hts : List.Forall₂ SameReading ts ts') :
    SetSteps u k ts' u' k' := by
  induction hts generalizing u k with
  | nil => exact h
  | @cons t t' ts ts' ht hts ih =>
    obtain ⟨u₁, hparse, hrest⟩ := setSteps_cons.mp h
    have hnext : nextSetIndex k t' = nextSetIndex k t := by
      rw [nextSetIndex, nextSetIndex, ht.isCreateSet]
    exact setSteps_cons.mpr ⟨u₁, (ht.parseSetStatement u k).trans hparse, hnext ▸ ih hrest⟩

theorem countP_isCreateSet_congr (hts : List.Forall₂ SameReading ts ts') :
    ts'.countP (isCreateSet parserRegex) = ts.countP (isCreateSet parserRegex) := by
  induction hts with
  | nil => rfl
  | cons ht _ ih => rw [List.countP_cons, List.countP_cons, ih, ht.isCreateSet]

/-- **Texts that read alike are executed alike.** -/
theorem Executes.congr (h : Executes u d a i inserts sets u') (hd : SameReading d d')
    (ha : SameReading a a') (hi : SameReading i i') (hinserts : List.Forall₂ SameReading inserts inserts')
    (hsets : List.Forall₂ SameReading sets sets') : Executes u d' a' i' inserts' sets' u' := by
  obtain ⟨⟨u₁, u₂, u₃, u₄, k, h₁, h₂, h₃, h₄, h₅⟩, hstarts⟩ := h
  refine ⟨⟨u₁, u₂, u₃, u₄, k, (hd.parseUniverseDefinition u).trans h₁,
    (ha.parseAttributesDefinition u₁).trans h₂, (hi.parseUniverseInsert u₂).trans h₃,
    h₄.congr hinserts, ?_⟩, ?_⟩
  · rw [countP_isCreateSet_congr hsets]
    exact h₅.congr hsets
  · cases hsets with
    | nil => exact nofun
    | cons ht _ =>
      rintro t ⟨⟩
      exact ht.isCreateSet.trans (hstarts _ rfl)

theorem IsExecuted.congr (h : IsExecuted t) (ht : SameReading t t') : IsExecuted t' := by
  obtain ⟨u, u', k, h | h | h | h⟩ := h
  · exact ⟨u, u', k, Or.inl ((ht.parseUniverseDefinition u).trans h)⟩
  · exact ⟨u, u', k, Or.inr (Or.inl ((ht.parseAttributesDefinition u).trans h))⟩
  · exact ⟨u, u', k, Or.inr (Or.inr (Or.inl ((ht.parseUniverseInsert u).trans h)))⟩
  · exact ⟨u, u', k, Or.inr (Or.inr (Or.inr ((ht.parseSetStatement u k).trans h)))⟩

/-- **White space is not executed**: it reads as the empty text. -/
theorem IsExecuted.not_spaces (h : IsExecuted t) : ¬Spaces t := by
  intro ht
  have hempty := sameReading_append ht []
  rw [List.append_nil] at hempty
  exact (h.congr hempty.symm).ne_nil rfl

end Runs

/-! ## Files -/

section Files

variable {file pre post w s : Bytes} {L : List Bytes} {p : Progress}

/-- The statements up to a semicolon, and those behind it. -/
theorem statements_append (pre post : Bytes) : statements (pre ++ semicolon :: post) =
    statements (pre ++ [semicolon]) ++ statements post := by
  induction pre with
  | nil => rfl
  | cons c pre ih =>
    rw [List.cons_append, List.cons_append, statements, statements]
    split_ifs with hc
    · rw [ih, List.cons_append]
    · obtain ⟨s, L, hL⟩ : ∃ s L, statements (pre ++ [semicolon]) = s :: L :=
        ⟨_, _, statements_eq (by simp)⟩
      rw [ih, hL]
      rfl

/-- White space becomes part of the statement behind it, or a statement of its own. -/
theorem statements_spaces_append (hw : Spaces w) (hne : w ≠ []) (post : Bytes) :
    statements (w ++ post) = (w ++ (statements post).headD []) :: (statements post).tail := by
  induction w with
  | nil => exact absurd rfl hne
  | cons c w ih =>
    obtain ⟨hc, hw⟩ := List.forall_mem_cons.mp hw
    have hsemicolon : c ≠ semicolon := by
      rintro rfl
      exact absurd hc (by decide)
    rw [List.cons_append, statements, if_neg hsemicolon]
    by_cases hnil : w = []
    · subst hnil
      rw [List.nil_append]
      cases statements post <;> rfl
    · rw [ih hw hnil]
      rfl

/-- Nothing is read behind an empty statement. -/
theorem readable_append_of_mem (h : [] ∈ L) (M : List Bytes) : readable (L ++ M) = readable L := by
  induction L with
  | nil => exact absurd h List.not_mem_nil
  | cons s L ih =>
    rw [List.cons_append]
    by_cases hs : s = []
    · rw [hs, readable_nil_cons, readable_nil_cons]
    · rw [readable_cons_of_ne hs, readable_cons_of_ne hs,
        ih ((List.mem_cons.mp h).resolve_left (Ne.symm hs))]

/-- The first three statements are not empty, so they are before an empty one. -/
theorem Regular.append_of_mem {M N : List Bytes} (hregular : Regular (L ++ M)) (h : [] ∈ L) :
    Regular (L ++ N) := by
  have hlen : 3 ≤ L.length := by
    by_contra hlt
    refine hregular.2 [] ?_ rfl
    rw [List.take_append, List.take_of_length_le (by omega)]
    exact List.mem_append_left _ h
  refine ⟨by simp [List.ne_nil_of_mem h], fun s hs => hregular.2 s ?_⟩
  rwa [List.take_append_of_le_length hlen] at hs ⊢

theorem cstr_spaces_append (hw : Spaces w) (s : Bytes) : cstr (w ++ s) = w ++ cstr s := by
  refine List.takeWhile_append_of_pos fun b hb => ?_
  have hspace := hw b hb
  revert hspace
  exact forall_byte (p := fun b => IsSpace b → (b != 0) = true) (by decide +kernel) b

theorem padded_congr {R : Bytes → Bytes → Prop} {T T' : List Bytes} (h : List.Forall₂ R T T') :
    List.Forall₂ R (padded T) (padded T') := by
  rcases h with _ | ⟨hd, _ | ⟨ha, _ | ⟨hi, h⟩⟩⟩
  · exact .nil
  · exact .cons hd (.cons hd (.cons hd .nil))
  · exact .cons hd (.cons ha (.cons ha .nil))
  · exact .cons hd (.cons ha (.cons hi h))

/-- A file whose texts read like those of an accepted file is accepted with the same universe. -/
theorem parse_congr {file' : Bytes} (h : parseInitialization createEmptyUniverse file = .ok (p, none))
    (hregular : Regular (statements file') ∧ Sized (statements file'))
    (htexts : List.Forall₂ SameReading (texts (statements file)) (texts (statements file'))) :
    ∃ p', parseInitialization createEmptyUniverse file' = .ok (p', none) ∧ p'.u = p.u := by
  obtain ⟨-, d, a, i, inserts, sets, hT, hexecutes, -⟩ := (parse_eq_ok rfl).mp h
  have hall := padded_congr htexts
  rw [hT] at hall
  obtain ⟨d', T₁, hd, hall, hT₁⟩ := List.forall₂_cons_left_iff.mp hall
  obtain ⟨a', T₂, ha, hrest, rfl⟩ := List.forall₂_cons_left_iff.mp hall
  obtain ⟨i', T₃, hi, hlast, rfl⟩ := List.forall₂_cons_left_iff.mp hrest
  -- the rest is cut where the insertions into the universe end
  obtain ⟨inserts', sets', rfl, hinserts, hsets⟩ : ∃ inserts' sets', T₃ = inserts' ++ sets' ∧
      List.Forall₂ SameReading inserts inserts' ∧ List.Forall₂ SameReading sets sets' := by
    have htake := List.forall₂_take inserts.length hlast
    have hdrop := List.forall₂_drop inserts.length hlast
    rw [List.take_left] at htake
    rw [List.drop_left] at hdrop
    exact ⟨_, _, (List.take_append_drop inserts.length T₃).symm, htake, hdrop⟩
  exact ⟨⟨p.u, padded (texts (statements file'))⟩,
    (parse_eq_ok rfl).mpr ⟨hregular, d', a', i', inserts', sets', hT₁,
    hexecutes.congr hd ha hi hinserts hsets, rfl⟩, rfl⟩

theorem not_spaces_of_parse (h : parseInitialization createEmptyUniverse file = .ok (p, none))
    (hs : s ∈ readable (statements file)) : ¬Spaces s := by
  obtain ⟨-, d, a, i, inserts, sets, hT, hexecutes, -⟩ := (parse_eq_ok rfl).mp h
  intro hspaces
  have hcstr : cstr s = s := by
    have := cstr_spaces_append hspaces []
    rwa [show cstr [] = [] from rfl, List.append_nil] at this
  have hmem : s ∈ padded (texts (statements file)) := mem_padded.mpr (hcstr ▸ List.mem_map_of_mem hs)
  rw [hT] at hmem
  exact (hexecutes.isExecuted s hmem).not_spaces hspaces

/-- A statement behind ones that are not empty may be exchanged. -/
theorem Regular.replace {M : List Bytes} {t : Bytes} (h : Regular (L ++ s :: M))
    (hL : ∀ t ∈ L, t ≠ []) (ht : t ≠ []) : Regular (L ++ t :: M) := by
  refine ⟨by simp, fun r hr => ?_⟩
  have hall := h.2 r
  rw [List.take_append, List.mem_append] at hr hall
  rcases hr with hr | hr
  · exact hL r (List.mem_of_mem_take hr)
  · cases hn : 3 - L.length with
    | zero =>
      rw [hn] at hr
      exact absurd hr List.not_mem_nil
    | succ n =>
      rw [hn, List.take_succ_cons] at hr hall
      rcases List.mem_cons.mp hr with rfl | hr
      · exact ht
      · exact hall (Or.inr (List.mem_cons_of_mem _ hr))

theorem Sized.replace {M : List Bytes} {t : Bytes} (h : Sized (L ++ s :: M)) (hL : ∀ t ∈ L, t ≠ [])
    (hs : s ≠ []) (ht : t ≠ []) (hlen : t.length < bufferSize) : Sized (L ++ t :: M) := by
  rw [Sized, readable_append hL, readable_cons_of_ne hs] at h
  rw [Sized, readable_append hL, readable_cons_of_ne ht]
  intro r hr
  rcases List.mem_append.mp hr with hr | hr
  · exact h r (List.mem_append_left _ hr)
  · rcases List.mem_cons.mp hr with rfl | hr
    · exact hlen
    · exact h r (List.mem_append_right _ (List.mem_cons_of_mem _ hr))

/-- White space in front of a statement changes no reading. -/
theorem texts_spaces_append {M : List Bytes} (hw : Spaces w) (hL : ∀ t ∈ L, t ≠ []) (hs : s ≠ [])
    (hws : w ++ s ≠ []) :
    List.Forall₂ SameReading (texts (L ++ s :: M)) (texts (L ++ (w ++ s) :: M)) := by
  rw [texts, texts, readable_append hL, readable_append hL, readable_cons_of_ne hs,
    readable_cons_of_ne hws, List.map_append, List.map_append, List.map_cons, List.map_cons,
    cstr_spaces_append hw]
  exact List.rel_append (forall₂_sameReading _)
    (.cons (sameReading_append hw _) (forall₂_sameReading _))

/-- **White space behind a semicolon is irrelevant** exactly where a statement follows, which still
fits the buffer, or where nothing is read, behind an empty statement. -/
theorem spaced_iff
    (h : parseInitialization createEmptyUniverse (pre ++ semicolon :: post) = .ok (p, none))
    (hw : Spaces w) :
    (∃ p', parseInitialization createEmptyUniverse (pre ++ semicolon :: (w ++ post)) =
        .ok (p', none) ∧ p'.u = p.u) ↔
      w = [] ∨ [] ∈ statements (pre ++ [semicolon]) ∨
        ∃ s L, statements post = s :: L ∧ s ≠ [] ∧ (w ++ s).length < bufferSize := by
  obtain ⟨hregular, hsized⟩ := regular_of_parse rfl (Or.inl ⟨p, h⟩)
  have hL : statements (pre ++ [semicolon]) ≠ [] := by
    rw [statements_eq (by simp)]
    exact List.cons_ne_nil _ _
  have hfile := statements_append pre post
  have hfile' := statements_append pre (w ++ post)
  generalize statements (pre ++ [semicolon]) = L at hL hfile hfile' ⊢
  rw [hfile] at hregular hsized
  constructor
  · rintro ⟨p', h', -⟩
    by_contra hnot
    push Not at hnot
    obtain ⟨hne, hnil, hnext⟩ := hnot
    have hLne : ∀ s ∈ L, s ≠ [] := fun s hs heq => hnil (heq ▸ hs)
    have hspaced := statements_spaces_append hw hne post
    have hhead : (statements post).headD [] ≠ [] := by
      intro hempty
      refine not_spaces_of_parse h' (s := w) ?_ hw
      rw [hfile', readable_append hLne, hspaced, hempty, List.append_nil,
        readable_cons_of_ne hne]
      exact List.mem_append_right _ List.mem_cons_self
    cases hpost : statements post with
    | nil => exact hhead (by rw [hpost, List.headD_nil])
    | cons s M =>
      rw [hpost, List.headD_cons] at hhead
      have hlong := hnext s M hpost hhead
      obtain ⟨-, hsized'⟩ := regular_of_parse rfl (Or.inl ⟨p', h'⟩)
      rw [hfile', hspaced, hpost] at hsized'
      refine absurd (hsized' (w ++ s) ?_) (Nat.not_lt.mpr hlong)
      rw [readable_append hLne, List.headD_cons, readable_cons_of_ne (by simp [hne])]
      exact List.mem_append_right _ List.mem_cons_self
  · intro hcondition
    by_cases hnil : [] ∈ L
    · have hread := (readable_append_of_mem hnil (statements (w ++ post))).trans
        (readable_append_of_mem hnil (statements post)).symm
      refine parse_congr h ⟨?_, ?_⟩ ?_
      · rw [hfile']
        exact hregular.append_of_mem hnil
      · rw [hfile', Sized, hread]
        exact hsized
      · rw [hfile, hfile', texts, texts, hread]
        exact forall₂_sameReading _
    rcases hcondition with rfl | hnil' | ⟨s, M, hpost, hs, hlen⟩
    · exact ⟨p, h, rfl⟩
    · exact absurd hnil' hnil
    by_cases hne : w = []
    · subst hne
      exact ⟨p, h, rfl⟩
    have hLne : ∀ s ∈ L, s ≠ [] := fun s hs heq => hnil (heq ▸ hs)
    have hspaced : statements (w ++ post) = (w ++ s) :: M := by
      rw [statements_spaces_append hw hne, hpost]
      rfl
    have hws : w ++ s ≠ [] := by simp [hne]
    rw [hpost] at hregular hsized hfile
    rw [hspaced] at hfile'
    refine parse_congr h ?_ ?_ <;> rw [hfile']
    · exact ⟨hregular.replace hLne hws, hsized.replace hLne hs hws hlen⟩
    · rw [hfile]
      exact texts_spaces_append hw hLne hs hws

theorem spaced_iff_animal : ∃ p', parseInitialization createEmptyUniverse
    (lit "CREATE UNIVERSE Animal(name STRING)" ++
      semicolon :: (lit "\n" ++ animalFile.drop 36)) = .ok (p', none) := by
  obtain ⟨⟨p, _⟩, h, rfl⟩ := map_eq_ok.mp parse_animalFile
  have hsplit : animalFile = lit "CREATE UNIVERSE Animal(name STRING)" ++
      semicolon :: animalFile.drop 36 := by decide +kernel
  have hspace : Spaces (lit "\n") := by
    unfold Spaces
    decide +kernel
  rw [hsplit] at h
  obtain ⟨p', h', -⟩ := (spaced_iff h hspace).mpr (Or.inr (Or.inr
    ⟨_, _, statements_eq (by decide +kernel), by decide +kernel, by decide +kernel⟩))
  exact ⟨p', h'⟩

/-- White space at the end of a file is a statement that is not executed. -/
theorem not_spaced_end : ¬ ∀ pre post w p,
    parseInitialization createEmptyUniverse (pre ++ semicolon :: post) = .ok (p, none) → Spaces w →
      ∃ p', parseInitialization createEmptyUniverse (pre ++ semicolon :: (w ++ post)) =
        .ok (p', none) ∧ p'.u = p.u := by
  intro hall
  have hsame : statements (animalFile ++ semicolon :: []) = statements animalFile := by
    decide +kernel
  obtain ⟨⟨p₀, _⟩, h₀, rfl⟩ := map_eq_ok.mp parse_animalFile
  have hregular := ((parse_eq_ok rfl).mp h₀).1
  rw [← hsame] at hregular
  obtain ⟨p, h, -⟩ := parse_congr h₀ hregular (by
    rw [hsame]
    exact forall₂_sameReading _)
  have hspace : Spaces (lit "\n") := by
    unfold Spaces
    decide +kernel
  obtain ⟨p', h', -⟩ := hall animalFile [] (lit "\n") p h hspace
  exact not_spaces_of_parse h' (s := lit "\n") (by decide +kernel) hspace

end Files

end SetQL
