import SetQL.Base.Regex

/-!
# POSIX extended regular expressions

`regcomp` compiles the text of an extended regular expression, with the classes `\s` and `\w` of
the GNU library, and `regexec` finds the leftmost match in a string and, of the matches from
there, the longest. Text that starts an interval, or anchors inside an expression, are not
compiled.

## Main definitions

* `scan`: the tokens of an expression
* `Pattern`, `regcomp`: a compiled expression, anchored at its start, at its end, or at both
* `RegMatch`, `regexec`: a match and its groups, and the search for it

## Main results

* `regexec_eq_some`: a match found is a match
* `regexec_anchored_eq_none`: an expression anchored at both ends is not found when it does not
  match the whole string
-/

namespace SetQL

/-- The byte of an ASCII character. -/
def chr (c : Char) : UInt8 := c.toUInt8

/-- The byte of a backslash. -/
def backslash : UInt8 := 92

/-! ## Compilation -/

/-- The tokens of an expression. -/
inductive Token
  | set (s : ByteSet)
  | star
  | plus
  | opt
  | bar
  | opening
  | closing
  | bol
  | eol
  deriving DecidableEq, Repr

/-- What the scanner has read: nothing of a token, a backslash, the bracket that opens a bracket
expression, or a part of one with its last ranges first; `dash` after a hyphen that may be a
range. -/
inductive ScanMode
  | plain
  | escape
  | bracketStart
  | bracket (negated dash : Bool) (ranges : List (UInt8 × UInt8))

/-- `\s`. -/
def spaceSet (icase : Bool) : ByteSet := ⟨false, icase, [(9, 13), (32, 32)]⟩

/-- `\w`. -/
def wordSet (icase : Bool) : ByteSet :=
  ⟨false, icase, [(chr 'a', chr 'z'), (chr 'A', chr 'Z'), (chr '0', chr '9'), (chr '_', chr '_')]⟩

/-- A character that stands for itself. -/
def literal (icase : Bool) (c : UInt8) : ByteSet := ⟨false, icase, [(c, c)]⟩

/-- The token of an escaped character. -/
def escapeToken (icase : Bool) (c : UInt8) : Token :=
  if c = chr 's' then .set (spaceSet icase)
  else if c = chr 'w' then .set (wordSet icase)
  else .set (literal icase c)

/-- The token of a character that starts no bracket, escape or interval. -/
def plainToken (icase : Bool) (c : UInt8) : Token :=
  if c = chr '*' then .star
  else if c = chr '+' then .plus
  else if c = chr '?' then .opt
  else if c = chr '|' then .bar
  else if c = chr '(' then .opening
  else if c = chr ')' then .closing
  else if c = chr '^' then .bol
  else if c = chr '$' then .eol
  else if c = chr '.' then .set ⟨true, icase, []⟩
  else .set (literal icase c)

/-- The tokens of an expression; `none` if it ends within one. -/
def scan (icase : Bool) : ScanMode → Bytes → Option (List Token)
  | .plain, [] => some []
  | .escape, [] | .bracketStart, [] | .bracket .., [] => none
  | .plain, c :: cs =>
    if c = backslash then scan icase .escape cs
    else if c = chr '[' then scan icase .bracketStart cs
    else if c = 123 then none
    else (scan icase .plain cs).map (plainToken icase c :: ·)
  | .escape, c :: cs => (scan icase .plain cs).map (escapeToken icase c :: ·)
  | .bracketStart, c :: cs =>
    if c = chr '^' then scan icase (.bracket true false []) cs
    else scan icase (.bracket false false [(c, c)]) cs
  | .bracket negated dash ranges, c :: cs =>
    if c = chr ']' ∧ ranges ≠ [] then
      -- a hyphen at the end stands for itself
      let ranges := if dash then (chr '-', chr '-') :: ranges else ranges
      (scan icase .plain cs).map (.set ⟨negated, icase, ranges.reverse⟩ :: ·)
    else
      match dash, ranges with
      | true, r :: rs => scan icase (.bracket negated false ((r.1, c) :: rs)) cs
      | _, ranges =>
        if c = chr '-' ∧ ranges ≠ [] then scan icase (.bracket negated true ranges) cs
        else scan icase (.bracket negated false ((c, c) :: ranges)) cs

/-- An open group: its number, its alternatives read so far, and the pieces of the current one,
the last piece first. -/
structure Frame where
  group : ℕ
  alternatives : Option Regex
  pieces : List Regex

namespace Frame

/-- The pieces in a row. -/
def branch (f : Frame) : Regex :=
  match f.pieces with
  | [] => .empty
  | p :: ps => ps.foldl (fun r q => .seq q r) p

/-- The expression of the group. -/
def finish (f : Frame) : Regex :=
  match f.alternatives with
  | none => f.branch
  | some r => .alt r f.branch

/-- The group with one more piece. -/
def push (f : Frame) (r : Regex) : Frame := { f with pieces := r :: f.pieces }

/-- The group with its last piece repeated. -/
def quantify (f : Frame) (q : Regex → Regex) : Option Frame :=
  match f.pieces with
  | [] => none
  | p :: ps => some { f with pieces := q p :: ps }

end Frame

/-- The expression of a list of tokens, within the open groups; groups are numbered in the order
of their opening. -/
def parseTokens : List Token → ℕ → Frame → List Frame → Option Regex
  | [], _, f, [] => some f.finish
  | [], _, _, _ :: _ => none
  | .set s :: ts, n, f, stack => parseTokens ts n (f.push (.set s)) stack
  | .star :: ts, n, f, stack => (f.quantify .star).bind fun f => parseTokens ts n f stack
  | .plus :: ts, n, f, stack => (f.quantify .plus).bind fun f => parseTokens ts n f stack
  | .opt :: ts, n, f, stack => (f.quantify .opt).bind fun f => parseTokens ts n f stack
  | .bar :: ts, n, f, stack => parseTokens ts n ⟨f.group, some f.finish, []⟩ stack
  | .opening :: ts, n, f, stack => parseTokens ts (n + 1) ⟨n, none, []⟩ (f :: stack)
  | .closing :: ts, n, f, g :: stack => parseTokens ts n (g.push (.group f.group f.finish)) stack
  | .closing :: _, _, _, [] => none
  | .bol :: _, _, _, _ | .eol :: _, _, _, _ => none

/-- A compiled expression, anchored at the start or at the end of the string. -/
structure Pattern where
  bol : Bool
  body : Regex
  eol : Bool
  deriving DecidableEq, Repr

/-- Compilation; `none` for a text that is not compiled. -/
def regcomp (icase : Bool) (text : String) : Option Pattern := do
  let tokens ← scan icase .plain (lit text)
  let bol := tokens.head? == some .bol
  let tokens := if bol then tokens.drop 1 else tokens
  let eol := tokens.getLast? == some .eol
  let tokens := if eol then tokens.dropLast else tokens
  let body ← parseTokens tokens 1 ⟨0, none, []⟩ []
  return ⟨bol, body, eol⟩

/-! ## Search -/

/-- A match, and the captures of its groups. -/
structure RegMatch where
  start : ℕ
  stop : ℕ
  captures : List Capture
  deriving DecidableEq, Repr

/-- The part matched by a group, its last match if it matched several times; group 0 is the whole
match. -/
def RegMatch.group (m : RegMatch) (n : ℕ) : Option (ℕ × ℕ) :=
  if n = 0 then some (m.start, m.stop)
  else (m.captures.reverse.find? fun c => c.group = n).map fun c => (c.start, c.stop)

/-- The longest match at a position. -/
def matchAt (p : Pattern) (string : Bytes) (start : ℕ) : Option RegMatch :=
  let w := string.drop start
  let ks := (p.body.lens w).filter fun k => !p.eol || k == w.length
  ks.max?.map fun k => ⟨start, start + k, p.body.captures start w k⟩

/-- The first match. -/
def regexec (p : Pattern) (string : Bytes) : Option RegMatch :=
  (if p.bol then [0] else List.range (string.length + 1)).findSome? (matchAt p string)

section Search

variable {p : Pattern} {string : Bytes} {m : RegMatch} {start : ℕ}

theorem matchAt_eq_some (h : matchAt p string start = some m) (hs : start ≤ string.length) :
    m.start = start ∧ start ≤ m.stop ∧ m.stop ≤ string.length ∧
      (p.eol = true → m.stop = string.length) ∧
      Parse p.body start ((string.drop start).take (m.stop - start)) m.captures := by
  obtain ⟨k, hk, rfl⟩ := Option.map_eq_some_iff.mp h
  obtain ⟨hlens, heol⟩ := List.mem_filter.mp (List.max?_mem hk)
  have hle := (mem_lens_iff (i := start)).mp hlens |>.1
  rw [List.length_drop] at hle
  refine ⟨rfl, Nat.le_add_right _ _, by show start + k ≤ _; omega, fun he => ?_, ?_⟩
  · rw [he, Bool.not_true, Bool.false_or, beq_iff_eq, List.length_drop] at heol
    show start + k = _
    omega
  · show Parse p.body start ((string.drop start).take (start + k - start)) _
    rw [Nat.add_sub_cancel_left]
    exact parse_captures hlens

/-- **A match found is a match.** -/
theorem regexec_eq_some (h : regexec p string = some m) :
    (p.bol = true → m.start = 0) ∧ m.start ≤ m.stop ∧ m.stop ≤ string.length ∧
      (p.eol = true → m.stop = string.length) ∧
      Parse p.body m.start ((string.drop m.start).take (m.stop - m.start)) m.captures := by
  obtain ⟨start, hmem, hat⟩ := List.exists_of_findSome?_eq_some h
  have hs : start ≤ string.length ∧ (p.bol = true → start = 0) := by
    split_ifs at hmem with hb
    · obtain rfl := List.mem_singleton.mp hmem
      exact ⟨Nat.zero_le _, fun _ => rfl⟩
    · exact ⟨Nat.le_of_lt_succ (List.mem_range.mp hmem), fun hb' => absurd hb' hb⟩
  obtain ⟨rfl, hle, hstop, heol, hparse⟩ := matchAt_eq_some hat hs.1
  exact ⟨hs.2, hle, hstop, heol, hparse⟩

/-- The part matched by a group lies within the match. -/
theorem regexec_group_bounds {g a b : ℕ} (h : regexec p string = some m)
    (hg : m.group g = some (a, b)) : m.start ≤ a ∧ a ≤ b ∧ b ≤ m.stop := by
  obtain ⟨-, hle, hstop, -, hparse⟩ := regexec_eq_some h
  rw [RegMatch.group] at hg
  split_ifs at hg with h0
  · obtain ⟨rfl, rfl⟩ := Prod.mk.inj (Option.some.inj hg)
    exact ⟨le_rfl, hle, le_rfl⟩
  · obtain ⟨c, hc, hab⟩ := Option.map_eq_some_iff.mp hg
    obtain ⟨rfl, rfl⟩ := Prod.mk.inj hab
    have hbounds := hparse.capture_bounds c (List.mem_reverse.mp (List.mem_of_find?_eq_some hc))
    rw [List.length_take, List.length_drop] at hbounds
    omega

/-- A group that every match captures is captured. -/
theorem regexec_exists_group {g : ℕ} (h : regexec p string = some m)
    (hg : p.body.always g = true) : ∃ a b, m.group g = some (a, b) := by
  obtain ⟨-, -, -, -, hparse⟩ := regexec_eq_some h
  rw [RegMatch.group]
  split_ifs
  · exact ⟨_, _, rfl⟩
  · obtain ⟨c, hc, hcn⟩ := hparse.exists_capture hg
    cases hfind : m.captures.reverse.find? fun c => c.group = g with
    | none => exact absurd hcn (by simpa using List.find?_eq_none.mp hfind c (List.mem_reverse.mpr hc))
    | some c => exact ⟨_, _, rfl⟩

theorem regexec_anchored_eq_some (hb : p.bol = true) (he : p.eol = true)
    (h : regexec p string = some m) : Parse p.body 0 string m.captures := by
  obtain ⟨hstart, -, -, hstop, hparse⟩ := regexec_eq_some h
  rwa [hstart hb, hstop he, List.drop_zero, Nat.sub_zero, List.take_length] at hparse

/-- **An expression anchored at both ends is not found when it does not match the whole string.** -/
theorem regexec_anchored_eq_none (hb : p.bol = true) (he : p.eol = true) :
    regexec p string = none ↔ ∀ cs, ¬ Parse p.body 0 string cs := by
  constructor
  · intro h cs hp
    have hlens : string.length ∈ p.body.lens string :=
      (mem_lens_iff (i := 0)).mpr ⟨le_rfl, cs, by rwa [List.take_length]⟩
    have hat : matchAt p string 0 = none := by
      simpa [regexec, hb] using h
    rw [matchAt, List.drop_zero, Option.map_eq_none_iff, List.max?_eq_none_iff] at hat
    exact List.filter_eq_nil_iff.mp hat _ hlens (by simp)
  · intro h
    cases hm : regexec p string with
    | none => rfl
    | some m => exact absurd (regexec_anchored_eq_some hb he hm) (h _)

end Search

end SetQL
