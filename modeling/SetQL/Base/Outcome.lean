import Mathlib.Data.List.Induction

/-!
# Outcomes of C code

A call of a C function returns a value or stops: the process exits, an assertion fails, or the
behaviour is undefined. A loop that only calls is a monadic fold over its calls, and an
invariant of the calls is an invariant of the loop.

## Main definitions

* `Stop`: the ways a call ends without returning
* `C α`: a call that returns an `α` or stops
* `fetch xs i`, `store xs i a`: indexing an array, undefined past its end

## Main results

* `bind_eq_ok`: a sequence of two calls returns when both do
* `foldlM_invariant`: a property kept by each call holds after the loop
* `foldlM_simulation`: a relation to the calls made so far holds after the loop
* `foldlM_prefix`, `foldlM_range`: the same, with a relation to the calls made so far
* `foldlM_eq_error`, `foldlM_range_eq_error`: a loop stops in its first call that stops
* `foldlM_returns_iff`: a loop returns when each of its calls does
-/

namespace SetQL

/-- The ways a call ends without returning. -/
inductive Stop
  /-- `exit` was called. -/
  | exit
  /-- An `assert` failed. -/
  | assertion
  /-- A null pointer was dereferenced. -/
  | nullDeref
  /-- An index was outside the array it addresses. -/
  | outOfBounds
  /-- Any other undefined behaviour. -/
  | undefined
  deriving DecidableEq, Repr

/-- A call that returns an `α` or stops. -/
abbrev C := Except Stop

/-- An instance that decides equality of outcomes. -/
instance decidableEqOutcome {ε α : Type} [DecidableEq ε] [DecidableEq α] : DecidableEq (Except ε α)
  | .ok a, .ok b => decidable_of_iff (a = b) ⟨congrArg _, fun h => Except.ok.inj h⟩
  | .error a, .error b => decidable_of_iff (a = b) ⟨congrArg _, fun h => Except.error.inj h⟩
  | .ok _, .error _ => isFalse nofun
  | .error _, .ok _ => isFalse nofun

variable {ε α β σ ω : Type}

theorem error_ne_ok {a : α} {e : ε} : (Except.error e : Except ε α) ≠ .ok a := nofun

@[simp] theorem ok_bind (a : α) (f : α → Except ε β) : (Except.ok a >>= f) = f a := rfl

@[simp] theorem error_bind (e : ε) (f : α → Except ε β) :
    ((Except.error e : Except ε α) >>= f) = .error e := rfl

@[simp] theorem pure_eq_ok (a : α) : (pure a : Except ε α) = .ok a := rfl

@[simp] theorem map_ok (f : α → β) (a : α) : (f <$> (Except.ok a : Except ε α)) = .ok (f a) := rfl

@[simp] theorem map_error (f : α → β) (e : ε) :
    (f <$> (Except.error e : Except ε α)) = .error e := rfl

@[simp] theorem bind_ok_self (x : Except ε α) : (x >>= fun a => Except.ok a) = x := by
  cases x <;> rfl

/-- A sequence of two calls returns when both do. -/
theorem bind_eq_ok {x : Except ε α} {f : α → Except ε β} {b : β} :
    (x >>= f) = .ok b ↔ ∃ a, x = .ok a ∧ f a = .ok b := by
  cases x with
  | error e => simp
  | ok a => simp

/-- A sequence of two calls stops in the first or in the second. -/
theorem bind_eq_error {x : Except ε α} {f : α → Except ε β} {e : ε} :
    (x >>= f) = .error e ↔ x = .error e ∨ ∃ a, x = .ok a ∧ f a = .error e := by
  cases x with
  | error e' => simp
  | ok a => simp

theorem map_eq_ok {x : Except ε α} {f : α → β} {b : β} :
    (f <$> x) = .ok b ↔ ∃ a, x = .ok a ∧ f a = b := by
  cases x with
  | error e => simp
  | ok a => simp

/-- The element at an index. -/
def fetch (xs : List α) (i : ℕ) : C α :=
  match xs[i]? with
  | some a => .ok a
  | none => .error .outOfBounds

/-- The array with one element replaced. -/
def store (xs : List α) (i : ℕ) (a : α) : C (List α) :=
  if i < xs.length then .ok (xs.set i a) else .error .outOfBounds

theorem fetch_eq_ok {xs : List α} {i : ℕ} {a : α} : fetch xs i = .ok a ↔ xs[i]? = some a := by
  unfold fetch
  cases xs[i]? <;> simp

theorem fetch_of_lt {xs : List α} {i : ℕ} (h : i < xs.length) : fetch xs i = .ok xs[i] := by
  simp [fetch, h]

theorem fetch_of_le {xs : List α} {i : ℕ} (h : xs.length ≤ i) :
    fetch xs i = .error .outOfBounds := by
  simp [fetch, h]

/-- Indexing an array stops in one way only. -/
theorem fetch_ne_error {e : Stop} (he : e ≠ .outOfBounds) (xs : List α) (i : ℕ) :
    fetch xs i ≠ .error e := by
  unfold fetch
  cases xs[i]? with
  | none => exact fun h => he (Except.error.inj h).symm
  | some a => exact nofun

theorem store_of_lt {xs : List α} {i : ℕ} (h : i < xs.length) (a : α) :
    store xs i a = .ok (xs.set i a) := if_pos h

theorem store_of_le {xs : List α} {i : ℕ} (h : xs.length ≤ i) (a : α) :
    store xs i a = .error .outOfBounds := if_neg (Nat.not_lt.mpr h)

theorem store_ne_error {e : Stop} (he : e ≠ .outOfBounds) (xs : List α) (i : ℕ) (a : α) :
    store xs i a ≠ .error e := by
  unfold store
  split
  · exact nofun
  · exact fun h => he (Except.error.inj h).symm

theorem store_eq_ok {xs ys : List α} {i : ℕ} {a : α} :
    store xs i a = .ok ys ↔ i < xs.length ∧ xs.set i a = ys := by
  unfold store
  split <;> simp [*]

/-! ## Loops of calls -/

section Loops

variable {f : σ → ω → Except ε σ}

theorem foldlM_snoc_eq_ok {s : σ} {l : List ω} {a : ω} {s' : σ} :
    (l ++ [a]).foldlM f s = .ok s' ↔ ∃ t, l.foldlM f s = .ok t ∧ f t a = .ok s' := by
  rw [List.foldlM_append, bind_eq_ok]
  simp

/-- Two loops whose calls agree under an invariant agree. -/
theorem foldlM_congr_invariant {I : σ → Prop} {f' : σ → ω → Except ε σ} {l : List ω} {s : σ}
    (h : ∀ s, ∀ a ∈ l, I s → f s a = f' s a) (hI : ∀ s a s', I s → f s a = .ok s' → I s')
    (hs : I s) : l.foldlM f s = l.foldlM f' s := by
  induction l generalizing s with
  | nil => rfl
  | cons a l ih =>
    rw [List.foldlM_cons, List.foldlM_cons, ← h s a List.mem_cons_self hs]
    cases hstep : f s a with
    | error e => rfl
    | ok t => exact ih (fun s a ha => h s a (List.mem_cons_of_mem _ ha)) (hI s a t hs hstep)

theorem foldlM_congr {f' : σ → ω → Except ε σ} {l : List ω} {s : σ}
    (h : ∀ s, ∀ a ∈ l, f s a = f' s a) : l.foldlM f s = l.foldlM f' s :=
  foldlM_congr_invariant (I := fun _ => True) (fun s a ha _ => h s a ha)
    (fun _ _ _ _ _ => trivial) trivial

/-- A loop over the indices of an array is a loop over its elements. -/
theorem foldlM_range_fetch (xs : List α) (g : σ → α → C σ) (s : σ) :
    (List.range xs.length).foldlM (fun s i => do
      let a ← fetch xs i
      g s a) s = xs.foldlM g s := by
  induction xs using List.reverseRecOn with
  | nil => rfl
  | append_singleton xs a ih =>
    rw [List.length_append, List.length_singleton, List.range_succ, List.foldlM_append,
      List.foldlM_append, ← ih]
    congr 1
    · refine foldlM_congr fun t i hi => ?_
      have hlt := List.mem_range.mp hi
      rw [fetch, fetch, List.getElem?_append_left hlt]
    · funext t
      simp [fetch]

theorem foldlM_append_eq_ok {s : σ} {l l' : List ω} {s' : σ} :
    (l ++ l').foldlM f s = .ok s' ↔
      ∃ t, l.foldlM f s = .ok t ∧ l'.foldlM f t = .ok s' := by
  rw [List.foldlM_append, bind_eq_ok]

/-- **The invariant rule**: a property kept by each call holds after the loop. -/
theorem foldlM_invariant {I : σ → Prop} {l : List ω}
    (hstep : ∀ s a s', a ∈ l → I s → f s a = .ok s' → I s') {s s' : σ} (hs : I s)
    (h : l.foldlM f s = .ok s') : I s' := by
  induction l generalizing s with
  | nil =>
    obtain rfl := Except.ok.inj h
    exact hs
  | cons a l ih =>
    rw [List.foldlM_cons, bind_eq_ok] at h
    obtain ⟨t, ht, h⟩ := h
    exact ih (fun s a s' ha => hstep s a s' (List.mem_cons_of_mem _ ha))
      (hstep s a t List.mem_cons_self hs ht) h

/-- **The simulation rule**: a relation between the state and the calls made so far, kept by each
call, holds after the loop. -/
theorem foldlM_simulation {R : List ω → σ → Prop} {s : σ} (h₀ : R [] s)
    (hstep : ∀ pre a t t', R pre t → f t a = .ok t' → R (pre ++ [a]) t') :
    ∀ {l : List ω} {s' : σ}, l.foldlM f s = .ok s' → R l s' := by
  intro l
  induction l using List.reverseRecOn with
  | nil =>
    intro s' h
    obtain rfl := Except.ok.inj h
    exact h₀
  | append_singleton l a ih =>
    intro s' h
    obtain ⟨t, ht, h⟩ := foldlM_snoc_eq_ok.mp h
    exact hstep l a t s' (ih ht) h

/-- **The prefix rule**: calls that never stop, and keep a relation between the state and the calls
made so far, make a loop that never stops and ends in that relation. -/
theorem foldlM_prefix {R : List ω → σ → Prop} {l : List ω} {s : σ} (h₀ : R [] s)
    (hstep : ∀ pre a post t, l = pre ++ a :: post → R pre t →
      ∃ t', f t a = .ok t' ∧ R (pre ++ [a]) t') :
    ∃ s', l.foldlM f s = .ok s' ∧ R l s' := by
  induction l using List.reverseRecOn with
  | nil => exact ⟨s, rfl, h₀⟩
  | append_singleton l a ih =>
    obtain ⟨t, ht, hR⟩ := ih fun pre b post t hl =>
      hstep pre b (post ++ [a]) t (by rw [hl, List.append_assoc, List.cons_append])
    obtain ⟨s', hs', hR'⟩ := hstep l a [] t rfl hR
    exact ⟨s', foldlM_snoc_eq_ok.mpr ⟨t, ht, hs'⟩, hR'⟩

/-- **The counting rule**: the prefix rule for a loop over the first numbers. -/
theorem foldlM_range {f : σ → ℕ → Except ε σ} {R : ℕ → σ → Prop} {n : ℕ} {s : σ} (h₀ : R 0 s)
    (hstep : ∀ i t, i < n → R i t → ∃ t', f t i = .ok t' ∧ R (i + 1) t') :
    ∃ s', (List.range n).foldlM f s = .ok s' ∧ R n s' := by
  induction n with
  | zero => exact ⟨s, rfl, h₀⟩
  | succ n ih =>
    obtain ⟨t, ht, hR⟩ := ih fun i t hi => hstep i t (Nat.lt_succ_of_lt hi)
    obtain ⟨s', hs', hR'⟩ := hstep n t (Nat.lt_succ_self n) hR
    exact ⟨s', by rw [List.range_succ, foldlM_snoc_eq_ok]; exact ⟨t, ht, hs'⟩, hR'⟩

/-- A loop stops in its first call that stops. -/
theorem foldlM_eq_error {l : List ω} {s : σ} {e : ε} : l.foldlM f s = .error e ↔
    ∃ pre a post t, l = pre ++ a :: post ∧ pre.foldlM f s = .ok t ∧ f t a = .error e := by
  induction l generalizing s with
  | nil => simp
  | cons a l ih =>
    rw [List.foldlM_cons, bind_eq_error]
    constructor
    · rintro (h | ⟨t, ht, h⟩)
      · exact ⟨[], a, l, s, rfl, rfl, h⟩
      · obtain ⟨pre, b, post, t', rfl, hpre, hb⟩ := ih.mp h
        exact ⟨a :: pre, b, post, t', rfl, by rw [List.foldlM_cons, ht]; exact hpre, hb⟩
    · rintro ⟨pre, b, post, t, hl, hpre, hb⟩
      cases pre with
      | nil =>
        obtain ⟨rfl, rfl⟩ := List.cons.inj hl
        obtain rfl := Except.ok.inj hpre
        exact Or.inl hb
      | cons c pre =>
        obtain ⟨rfl, rfl⟩ := List.cons.inj hl
        rw [List.foldlM_cons, bind_eq_ok] at hpre
        obtain ⟨t', ht', hpre⟩ := hpre
        exact Or.inr ⟨t', ht', ih.mpr ⟨pre, b, post, t, rfl, hpre, hb⟩⟩

/-- A loop returns exactly when each of its calls does. -/
theorem foldlM_returns_iff {l : List ω} {s : σ} : (∃ s', l.foldlM f s = .ok s') ↔
    ∀ pre a post, l = pre ++ a :: post → ∀ t, pre.foldlM f s = .ok t → ∃ t', f t a = .ok t' := by
  constructor
  · rintro ⟨s', h⟩ pre a post rfl t ht
    rw [foldlM_append_eq_ok] at h
    obtain ⟨t', ht', h⟩ := h
    obtain rfl := Except.ok.inj (ht.symm.trans ht')
    rw [List.foldlM_cons, bind_eq_ok] at h
    obtain ⟨t', hstep, -⟩ := h
    exact ⟨t', hstep⟩
  · intro hstep
    cases h : l.foldlM f s with
    | ok s' => exact ⟨s', rfl⟩
    | error e =>
      obtain ⟨pre, a, post, t, hl, ht, ha⟩ := foldlM_eq_error.mp h
      obtain ⟨t', ht'⟩ := hstep pre a post hl t ht
      cases ha.symm.trans ht'

/-- A loop over the first numbers stops in its first call that stops. -/
theorem foldlM_range_eq_error {f : σ → ℕ → Except ε σ} {n : ℕ} {s : σ} {e : ε} :
    (List.range n).foldlM f s = .error e ↔
      ∃ i < n, ∃ t, (List.range i).foldlM f s = .ok t ∧ f t i = .error e := by
  induction n with
  | zero => simp
  | succ n ih =>
    rw [List.range_succ, List.foldlM_append, bind_eq_error, ih]
    constructor
    · rintro (⟨i, hi, h⟩ | ⟨t, ht, h⟩)
      · exact ⟨i, Nat.lt_succ_of_lt hi, h⟩
      · exact ⟨n, Nat.lt_succ_self n, t, ht, by simpa using h⟩
    · rintro ⟨i, hi, t, ht, h⟩
      rcases Nat.lt_succ_iff_lt_or_eq.mp hi with hlt | rfl
      · exact Or.inl ⟨i, hlt, t, ht, h⟩
      · exact Or.inr ⟨t, ht, by simpa using h⟩

/-- Calls that never stop in a certain way make a sequence that never does. -/
theorem bind_ne_error {x : Except ε α} {f : α → Except ε β} {e : ε} (hx : x ≠ .error e)
    (hf : ∀ a, x = .ok a → f a ≠ .error e) : (x >>= f) ≠ .error e := by
  intro h
  rcases bind_eq_error.mp h with h | ⟨a, ha, h⟩
  · exact hx h
  · exact hf a ha h

theorem map_ne_error {x : Except ε α} {f : α → β} {e : ε} (hx : x ≠ .error e) :
    (f <$> x) ≠ .error e := by
  cases x with
  | error e' => exact fun h => hx (congrArg _ (Except.error.inj h))
  | ok a => exact nofun

/-- Calls that never stop in a certain way make a loop that never does. -/
theorem foldlM_ne_error {l : List ω} {s : σ} {e : ε} (h : ∀ s a, f s a ≠ .error e) :
    l.foldlM f s ≠ .error e := by
  intro herror
  obtain ⟨_, a, _, t, -, -, ha⟩ := foldlM_eq_error.mp herror
  exact h t a ha

end Loops

end SetQL
