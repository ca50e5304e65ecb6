import Mathlib.Data.Set.Insert
import Mathlib.Data.List.Induction

/-!
# A table of named columns

The purpose of the attributes of a database, with no representation: columns are created once under
a name, with a shape that says which values fit, and a cell of a column holds the last fitting
value that was written to it. A value is written when its column and its key exist.

## Main definitions

* `Cells A K T V`, `CellCall A K T V`, `Cells.step`, `Cells.run`: the table and its calls
* `shapeOf h a`: the shape that a column was first created with
* `LastWritten fits h a k v`: the last fitting value written to a cell

## Main results

* `columns_run`: a column has the shape that it was first created with
* `value_run_iff`: a cell holds the last fitting value written to it
-/

namespace SetQL

variable {A K T V : Type*}

/-- Columns under names, and their cells. -/
structure Cells (A K T V : Type*) where
  columns : A → Option T
  keys : Set K
  value : A → K → Option V

/-- The calls of a table. -/
inductive CellCall (A K T V : Type*)
  | createColumn (a : A) (t : T)
  | addKey (k : K)
  | write (a : A) (k : K) (v : V)

open Classical in
/-- The shape that a column was first created with. -/
noncomputable def shapeOf (h : List (CellCall A K T V)) (a : A) : Option T :=
  h.findSome? fun
    | .createColumn b t => if b = a then some t else none
    | _ => none

namespace Cells

/-- No columns and no keys. -/
def empty : Cells A K T V := ⟨fun _ => none, ∅, fun _ _ => none⟩

open Classical in
/-- A new column. -/
noncomputable def create (st : Cells A K T V) (a : A) (t : T) : Cells A K T V :=
  if (st.columns a).isSome then st else { st with columns := Function.update st.columns a (some t) }

open Classical in
/-- A value that fits is written to a cell of an existing column and key. -/
noncomputable def write (fits : T → V → Prop) (st : Cells A K T V) (a : A) (k : K) (v : V) :
    Cells A K T V :=
  if (∃ t, st.columns a = some t ∧ fits t v) ∧ k ∈ st.keys then
    { st with value := Function.update st.value a (Function.update (st.value a) k (some v)) }
  else st

/-- The effect of a call. -/
noncomputable def step (fits : T → V → Prop) (st : Cells A K T V) :
    CellCall A K T V → Cells A K T V
  | .createColumn a t => st.create a t
  | .addKey k => { st with keys := insert k st.keys }
  | .write a k v => st.write fits a k v

/-- The calls of a list, in order. -/
noncomputable def run (fits : T → V → Prop) (h : List (CellCall A K T V)) : Cells A K T V :=
  h.foldl (step fits) empty

section Write

variable {fits : T → V → Prop} {st : Cells A K T V} {a b : A} {k l : K} {t : T} {v : V}

@[simp] theorem keys_create : (st.create a t).keys = st.keys := by
  unfold create
  split <;> rfl

@[simp] theorem value_create : (st.create a t).value = st.value := by
  unfold create
  split <;> rfl

theorem columns_create_same : (st.create a t).columns a = (st.columns a).or (some t) := by
  unfold create
  cases h : st.columns a <;> simp [h]

theorem columns_create_of_ne (h : b ≠ a) : (st.create a t).columns b = st.columns b := by
  unfold create
  split <;> simp [h]

@[simp] theorem keys_write : (st.write fits a k v).keys = st.keys := by
  unfold write
  split <;> rfl

@[simp] theorem columns_write : (st.write fits a k v).columns = st.columns := by
  unfold write
  split <;> rfl

theorem write_of_not (h : ¬ ((∃ t, st.columns a = some t ∧ fits t v) ∧ k ∈ st.keys)) :
    st.write fits a k v = st := if_neg h

theorem value_write_same (h : (∃ t, st.columns a = some t ∧ fits t v) ∧ k ∈ st.keys) :
    (st.write fits a k v).value a k = some v := by
  rw [write, if_pos h]
  simp

theorem value_write_of_ne (h : ¬ (b = a ∧ l = k)) :
    (st.write fits a k v).value b l = st.value b l := by
  unfold write
  split
  · by_cases hb : b = a
    · subst hb
      have hl : l ≠ k := fun hl => h ⟨rfl, hl⟩
      simp [hl]
    · simp [hb]
  · rfl

end Write

@[simp] theorem run_nil (fits : T → V → Prop) :
    run fits ([] : List (CellCall A K T V)) = empty := rfl

theorem run_snoc (fits : T → V → Prop) (h : List (CellCall A K T V)) (c : CellCall A K T V) :
    run fits (h ++ [c]) = (run fits h).step fits c := by
  simp [run]

end Cells

section Run

variable {fits : T → V → Prop} {h : List (CellCall A K T V)} {c : CellCall A K T V} {a : A} {k : K}
  {v : V} {t : T}

theorem shapeOf_append (h h' : List (CellCall A K T V)) (a : A) :
    shapeOf (h ++ h') a = (shapeOf h a).or (shapeOf h' a) := List.findSome?_append

/-- A column that has a shape was created with it. -/
theorem createColumn_mem_of_shapeOf (ht : shapeOf h a = some t) : .createColumn a t ∈ h := by
  obtain ⟨c, hc, hshape⟩ := List.exists_of_findSome?_eq_some ht
  cases c with
  | createColumn b s =>
    obtain ⟨rfl, rfl⟩ : b = a ∧ s = t := by simpa using hshape
    exact hc
  | addKey k | write b k v => cases hshape

/-- A column that was created has a shape. -/
theorem isSome_shapeOf (hc : .createColumn a t ∈ h) : (shapeOf h a).isSome := by
  rw [shapeOf, List.isSome_findSome?, List.any_eq_true]
  exact ⟨_, hc, by simp⟩

/-- **A column has the shape that it was first created with.** -/
theorem columns_run : (Cells.run fits h).columns a = shapeOf h a := by
  induction h using List.reverseRecOn with
  | nil => rfl
  | append_singleton h c ih =>
    rw [Cells.run_snoc, shapeOf_append, ← ih]
    cases c with
    | createColumn b t =>
      by_cases hb : b = a
      · subst hb
        simp [Cells.step, Cells.columns_create_same, shapeOf]
      · simp [Cells.step, Cells.columns_create_of_ne (Ne.symm hb), shapeOf, hb]
    | addKey k => simp [Cells.step, shapeOf]
    | write b k v => simp [Cells.step, shapeOf]

theorem mem_keys_run_cells : k ∈ (Cells.run fits h).keys ↔ .addKey k ∈ h := by
  induction h using List.reverseRecOn with
  | nil => simp [Cells.empty]
  | append_singleton h c ih =>
    rw [Cells.run_snoc, List.mem_append, List.mem_singleton, ← ih]
    cases c with
    | addKey k' => simp [Cells.step, or_comm]
    | createColumn a t => simp [Cells.step]
    | write a k' v => simp [Cells.step]

/-- The last fitting value written to a cell: it was written when its column and its key existed,
and no fitting value was written after it. -/
def LastWritten (fits : T → V → Prop) (h : List (CellCall A K T V)) (a : A) (k : K) (v : V) : Prop :=
  ∃ pre post t, h = pre ++ .write a k v :: post ∧ shapeOf pre a = some t ∧ fits t v ∧
    .addKey k ∈ pre ∧ ∀ v', .write a k v' ∈ post → ¬ fits t v'

theorem not_lastWritten_nil : ¬ LastWritten fits ([] : List (CellCall A K T V)) a k v := by
  rintro ⟨pre, post, t, h, -⟩
  simp at h

theorem LastWritten.known (hl : LastWritten fits h a k v) :
    ∃ t, shapeOf h a = some t ∧ .addKey k ∈ h := by
  obtain ⟨pre, post, t, rfl, ht, -, hk, -⟩ := hl
  exact ⟨t, by rw [shapeOf_append, ht, Option.some_or], List.mem_append_left _ hk⟩

theorem lastWritten_snoc : LastWritten fits (h ++ [c]) a k v ↔
    (c = .write a k v ∧ ∃ t, shapeOf h a = some t ∧ fits t v ∧ .addKey k ∈ h) ∨
      (LastWritten fits h a k v ∧
        ∀ v' t, c = .write a k v' → shapeOf h a = some t → ¬ fits t v') := by
  constructor
  · rintro ⟨pre, post, t, heq, ht, hfits, hk, hpost⟩
    rcases List.eq_nil_or_concat post with rfl | ⟨post, c', rfl⟩
    · obtain ⟨rfl, hc⟩ := List.append_inj' heq rfl
      exact Or.inl ⟨List.singleton_inj.mp hc, t, ht, hfits, hk⟩
    · rw [List.concat_eq_append, ← List.cons_append, ← List.append_assoc] at heq
      obtain ⟨rfl, hc⟩ := List.append_inj' heq rfl
      obtain rfl := List.singleton_inj.mp hc
      rw [List.concat_eq_append] at hpost
      refine Or.inr ⟨⟨pre, post, t, rfl, ht, hfits, hk, fun v' hv' =>
        hpost v' (List.mem_append_left _ hv')⟩, fun v' t' hc' ht' => ?_⟩
      rw [shapeOf_append, ht, Option.some_or] at ht'
      obtain rfl := Option.some.inj ht'
      exact hpost v' (by rw [hc']; simp)
  · rintro (⟨rfl, t, ht, hfits, hk⟩ | ⟨⟨pre, post, t, rfl, ht, hfits, hk, hpost⟩, hc⟩)
    · exact ⟨h, [], t, rfl, ht, hfits, hk, fun _ hv' => absurd hv' List.not_mem_nil⟩
    · refine ⟨pre, post ++ [c], t, by simp, ht, hfits, hk, fun v' hv' => ?_⟩
      rcases List.mem_append.mp hv' with hv' | hv'
      · exact hpost v' hv'
      · apply hc v' t (List.mem_singleton.mp hv').symm
        rw [shapeOf_append, ht, Option.some_or]

/-- **A cell holds the last fitting value written to it.** -/
theorem value_run_iff : (Cells.run fits h).value a k = some v ↔ LastWritten fits h a k v := by
  induction h using List.reverseRecOn with
  | nil => simp [Cells.empty, not_lastWritten_nil]
  | append_singleton h c ih =>
    rw [Cells.run_snoc, lastWritten_snoc, ← ih]
    cases c with
    | createColumn b t => simp [Cells.step]
    | addKey k' => simp [Cells.step]
    | write b k' v' =>
      rw [Cells.step]
      by_cases hcell : a = b ∧ k = k'
      · obtain ⟨rfl, rfl⟩ := hcell
        by_cases hok : (∃ t, (Cells.run fits h).columns a = some t ∧ fits t v') ∧
            k ∈ (Cells.run fits h).keys
        · rw [Cells.value_write_same hok]
          simp only [columns_run, mem_keys_run_cells] at hok
          obtain ⟨⟨t, ht, hfits⟩, hk⟩ := hok
          constructor
          · intro hv
            obtain rfl := Option.some.inj hv
            exact Or.inl ⟨rfl, t, ht, hfits, hk⟩
          · rintro (⟨hc, -⟩ | ⟨-, hno⟩)
            · cases hc
              rfl
            · exact absurd hfits (hno v' t rfl ht)
        · rw [Cells.write_of_not hok]
          simp only [columns_run, mem_keys_run_cells] at hok
          constructor
          · intro hv
            refine Or.inr ⟨hv, fun v₂ t hc ht hfits => ?_⟩
            cases hc
            exact hok ⟨⟨t, ht, hfits⟩, ((ih.mp hv).known).choose_spec.2⟩
          · rintro (⟨hc, t, ht, hfits, hk⟩ | ⟨hv, -⟩)
            · cases hc
              exact absurd ⟨⟨t, ht, hfits⟩, hk⟩ hok
            · exact hv
      · rw [Cells.value_write_of_ne hcell]
        have hne : ∀ v₂, (.write b k' v' : CellCall A K T V) ≠ .write a k v₂ := by
          rintro v₂ hc
          cases hc
          exact hcell ⟨rfl, rfl⟩
        simp [hne]

/-- A value that fits was written last, if one was. -/
theorem exists_lastWritten_of_imp {fits' : T → V → Prop} (himp : ∀ t v, fits t v → fits' t v)
    (hl : LastWritten fits h a k v) : ∃ v', LastWritten fits' h a k v' := by
  classical
  induction h using List.reverseRecOn generalizing v with
  | nil => exact absurd hl not_lastWritten_nil
  | append_singleton h c ih =>
    rcases lastWritten_snoc.mp hl with ⟨rfl, t, ht, hfits, hk⟩ | ⟨hl, -⟩
    · exact ⟨v, lastWritten_snoc.mpr (Or.inl ⟨rfl, t, ht, himp t v hfits, hk⟩)⟩
    · obtain ⟨v', hl'⟩ := ih hl
      by_cases hc : ∃ v₂ t, c = .write a k v₂ ∧ shapeOf h a = some t ∧ fits' t v₂
      · obtain ⟨v₂, t, rfl, ht, hfits⟩ := hc
        exact ⟨v₂, lastWritten_snoc.mpr (Or.inl ⟨rfl, t, ht, hfits, hl'.known.choose_spec.2⟩)⟩
      · push Not at hc
        exact ⟨v', lastWritten_snoc.mpr (Or.inr ⟨hl', fun v₂ t h₁ h₂ => hc v₂ t h₁ h₂⟩)⟩

/-- What was written last by a weaker notion of fitting, and fits, was written last. -/
theorem LastWritten.of_imp {fits' : T → V → Prop} (himp : ∀ t v, fits t v → fits' t v)
    (hl : LastWritten fits' h a k v) (hv : ∀ t, shapeOf h a = some t → fits t v) :
    LastWritten fits h a k v := by
  obtain ⟨pre, post, t, rfl, ht, -, hk, hpost⟩ := hl
  refine ⟨pre, post, t, rfl, ht, hv t ?_, hk, fun v' hv' hfits => hpost v' hv' (himp t v' hfits)⟩
  rw [shapeOf_append, ht, Option.some_or]

end Run

/-! ## Calls with other values -/

section Map

variable {V' : Type*} {f : V → V'} {h : List (CellCall A K T V)} {a : A} {k : K}

/-- A call with its value replaced. -/
def CellCall.map (f : V → V') : CellCall A K T V → CellCall A K T V'
  | .createColumn a t => .createColumn a t
  | .addKey k => .addKey k
  | .write a k v => .write a k (f v)

theorem CellCall.map_eq_write {c : CellCall A K T V} {w : V'} :
    c.map f = .write a k w ↔ ∃ v, c = .write a k v ∧ f v = w := by
  cases c with
  | createColumn b t => simp [map]
  | addKey l => simp [map]
  | write b l v =>
    simp only [map, write.injEq]
    constructor
    · rintro ⟨rfl, rfl, rfl⟩
      exact ⟨v, ⟨rfl, rfl, rfl⟩, rfl⟩
    · rintro ⟨v', ⟨rfl, rfl, rfl⟩, rfl⟩
      exact ⟨rfl, rfl, rfl⟩

@[simp] theorem shapeOf_map (f : V → V') (h : List (CellCall A K T V)) (a : A) :
    shapeOf (h.map (CellCall.map f)) a = shapeOf h a := by
  rw [shapeOf, shapeOf, List.findSome?_map]
  congr 1
  funext c
  cases c <;> rfl

@[simp] theorem addKey_mem_map : .addKey k ∈ h.map (CellCall.map f) ↔ .addKey k ∈ h := by
  rw [List.mem_map]
  constructor
  · rintro ⟨c, hc, heq⟩
    cases c <;> cases heq
    exact hc
  · intro hmem
    exact ⟨_, hmem, rfl⟩

/-- **The last value of replaced calls is the replaced last value**, when a replaced value decides
which values fit. -/
theorem lastWritten_map {fits : T → V' → Prop} {w : V'} :
    LastWritten fits (h.map (CellCall.map f)) a k w ↔
      ∃ v, f v = w ∧ LastWritten (fun t v => fits t (f v)) h a k v := by
  constructor
  · rintro ⟨pre', post', t, heq, ht, hfits, hk, hpost⟩
    obtain ⟨pre, rest, rfl, rfl, hrest⟩ := List.map_eq_append_iff.mp heq
    obtain ⟨c, post, rfl, hc, rfl⟩ := List.map_eq_cons_iff.mp hrest
    obtain ⟨v, rfl, rfl⟩ := CellCall.map_eq_write.mp hc
    rw [shapeOf_map] at ht
    refine ⟨v, rfl, pre, post, t, rfl, ht, hfits, addKey_mem_map.mp hk, fun v' hv' => ?_⟩
    exact hpost (f v') (List.mem_map.mpr ⟨_, hv', rfl⟩)
  · rintro ⟨v, rfl, pre, post, t, rfl, ht, hfits, hk, hpost⟩
    refine ⟨pre.map (CellCall.map f), post.map (CellCall.map f), t, ?_, ?_, hfits,
      addKey_mem_map.mpr hk, fun w hw => ?_⟩
    · rw [List.map_append, List.map_cons]
      rfl
    · rw [shapeOf_map]
      exact ht
    · obtain ⟨c, hc, hcw⟩ := List.mem_map.mp hw
      obtain ⟨v', rfl, rfl⟩ := CellCall.map_eq_write.mp hcw
      exact hpost v' hc

end Map

end SetQL
