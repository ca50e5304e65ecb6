/-!
# Runs

The states that are reached from some initial ones by actions that meet a condition.

## Main definitions

* `Run start step meets s`: a state is reached

## Main results

* `Run.invariant`: what every action keeps holds of the states that are reached
-/

namespace SetQL

variable {σ α : Type} {start : σ → Prop} {step : σ → α → σ → Prop} {meets : σ → α → Prop}
  {s : σ}

/-- The states that are reached by actions that meet a condition where they are taken. -/
inductive Run (start : σ → Prop) (step : σ → α → σ → Prop) (meets : σ → α → Prop) : σ → Prop
  | start {s : σ} (h : start s) : Run start step meets s
  | step {s s' : σ} {a : α} (h : Run start step meets s) (hmeets : meets s a)
      (hstep : step s a s') : Run start step meets s'

/-- **The invariant rule**: what every action keeps holds of the states that are reached. -/
theorem Run.invariant {I : σ → Prop} (hstart : ∀ s, start s → I s)
    (hstep : ∀ s a s', I s → meets s a → step s a s' → I s') (h : Run start step meets s) : I s := by
  induction h with
  | start h => exact hstart _ h
  | step _ hmeets h ih => exact hstep _ _ _ ih hmeets h

end SetQL
