import Mathlib.Data.List.Basic

/-! Runs of a step function over a list of inputs, with a condition on every step. -/

namespace Axyl.Fold

variable {σ α : Type}

def Along (f : σ → α → σ) (P : σ → α → Prop) : σ → List α → Prop
  | _, [] => True
  | s, a :: as => P s a ∧ Along f P (f s a) as

variable {f : σ → α → σ} {P : σ → α → Prop} {I : σ → Prop}

theorem foldl_of_along (hstep : ∀ s a, I s → P s a → I (f s a)) {s : σ} {as : List α} (h : I s)
    (has : Along f P s as) : I (as.foldl f s) := by
  induction as generalizing s with
  | nil => exact h
  | cons a as ih => exact ih (hstep s a h has.1) has.2

end Axyl.Fold
