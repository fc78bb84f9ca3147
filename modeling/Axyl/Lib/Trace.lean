import Mathlib.Data.List.Infix

/-! Runs of a labelled transition relation and the lists of labels they emit. -/

namespace Axyl.Trace
open List

variable {σ ε : Type} {step : σ → ε → σ → Prop}

inductive Run (step : σ → ε → σ → Prop) : σ → List ε → σ → Prop where
  | nil (s : σ) : Run step s [] s
  | cons {s t u : σ} {e : ε} {es : List ε} :
      step s e t → Run step t es u → Run step s (e :: es) u

def Deterministic (step : σ → ε → σ → Prop) : Prop :=
  ∀ ⦃s e t e' t'⦄, step s e t → step s e' t' → e = e' ∧ t = t'

def Comparable (l l' : List ε) : Prop := l <+: l' ∨ l' <+: l

instance [DecidableEq ε] (l l' : List ε) : Decidable (Comparable l l') :=
  inferInstanceAs (Decidable (_ ∨ _))

namespace Run

variable {s t u : σ} {es fs : List ε}

section
variable (h : Run step s es t)
include h

theorem append (h' : Run step t fs u) : Run step s (es ++ fs) u := by
  induction h with
  | nil => exact h'
  | cons hstep _ ih => exact .cons hstep (ih h')

omit h in
theorem split (h : Run step s (es ++ fs) u) : ∃ t, Run step s es t ∧ Run step t fs u := by
  induction es generalizing s with
  | nil => exact ⟨s, .nil s, h⟩
  | cons e es ih =>
    cases h with
    | cons hstep hrest =>
      obtain ⟨t, h1, h2⟩ := ih hrest
      exact ⟨t, .cons hstep h1, h2⟩

theorem invariant {P : σ → Prop} (hstep : ∀ s e t, step s e t → P s → P t) (hs : P s) : P t := by
  induction h with
  | nil => exact hs
  | cons h _ ih => exact ih (hstep _ _ _ h hs)

theorem holds_or_emits {P : σ → Prop} {Q : ε → Prop}
    (hstep : ∀ e ∈ es, ∀ s t, step s e t → P s → P t ∨ Q e) (hs : P s) : P t ∨ ∃ e ∈ es, Q e := by
  induction h with
  | nil => exact .inl hs
  | cons h _ ih =>
    rcases hstep _ mem_cons_self _ _ h hs with hp | hq
    · refine (ih (fun e he => hstep e (mem_cons_of_mem _ he)) hp).imp_right ?_
      rintro ⟨e, he, hq⟩
      exact ⟨e, mem_cons_of_mem _ he, hq⟩
    · exact .inr ⟨_, mem_cons_self, hq⟩

theorem snoc {e : ε} (he : step t e u) : Run step s (es ++ [e]) u := h.append (.cons he (.nil u))

omit h in
theorem history {P : List ε → σ → Prop} {s₀ : σ} (h0 : P [] s₀)
    (hstep : ∀ es s e t, Run step s₀ es s → P es s → step s e t → P (es ++ [e]) t)
    (h : Run step s₀ es s) : P es s := by
  suffices hgen : ∀ {fs : List ε} {u v : σ} {es : List ε}, Run step u es v →
      Run step s₀ fs u → P fs u → P (fs ++ es) v from
    hgen h (.nil s₀) h0
  intro fs u v es hrun
  induction hrun generalizing fs with
  | nil =>
    intro _ hp
    rwa [append_nil]
  | cons hstep' _ ih =>
    intro hpre hp
    have := ih (hpre.snoc hstep') (hstep _ _ _ _ hpre hp hstep')
    rwa [append_assoc] at this

theorem comparable (hd : Deterministic step) (h' : Run step s fs u) : Comparable es fs := by
  induction h generalizing fs with
  | nil => exact .inl nil_prefix
  | cons hstep _ ih =>
    cases h' with
    | nil => exact .inr nil_prefix
    | cons hstep' hrest' =>
      obtain ⟨rfl, rfl⟩ := hd hstep hstep'
      exact (ih hrest').imp (cons_prefix_cons.mpr ⟨rfl, ·⟩) (cons_prefix_cons.mpr ⟨rfl, ·⟩)

end

end Run

end Axyl.Trace
