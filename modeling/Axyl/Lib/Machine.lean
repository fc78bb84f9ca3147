import Axyl.Lib.Except
import Axyl.Lib.Trace

/-! Machines that read a list of inputs, emit one output for each and may fail. A run that
does not fail is a run of the transition relation whose labels pair inputs and outputs. -/

namespace Axyl.Machine
open Fallible
open Trace (Run)

variable {σ α β ε : Type}

def run (f : σ → α → Except ε (β × σ)) : σ → List α → Except ε (List β × σ)
  | s, [] => .ok ([], s)
  | s, a :: as => do
    let (b, t) ← f s a
    let (bs, u) ← run f t as
    return (b :: bs, u)

def Step (f : σ → α → Except ε (β × σ)) (s : σ) (l : α × β) (t : σ) : Prop :=
  f s l.1 = .ok (l.2, t)

def always (f : σ → α → Except ε (β × σ)) (P : σ → α → Bool) : σ → List α → Bool
  | _, [] => true
  | s, a :: as =>
    P s a && match f s a with
      | .ok (_, t) => always f P t as
      | .error _ => true

variable {f : σ → α → Except ε (β × σ)} {s u : σ} {as : List α} {bs : List β}

theorem run_cons_eq_ok {a : α} : run f s (a :: as) = .ok (bs, u) ↔
      ∃ b t bs', f s a = .ok (b, t) ∧ run f t as = .ok (bs', u) ∧ bs = b :: bs' := by
  rw [run, bind_eq_ok]
  constructor
  · rintro ⟨⟨b, t⟩, hf, h⟩
    obtain ⟨⟨bs', u'⟩, hr, h⟩ := bind_eq_ok.mp h
    cases h
    exact ⟨b, t, bs', hf, hr, rfl⟩
  · rintro ⟨b, t, bs', hf, hr, rfl⟩
    exact ⟨(b, t), hf, bind_eq_ok.mpr ⟨(bs', u), hr, rfl⟩⟩

theorem run_append_eq_ok {as' : List α} : run f s (as ++ as') = .ok (bs, u) ↔
      ∃ bs₁ t bs₂, run f s as = .ok (bs₁, t) ∧ run f t as' = .ok (bs₂, u) ∧ bs = bs₁ ++ bs₂ := by
  induction as generalizing s bs with
  | nil =>
    constructor
    · intro h
      exact ⟨[], s, bs, rfl, h, rfl⟩
    · rintro ⟨bs₁, t, bs₂, h, h', rfl⟩
      cases h
      exact h'
  | cons a as ih =>
    rw [List.cons_append, run_cons_eq_ok]
    constructor
    · rintro ⟨b, t, bs', hf, hr, rfl⟩
      obtain ⟨bs₁, v, bs₂, h₁, h₂, rfl⟩ := ih.mp hr
      exact ⟨b :: bs₁, v, bs₂, run_cons_eq_ok.mpr ⟨b, t, bs₁, hf, h₁, rfl⟩, h₂, rfl⟩
    · rintro ⟨bs₁, v, bs₂, h₁, h₂, rfl⟩
      obtain ⟨b, t, bs', hf, hr, rfl⟩ := run_cons_eq_ok.mp h₁
      exact ⟨b, t, bs' ++ bs₂, hf, ih.mpr ⟨bs', v, bs₂, hr, h₂, rfl⟩, rfl⟩

theorem exists_of_run_eq_error {e : ε} (h : run f s as = .error e) : ∃ t a, f t a = .error e := by
  induction as generalizing s with
  | nil => cases h
  | cons a as ih =>
    rcases bind_eq_error.mp h with h | ⟨⟨b, t⟩, -, h⟩
    · exact ⟨s, a, h⟩
    · rcases bind_eq_error.mp h with h | ⟨⟨bs, u⟩, -, h⟩
      · exact ih h
      · cases h

section
variable (h : run f s as = .ok (bs, u))
include h

theorem length_run : bs.length = as.length := by
  induction as generalizing s bs with
  | nil =>
    cases h
    rfl
  | cons a as ih =>
    obtain ⟨b, t, bs', -, hr, rfl⟩ := run_cons_eq_ok.mp h
    rw [List.length_cons, List.length_cons, ih hr]

theorem trace_of_always {P : σ → α → Bool} (hP : always f P s as) :
    Run (fun s l t => Step f s l t ∧ P s l.1) s (as.zip bs) u := by
  induction as generalizing s bs with
  | nil =>
    cases h
    exact .nil _
  | cons a as ih =>
    obtain ⟨b, t, bs', hf, hr, rfl⟩ := run_cons_eq_ok.mp h
    rw [always, hf, Bool.and_eq_true] at hP
    exact .cons ⟨hf, hP.1⟩ (ih hr hP.2)

end

theorem run_related {τ : Type} {g : τ → α → Except ε (β × τ)} {R : σ → τ → Prop}
    (hstep : ∀ a ∈ as, ∀ s t, R s t →
      Fallible.Related (fun x y => x.1 = y.1 ∧ R x.2 y.2) (f s a) (g t a)) {s : σ} {t : τ}
    (h : R s t) :
    Fallible.Related (fun x y => x.1 = y.1 ∧ R x.2 y.2) (run f s as) (run g t as) := by
  induction as generalizing s t with
  | nil => exact ⟨rfl, h⟩
  | cons a as ih =>
    refine (hstep a List.mem_cons_self s t h).bind fun x y _ hxy => ?_
    refine (ih (fun a ha => hstep a (List.mem_cons_of_mem _ ha)) hxy.2).bind fun x' y' _ hxy' => ?_
    exact ⟨by rw [hxy.1, hxy'.1], hxy'.2⟩

theorem run_spec {I : σ → Prop} {E : ε → Prop}
    (hstep : ∀ a ∈ as, ∀ s, I s → Fallible.Spec (fun r => I r.2) E (f s a)) {s : σ} (h : I s) :
    Fallible.Spec (fun r => I r.2) E (run f s as) := by
  induction as generalizing s with
  | nil => exact h
  | cons a as ih =>
    refine (hstep a List.mem_cons_self s h).bind fun x hx => ?_
    refine (ih (fun a ha => hstep a (List.mem_cons_of_mem _ ha)) hx).bind fun y hy => ?_
    exact hy

end Axyl.Machine
