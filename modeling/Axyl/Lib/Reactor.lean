import Mathlib.Logic.Basic

/-! Machines that answer every input with a list of effects. -/

namespace Axyl.Reactor
open List

variable {σ α β : Type}

def run (f : σ → α → List β × σ) : σ → List α → List β × σ
  | s, [] => ([], s)
  | s, a :: as => ((f s a).1 ++ (run f (f s a).2 as).1, (run f (f s a).2 as).2)

theorem run_append (f : σ → α → List β × σ) (s : σ) (as bs : List α) : run f s (as ++ bs) =
      ((run f s as).1 ++ (run f (run f s as).2 bs).1, (run f (run f s as).2 bs).2) := by
  induction as generalizing s with
  | nil => rfl
  | cons a as ih =>
    rw [cons_append, run, ih, run, append_assoc]

theorem run_replicate {f : σ → α → List β × σ} {s : σ} {as : List α} (h : run f s as = ([], s))
    (k : Nat) : run f s (List.replicate k as).flatten = ([], s) := by
  induction k with
  | zero => rfl
  | succ k ih => rw [replicate_succ, flatten_cons, run_append, h, ih, append_nil]

variable {f : σ → α → List β × σ} {bs : List β} {s : σ}

theorem run_history {P : List β → σ → Prop}
    (hstep : ∀ bs s a, P bs s → P (bs ++ (f s a).1) (f s a).2) (h : P bs s) (as : List α) :
    P (bs ++ (run f s as).1) (run f s as).2 := by
  induction as generalizing bs s with
  | nil =>
    rw [run, append_nil]
    exact h
  | cons a as ih =>
    rw [run, ← append_assoc]
    exact ih (hstep bs s a h)

variable {as : List α}

theorem run_inputs {P : List α → List β → σ → Prop}
    (hstep : ∀ as bs s a, P as bs s → P (as ++ [a]) (bs ++ (f s a).1) (f s a).2) (h : P as bs s)
    (later : List α) : P (as ++ later) (bs ++ (run f s later).1) (run f s later).2 := by
  induction later generalizing as bs s with
  | nil =>
    rw [run, append_nil, append_nil]
    exact h
  | cons a later ih =>
    rw [run, ← append_assoc, ← singleton_append, ← append_assoc]
    exact ih (hstep as bs s a h)

def Always (f : σ → α → List β × σ) (P : σ → α → Prop) : σ → List α → Prop
  | _, [] => True
  | s, a :: as => P s a ∧ Always f P (f s a).2 as

instance decidableAlways (f : σ → α → List β × σ) (P : σ → α → Prop) [∀ s a, Decidable (P s a)] :
    (s : σ) → (as : List α) → Decidable (Always f P s as)
  | _, [] => isTrue trivial
  | s, a :: as =>
    have := decidableAlways f P (f s a).2 as
    inferInstanceAs (Decidable (P s a ∧ Always f P (f s a).2 as))

variable {P : σ → α → Prop}

theorem always_of_forall (h : ∀ a ∈ as, ∀ s, P s a) (s : σ) : Always f P s as := by
  induction as generalizing s with
  | nil => exact trivial
  | cons a as ih =>
    refine ⟨h a mem_cons_self s, ih (fun a' ha' => ?_) _⟩
    exact h a' (mem_cons_of_mem a ha')

theorem run_history_of {Q : List β → σ → Prop}
    (hstep : ∀ bs s a, Q bs s → P s a → Q (bs ++ (f s a).1) (f s a).2) (h : Q bs s)
    (has : Always f P s as) : Q (bs ++ (run f s as).1) (run f s as).2 := by
  induction as generalizing bs s with
  | nil =>
    rw [run, append_nil]
    exact h
  | cons a as ih =>
    rw [run, ← append_assoc]
    exact ih (hstep bs s a h has.1) has.2

theorem run_effects_of {I : σ → Prop} {R : β → Prop}
    (hstep : ∀ s a, I s → P s a → I (f s a).2 ∧ ∀ b ∈ (f s a).1, R b) (h : I s)
    (has : Always f P s as) : ∀ b ∈ (run f s as).1, R b := by
  induction as generalizing s with
  | nil => nofun
  | cons a as ih =>
    obtain ⟨hs, hb⟩ := hstep s a h has.1
    exact forall_mem_append.mpr ⟨hb, ih hs has.2⟩

theorem Always.and {Q : σ → α → Prop} (hP : Always f P s as) (hQ : Always f Q s as) :
    Always f (fun s a => P s a ∧ Q s a) s as := by
  induction as generalizing s with
  | nil => exact trivial
  | cons a as ih => exact ⟨⟨hP.1, hQ.1⟩, ih hP.2 hQ.2⟩

theorem always_append {bs : List α} :
    Always f P s (as ++ bs) ↔ Always f P s as ∧ Always f P (run f s as).2 bs := by
  induction as generalizing s with
  | nil => exact (true_and _).symm.to_iff
  | cons a as ih =>
    rw [cons_append, Always, ih, Always, run, and_assoc]

def count (f : σ → α → List β × σ) (A : σ → α → Prop) [∀ s a, Decidable (A s a)] : σ → List α → Nat
  | _, [] => 0
  | s, a :: as => (if A s a then 1 else 0) + count f A (f s a).2 as

theorem count_add_le {A : σ → α → Prop} [∀ s a, Decidable (A s a)] {Q : σ → Prop}
    {potential : σ → Nat} (hQ : ∀ s a, Q s → P s a → Q (f s a).2)
    (hstep : ∀ s a, Q s → P s a → potential (f s a).2 + (if A s a then 1 else 0) ≤ potential s)
    (hs : Q s) (has : Always f P s as) :
    count f A s as + potential (run f s as).2 ≤ potential s := by
  induction as generalizing s with
  | nil => exact Nat.le_of_eq (Nat.zero_add _)
  | cons a as ih =>
    have hrest := ih (hQ s a hs has.1) has.2
    have hfst := hstep s a hs has.1
    change (if A s a then 1 else 0) + count f A (f s a).2 as + potential (run f (f s a).2 as).2 ≤ _
    omega

end Axyl.Reactor
