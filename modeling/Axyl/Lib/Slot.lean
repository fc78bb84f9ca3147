import Mathlib.Data.List.Basic

/-! A slot that is taken by each attempt and given back by some of them, at most `limit` times.
Two observers who disagree on which attempts give it back are compared. -/

namespace Axyl
open List

structure Slot where
  taken : Bool
  returns : Nat
deriving DecidableEq, Repr

namespace Slot

def free : Slot := ⟨false, 0⟩

def attempt (limit : Nat) (s : Slot) (back : Bool) : Slot :=
  if back then (if limit ≤ s.returns then ⟨true, s.returns⟩ else ⟨false, s.returns + 1⟩)
  else ⟨true, s.returns⟩

def Attempts (limit : Nat) : Slot → List Bool → Prop
  | _, [] => True
  | s, back :: rest => s.taken = false ∧ Attempts limit (s.attempt limit back) rest

variable {limit : Nat} {s : Slot} {fs gs : List Bool}

theorem attempts_append : Attempts limit s (fs ++ gs) ↔
    Attempts limit s fs ∧ Attempts limit (fs.foldl (attempt limit) s) gs := by
  induction fs generalizing s with
  | nil => simp [Attempts]
  | cons f fs ih => simp only [cons_append, Attempts, ih, foldl_cons, and_assoc]

theorem attempt_congr {t : Slot} (h : s.returns = t.returns) (back : Bool) :
    s.attempt limit back = t.attempt limit back := by
  rw [attempt, attempt, h]

theorem taken_attempt (limit : Nat) (s : Slot) (back : Bool) :
    (s.attempt limit back).taken = (!back || decide (limit ≤ s.returns)) := by
  cases back with
  | false => rfl
  | true =>
    by_cases h : limit ≤ s.returns <;> simp [attempt, h]

theorem foldl_replicate_true {n : Nat} (h : s.returns + n ≤ limit) :
    ((List.replicate n true).foldl (attempt limit) s).returns = s.returns + n := by
  induction n generalizing s with
  | zero => rfl
  | succ n ih =>
    have hstep : s.attempt limit true = ⟨false, s.returns + 1⟩ := by
      rw [attempt, if_pos rfl, if_neg (by omega)]
    rw [replicate_succ, foldl_cons, hstep, ih (by simp only; omega)]
    simp only
    omega

theorem Attempts.eq_replicate {f : Bool} (h : Attempts limit s (fs ++ [f])) :
    fs = List.replicate fs.length true ∧ s.returns + fs.length ≤ max limit s.returns := by
  induction fs generalizing s with
  | nil => exact ⟨rfl, Nat.le_max_right _ _⟩
  | cons g fs ih =>
    have hnext : (s.attempt limit g).taken = false := by
      cases fs with
      | nil => exact h.2.1
      | cons g' fs => exact h.2.1
    rw [taken_attempt, Bool.or_eq_false_iff, Bool.not_eq_false', decide_eq_false_iff_not] at hnext
    obtain ⟨rfl, hlt⟩ := hnext
    have hstep : s.attempt limit true = ⟨false, s.returns + 1⟩ := by
      rw [attempt, if_pos rfl, if_neg hlt]
    obtain ⟨heq, hle⟩ := ih h.2
    rw [hstep] at hle
    refine ⟨?_, ?_⟩
    · rw [length_cons, replicate_succ, ← heq]
    · simp only [length_cons] at hle ⊢
      omega

/-- The second observer takes an attempt that gave the slot back for one that does if `q`
holds, and the last attempt for `g`, which needs `q`. Both find the slot alike in the end
exactly when they agree on the last attempt or the limit was reached before it. -/
theorem agree_iff {q f g : Bool} (h : Attempts limit free (fs ++ [f])) (hg : g = true → q = true) :
    let live := (fs ++ [f]).foldl (attempt limit) free
    let seen := ((fs.map fun _ => q) ++ [g]).foldl (attempt limit) free
    (live.taken = seen.taken ↔ (fs.length < limit → f = g)) ∧
      (live.taken = seen.taken → live.taken = false → live = seen) := by
  intro live seen
  obtain ⟨heq, hle⟩ := h.eq_replicate
  have hn : fs.length ≤ limit := by simpa [free] using hle
  have hlive : (fs.foldl (attempt limit) free).returns = fs.length := by
    rw [heq, foldl_replicate_true (by simpa [free] using hn)]
    simp [free]
  have hseen : g = true → ((fs.map fun _ => q).foldl (attempt limit) free).returns = fs.length := by
    intro hgt
    rw [map_const', hg hgt, foldl_replicate_true (by simpa [free] using hn)]
    simp [free]
  have hl : live = (fs.foldl (attempt limit) free).attempt limit f := by
    simp only [live, foldl_append, foldl_cons, foldl_nil]
  have hs : seen = ((fs.map fun _ => q).foldl (attempt limit) free).attempt limit g := by
    simp only [seen, foldl_append, foldl_cons, foldl_nil]
  rw [hl, hs, taken_attempt, taken_attempt, hlive]
  cases f with
  | false =>
    cases g with
    | false => simp
    | true =>
      rw [hseen rfl]
      simp
  | true =>
    cases g with
    | false =>
      refine ⟨by simp, fun htk hfree => ?_⟩
      rw [htk] at hfree
      simp at hfree
    | true =>
      rw [hseen rfl]
      refine ⟨by simp, fun _ _ => ?_⟩
      exact attempt_congr (hlive.trans (hseen rfl).symm) true

end Slot

end Axyl
