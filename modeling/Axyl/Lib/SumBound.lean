import Mathlib.Algebra.BigOperators.Ring.Finset
import Mathlib.Algebra.Order.BigOperators.Group.Finset
import Mathlib.Data.Finset.Sum

/-! Weights over an unbounded set of indices of which every finite sum stays within a bound. -/

namespace Axyl
open Finset

variable {ι : Type}

def SumBounded (w : ι → ℕ) (b : ℕ) : Prop := ∀ D : Finset ι, ∑ i ∈ D, w i ≤ b

namespace SumBounded
variable {w w' c : ι → ℕ} {b b' : ℕ}

section
variable (h : SumBounded w b)
include h

theorem le (i : ι) : w i ≤ b := by
  have := h {i}
  rwa [sum_singleton] at this

theorem mono (hw : ∀ i, w' i ≤ w i) (hb : b ≤ b') : SumBounded w' b' :=
  fun D => ((sum_le_sum fun i _ => hw i).trans (h D)).trans hb

theorem add (hc : SumBounded c b') : SumBounded (fun i => w i + c i) (b + b') := by
  intro D
  rw [sum_add_distrib]
  exact Nat.add_le_add (h D) (hc D)

theorem mul_right (k : ℕ) : SumBounded (fun i => w i * k) (b * k) := by
  intro D
  rw [← sum_mul]
  exact Nat.mul_le_mul_right k (h D)

end

theorem of_mul_right {k : ℕ} (hk : 0 < k) (h : SumBounded (fun i => w i * k) (b * k)) :
    SumBounded w b := by
  intro D
  have := h D
  rw [← sum_mul] at this
  exact Nat.le_of_mul_le_mul_right this hk

theorem update [DecidableEq ι] (h : SumBounded w b) (U : Finset ι) (hoff : ∀ i ∉ U, w' i = w i)
    (hU : ∑ i ∈ U, w' i + b ≤ ∑ i ∈ U, w i + b') : SumBounded w' b' := by
  intro D
  have hrest : ∑ i ∈ (D ∪ U) \ U, w' i = ∑ i ∈ (D ∪ U) \ U, w i :=
    sum_congr rfl fun i hi => hoff i (mem_sdiff.mp hi).2
  have hsub : U ⊆ D ∪ U := subset_union_right
  have hspl := sum_sdiff (f := w) hsub
  have hspl' := sum_sdiff (f := w') hsub
  have hle : ∑ i ∈ D, w' i ≤ ∑ i ∈ D ∪ U, w' i := sum_le_sum_of_subset subset_union_left
  have := h (D ∪ U)
  omega

theorem update_one [DecidableEq ι] (h : SumBounded w b) (j : ι) (hoff : ∀ i, i ≠ j → w' i = w i)
    (hj : w' j + b ≤ w j + b') : SumBounded w' b' := by
  refine h.update {j} (fun i hi => hoff i (by simpa using hi)) ?_
  exact hj

theorem fiber {κ : Type} [DecidableEq κ] (h : SumBounded w b) (k : κ) :
    SumBounded (fun q : κ × ι => if q.1 = k then w q.2 else 0) b := by
  classical
  intro D
  rw [← sum_filter]
  have hinj : Set.InjOn Prod.snd (D.filter fun q => q.1 = k : Set (κ × ι)) := by
    rintro q hq q' hq' heq
    have hq := (mem_filter.mp hq).2
    have hq' := (mem_filter.mp hq').2
    exact Prod.ext (hq.trans hq'.symm) heq
  rw [← sum_image (f := w) hinj]
  exact h _

theorem pairs {κ : Type} [DecidableEq κ] {f : κ × ι → ℕ} {t : κ → ℕ}
    (h : ∀ k, SumBounded (fun i => f (k, i)) (t k)) (D : Finset (κ × ι)) :
    ∑ q ∈ D, f q ≤ ∑ k ∈ D.image Prod.fst, t k := by
  classical
  rw [← sum_fiberwise_of_maps_to fun q hq => mem_image_of_mem Prod.fst hq]
  refine sum_le_sum fun k _ => ?_
  have hfiber := (h k).fiber k (D.filter fun q => q.1 = k)
  refine le_trans (sum_le_sum fun q hq => ?_) hfiber
  have hk := (mem_filter.mp hq).2
  rw [if_pos hk, ← hk]

variable {κ : Type} {u : κ → ℕ}

theorem elim_iff : SumBounded (Sum.elim w u) b ↔
    ∀ (V : Finset ι) (Q : Finset κ), ∑ i ∈ V, w i + ∑ k ∈ Q, u k ≤ b := by
  constructor
  · intro h V Q
    have := h (V.disjSum Q)
    rwa [sum_disjSum] at this
  · intro h D
    rw [← toLeft_disjSum_toRight (u := D), sum_disjSum]
    exact h _ _

end SumBounded

end Axyl
