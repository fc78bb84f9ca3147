import Mathlib.Algebra.BigOperators.Group.Finset.Basic
import Mathlib.Algebra.Order.BigOperators.Group.Finset
import Mathlib.Data.Fintype.Basic

/-! Totals of finitely many holdings, and how they change when one holding does. -/

namespace Axyl
open Finset Function

variable {ι : Type} [Fintype ι] [DecidableEq ι]

theorem total_update (f : ι → ℕ) (i : ι) (v : ℕ) : ∑ j, update f i v j + f i = ∑ j, f j + v := by
  have hspl := add_sum_erase Finset.univ f (mem_univ i)
  have hspl' := add_sum_erase Finset.univ (update f i v) (mem_univ i)
  have hrest : ∑ j ∈ Finset.univ.erase i, update f i v j = ∑ j ∈ Finset.univ.erase i, f j :=
    sum_congr rfl fun j hj => update_of_ne (ne_of_mem_erase hj) v f
  rw [update_self] at hspl'
  omega

omit [DecidableEq ι] in
theorem holding_le_total (f : ι → ℕ) (i : ι) : f i ≤ ∑ j, f j :=
  single_le_sum (fun _ _ => Nat.zero_le _) (mem_univ i)

end Axyl
