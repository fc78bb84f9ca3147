import Mathlib.Algebra.Order.Ring.Nat
import Mathlib.Tactic.Linarith
import Mathlib.Tactic.Ring

/-! Accounts of a pool to which losses and rewards per share are applied late. An account remembers
the two running sums at the time it was last brought up to date; amounts are scaled by the
precision `p` of those sums, so that nothing is rounded. -/

namespace Axyl.LazyShares

structure Account where
  amount : ℕ
  lossIndex : ℕ
  rewardIndex : ℕ

def stake (p loss : ℕ) (a : Account) : ℕ := a.amount * (p - (loss - a.lossIndex))

def owed (p loss reward : ℕ) (a : Account) : ℕ := stake p loss a * (reward - a.rewardIndex)

variable {p loss reward : ℕ} {a : Account}

theorem stake_of_current (h : a.lossIndex = loss) : stake p loss a = a.amount * p := by
  rw [stake, h, Nat.sub_self, Nat.sub_zero]

theorem owed_of_current (h : a.rewardIndex = reward) : owed p loss reward a = 0 := by
  rw [owed, h, Nat.sub_self, mul_zero]

theorem stake_le_of_le {loss' : ℕ} (h : loss ≤ loss') : stake p loss' a ≤ stake p loss a :=
  Nat.mul_le_mul_left _ (Nat.sub_le_sub_left (Nat.sub_le_sub_right h _) _)

theorem owed_le_of_le {loss' : ℕ} (h : loss ≤ loss') :
    owed p loss' reward a ≤ owed p loss reward a :=
  Nat.mul_le_mul_right _ (stake_le_of_le h)

theorem stake_add_mul_le (h : a.lossIndex ≤ loss) (d : ℕ) :
    stake p (loss + d) a * p ≤ stake p loss a * (p - d) := by
  have hx : p - (loss + d - a.lossIndex) = p - (loss - a.lossIndex) - d := by omega
  unfold stake
  rw [hx, mul_assoc, mul_assoc]
  refine Nat.mul_le_mul_left _ ?_
  have hle : p - (loss - a.lossIndex) ≤ p := Nat.sub_le _ _
  rw [Nat.sub_mul, Nat.mul_sub]
  have := Nat.mul_le_mul_right d hle
  rw [mul_comm d p]
  omega

theorem owed_add (h : a.rewardIndex ≤ reward) (d : ℕ) :
    owed p loss (reward + d) a = owed p loss reward a + stake p loss a * d := by
  have hd : reward + d - a.rewardIndex = (reward - a.rewardIndex) + d := by omega
  rw [owed, owed, hd, mul_add]

theorem settled_le {effective delta : ℕ} (heff : effective * p ≤ stake p loss a)
    (hdelta : delta * p ≤ effective * (reward - a.rewardIndex)) :
    delta * (p * p) ≤ owed p loss reward a := by
  calc delta * (p * p) = delta * p * p := by rw [mul_assoc]
    _ ≤ effective * (reward - a.rewardIndex) * p := Nat.mul_le_mul_right p hdelta
    _ = effective * p * (reward - a.rewardIndex) := by ring
    _ ≤ owed p loss reward a := Nat.mul_le_mul_right _ heff

end Axyl.LazyShares
