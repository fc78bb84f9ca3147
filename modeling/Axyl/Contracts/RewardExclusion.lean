import Axyl.Contracts.PoolCore

/-! What a position receives in rewards, against a ledger that credits every distribution when it
is made: none in the epoch of the latest delegation, and in proportion to the stake after it. -/

namespace Axyl.DelegationPool

namespace PoolState
variable {s s' : PoolState} {v d : Nat} {c : PoolCall}

def paid (s : PoolState) (v d : Nat) : PoolCall → Nat
  | .claimDelegationRewards u e =>
    if u = v ∧ e = d then s.balance - (s.step (.claimDelegationRewards v d)).balance else 0
  | _ => 0

def received (s : PoolState) (v d : Nat) : List PoolCall → Nat
  | [] => (s.getEffectivePosition v d).2
  | c :: calls => s.paid v d c + (s.step c).received v d calls

/-- Nothing is slashed or undelegated, and when an epoch ends in which the position was delegated
to, its reward debt is that of its amount. -/
def Excludes (s : PoolState) (v d : Nat) : PoolCall → Prop
  | .applyPoolSlash _ _ | .requestUndelegation _ _ _ | .completeUndelegation _ _ => False
  | .concludeEpoch => (s.positions v d).lastDelegateEpoch = s.currentEpoch →
    (s.positions v d).rewardDebt = (s.positions v d).amount *
      (s.validatorPools v).accum (s.positions v d).openTier / precision
  | _ => True

section
variable (h : Sound s v d)
include h

section
variable (h₀ : s.Unslashed v)
include h₀

end

end

/-! ### Claims -/

theorem Excludes.stakes (h : s.Excludes v d c) : c.Stakes := by
  cases c <;> first | exact h | trivial

variable {t : PoolState}

end PoolState

end Axyl.DelegationPool
