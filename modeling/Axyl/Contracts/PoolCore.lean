import Axyl.Contracts.PoolEffects

/-! The part of the delegation pool that no claim can change: stakes, sums, settings and the epoch.
What any other call does to it depends on it alone, as long as nothing is slashed. -/

namespace Axyl.DelegationPool
open Function DelegatorPosition

def PoolCall.Stakes : PoolCall → Prop
  | .applyPoolSlash _ _ | .requestUndelegation _ _ _ | .completeUndelegation _ _ => False
  | _ => True

namespace PoolState
open Fallible (map_ite_eq map_guard map_bind_eq)

variable {s s' : PoolState} {v d amount : Nat} {c : PoolCall}

variable {pool pool' : ValidatorPool}

variable {t : PoolState} {pos q' : DelegatorPosition} {allowlisted isOpenTier : Bool}

/-- The settings are the same. -/
def Beside (s t : PoolState) : Prop :=
  { s with
    validatorPools := t.validatorPools
    positions := t.positions
    balance := t.balance } = t

section
variable (s : PoolState)

end

variable {q : DelegatorPosition}

section
variable (hq : s.settledPosition v d = q)
include hq

end

end PoolState

end Axyl.DelegationPool
