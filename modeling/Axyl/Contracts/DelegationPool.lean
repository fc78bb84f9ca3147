import Axyl.Lib.Except
import Mathlib.Logic.Function.Basic

/-! The delegation pool contract: delegators' positions in the pools of the validators, with
rewards and slashes kept as sums per share and applied to a position when it is next touched. -/

namespace Axyl
open Function

namespace DelegationPool

def precision : Nat := 1000000000000000000

def maxCommissionBps : Nat := 10000
def maxCommissionIncreaseBps : Nat := 500
def maxInitialCommissionBps : Nat := 2000

structure ValidatorPool where
  totalDelegated : Nat := 0
  commissionBps : Nat := 0
  rewardPerShareAccum : Nat := 0
  pendingValidatorRewards : Nat := 0
  acceptingDelegations : Bool := false
  slashPerShareAccum : Nat := 0
  openTierDelegated : Nat := 0
  openRewardPerShareAccum : Nat := 0
deriving DecidableEq, Repr

structure DelegatorPosition where
  amount : Nat := 0
  rewardDebt : Nat := 0
  pendingRewards : Nat := 0
  undelegateEpoch : Nat := 0
  undelegateAmount : Nat := 0
  slashDebt : Nat := 0
  lastDelegateEpoch : Nat := 0
  openTier : Bool := false
deriving DecidableEq, Repr

structure PendingCommission where
  newBps : Nat := 0
  effectiveEpoch : Nat := 0
deriving DecidableEq, Repr

/-- The bounds are those of `_validateConfig`, so that no other configuration is ever stored. -/
structure DelegationConfig where
  minDelegation : Nat
  maxDelegation : Nat
  maxValidatorDelegation : Nat
  unbondingEpochs : Nat
  commissionDelayEpochs : Nat
  min_pos : 0 < minDelegation
  max_pos : 0 < maxDelegation
  max_le : maxDelegation ≤ maxValidatorDelegation
  unbonding_pos : 0 < unbondingEpochs
  delay_pos : 0 < commissionDelayEpochs
deriving DecidableEq, Repr

/-- `underflow` is the revert of a checked subtraction and `transferFailed` that of the token. -/
inductive PoolError where
  | poolNotRegistered (validator : Nat)
  | poolAlreadyRegistered (validator : Nat)
  | poolNotAcceptingDelegations (validator : Nat)
  | insufficientDelegation (amount minimum : Nat)
  | exceedsMaxDelegation (amount maximum : Nat)
  | exceedsMaxValidatorDelegation (total maximum : Nat)
  | insufficientBalance (requested available : Nat)
  | nothingToUndelegate
  | unbondingNotComplete (currentEpoch requiredEpoch : Nat)
  | pendingUndelegationExists (undelegateEpoch : Nat)
  | noPendingRewards
  | noCommissionToClaim
  | invalidCommission (bps : Nat)
  | invalidInitialCommission (bps : Nat)
  | commissionIncreaseExceedsLimit (increase maxIncrease : Nat)
  | pendingCommissionExists (effectiveEpoch : Nat)
  | noPendingCommission
  | commissionNotYetEffective (currentEpoch effectiveEpoch : Nat)
  | notActiveValidator (validator : Nat)
  | notAllowlisted (validator : Nat)
  | notWhitelisted (delegator : Nat)
  | zeroAddress
  | zeroAmount
  | transferFailed
  | underflow
deriving DecidableEq, Repr

abbrev PoolM := Except PoolError

/-- The storage of the contract, the pool's balance of the token and the registry's epoch. The
addresses rewards and commissions are sent to, which are outside the pool, are left out. -/
structure PoolState where
  config : DelegationConfig
  validatorPools : Nat → ValidatorPool := fun _ => {}
  poolRegistered : Nat → Bool := fun _ => false
  positions : Nat → Nat → DelegatorPosition := fun _ _ => {}
  pendingCommissions : Nat → PendingCommission := fun _ => {}
  whitelistEnabled : Bool := false
  whitelistVerified : Nat → Bool := fun _ => false
  currentEpoch : Nat := 0
  balance : Nat := 0

def checkedSub (a b : Nat) : PoolM Nat :=
  if b ≤ a then .ok (a - b) else .error .underflow

namespace ValidatorPool

def accum (pool : ValidatorPool) (openTier : Bool) : Nat :=
  if openTier then pool.openRewardPerShareAccum else pool.rewardPerShareAccum

def delegated (pool : ValidatorPool) (openTier : Bool) : Nat :=
  if openTier then pool.openTierDelegated else pool.totalDelegated

def withDelegated (pool : ValidatorPool) (openTier : Bool) (amount : Nat) : ValidatorPool :=
  if openTier then { pool with openTierDelegated := amount }
  else { pool with totalDelegated := amount }

def totalAll (pool : ValidatorPool) : Nat := pool.totalDelegated + pool.openTierDelegated

end ValidatorPool

structure Settlement where
  effectiveAmount : Nat
  rewardDelta : Nat
  newRewardDebt : Nat
  newSlashDebt : Nat
deriving DecidableEq, Repr

def accumulatedSlash (amount slashPerShareAccum : Nat) : Nat :=
  (amount * slashPerShareAccum + precision - 1) / precision

def settleArithmetic (pool : ValidatorPool) (pos : DelegatorPosition) (currentEpoch : Nat) :
    Settlement :=
  let accum := pool.accum pos.openTier
  let slashAmount := accumulatedSlash pos.amount pool.slashPerShareAccum - pos.slashDebt
  if 0 < slashAmount ∧ pos.amount ≤ slashAmount then ⟨0, 0, 0, 0⟩
  else
    let effectiveAmount := pos.amount - slashAmount
    let scaledRewardDebt :=
      if 0 < slashAmount then (pos.rewardDebt * effectiveAmount + pos.amount - 1) / pos.amount
      else pos.rewardDebt
    let accumulated := effectiveAmount * accum / precision
    { effectiveAmount
      rewardDelta :=
        if pos.lastDelegateEpoch ≠ currentEpoch then accumulated - scaledRewardDebt else 0
      newRewardDebt := accumulated
      newSlashDebt := accumulatedSlash effectiveAmount pool.slashPerShareAccum }

def settlePosition (pool : ValidatorPool) (pos : DelegatorPosition) (currentEpoch : Nat) :
    DelegatorPosition :=
  if pos.amount = 0 then pos
  else
    let settled := settleArithmetic pool pos currentEpoch
    { pos with
      amount := settled.effectiveAmount
      pendingRewards := pos.pendingRewards + settled.rewardDelta
      rewardDebt := settled.newRewardDebt
      slashDebt := settled.newSlashDebt }

def DelegatorPosition.withAmount (pos : DelegatorPosition) (pool : ValidatorPool) (amount : Nat) :
    DelegatorPosition :=
  { pos with
    amount
    rewardDebt := amount * pool.accum pos.openTier / precision
    slashDebt := accumulatedSlash amount pool.slashPerShareAccum }

namespace PoolState

def setPool (s : PoolState) (v : Nat) (pool : ValidatorPool) : PoolState :=
  { s with validatorPools := update s.validatorPools v pool }

def setPosition (s : PoolState) (v d : Nat) (pos : DelegatorPosition) : PoolState :=
  { s with positions := update s.positions v (update (s.positions v) d pos) }

def transfer (s : PoolState) (amount : Nat) : PoolM PoolState :=
  if amount ≤ s.balance then .ok { s with balance := s.balance - amount }
  else .error .transferFailed

def getEffectivePosition (s : PoolState) (v d : Nat) : Nat × Nat :=
  let pos := s.positions v d
  if pos.amount = 0 then (0, pos.pendingRewards)
  else
    let settled := settleArithmetic (s.validatorPools v) pos s.currentEpoch
    (settled.effectiveAmount, pos.pendingRewards + settled.rewardDelta)

/-! ### Validators -/

def registerPool (s : PoolState) (v commissionBps : Nat) (allowlisted active : Bool) :
    PoolM PoolState :=
  if s.poolRegistered v then .error (.poolAlreadyRegistered v)
  else if maxCommissionBps < commissionBps then .error (.invalidCommission commissionBps)
  else if !allowlisted then .error (.notAllowlisted v)
  else if maxInitialCommissionBps < commissionBps then
    .error (.invalidInitialCommission commissionBps)
  else if !active then .error (.notActiveValidator v)
  else
    .ok { s.setPool v { commissionBps, acceptingDelegations := true } with
      poolRegistered := update s.poolRegistered v true }

def updateCommission (s : PoolState) (v newCommissionBps : Nat) : PoolM PoolState :=
  let pool := s.validatorPools v
  let pending := s.pendingCommissions v
  if !s.poolRegistered v then .error (.poolNotRegistered v)
  else if maxCommissionBps < newCommissionBps then .error (.invalidCommission newCommissionBps)
  else if pool.commissionBps < newCommissionBps then
    let increase := newCommissionBps - pool.commissionBps
    if maxCommissionIncreaseBps < increase then
      .error (.commissionIncreaseExceedsLimit increase maxCommissionIncreaseBps)
    else if pending.effectiveEpoch ≠ 0 then
      .error (.pendingCommissionExists pending.effectiveEpoch)
    else
      let effectiveEpoch := s.currentEpoch + s.config.commissionDelayEpochs
      .ok { s with pendingCommissions :=
              update s.pendingCommissions v ⟨newCommissionBps, effectiveEpoch⟩ }
  else
    .ok { s.setPool v { pool with commissionBps := newCommissionBps } with
      pendingCommissions := if pending.effectiveEpoch ≠ 0 then
        update s.pendingCommissions v {} else s.pendingCommissions }

def activatePendingCommission (s : PoolState) (v : Nat) : PoolM PoolState :=
  let pending := s.pendingCommissions v
  if !s.poolRegistered v then .error (.poolNotRegistered v)
  else if pending.effectiveEpoch = 0 then .error .noPendingCommission
  else if s.currentEpoch < pending.effectiveEpoch then
    .error (.commissionNotYetEffective s.currentEpoch pending.effectiveEpoch)
  else
    .ok { s.setPool v { s.validatorPools v with commissionBps := pending.newBps } with
      pendingCommissions := update s.pendingCommissions v {} }

def cancelPendingCommission (s : PoolState) (v : Nat) : PoolM PoolState :=
  if !s.poolRegistered v then .error (.poolNotRegistered v)
  else if (s.pendingCommissions v).effectiveEpoch = 0 then .error .noPendingCommission
  else .ok { s with pendingCommissions := update s.pendingCommissions v {} }

def setAcceptingDelegations (s : PoolState) (v : Nat) (accepting : Bool) : PoolM PoolState :=
  if !s.poolRegistered v then .error (.poolNotRegistered v)
  else .ok (s.setPool v { s.validatorPools v with acceptingDelegations := accepting })

def claimCommission (s : PoolState) (v : Nat) : PoolM PoolState :=
  let pool := s.validatorPools v
  if !s.poolRegistered v then .error (.poolNotRegistered v)
  else if pool.pendingValidatorRewards = 0 then .error .noCommissionToClaim
  else
    (s.setPool v { pool with pendingValidatorRewards := 0 }).transfer pool.pendingValidatorRewards

/-! ### Delegators -/

def delegateTier (s : PoolState) (v d amount : Nat) (isOpenTier allowlisted paid : Bool) :
    PoolM PoolState := do
  let pool := s.validatorPools v
  let pos := s.positions v d
  if v = 0 then .error .zeroAddress
  else if amount = 0 then .error .zeroAmount
  else if !s.poolRegistered v then .error (.poolNotRegistered v)
  else if !allowlisted then .error (.notAllowlisted v)
  else if !pool.acceptingDelegations then .error (.poolNotAcceptingDelegations v)
  else if amount < s.config.minDelegation then
    .error (.insufficientDelegation amount s.config.minDelegation)
  else
    -- a position keeps the tier it was opened in
    let isOpenTier := if 0 < pos.amount then pos.openTier else isOpenTier
    let pos := settlePosition pool pos s.currentEpoch
    let newDelegatorTotal := pos.amount + amount
    if s.config.maxDelegation < newDelegatorTotal then
      .error (.exceedsMaxDelegation newDelegatorTotal s.config.maxDelegation)
    else if s.config.maxValidatorDelegation < pool.totalAll + amount then
      .error (.exceedsMaxValidatorDelegation (pool.totalAll + amount)
        s.config.maxValidatorDelegation)
    else if !paid then .error .transferFailed
    else
      let pos := { pos with openTier := isOpenTier }.withAmount pool newDelegatorTotal
      .ok (({ s with balance := s.balance + amount }.setPosition v d
        { pos with lastDelegateEpoch := s.currentEpoch }).setPool v
          (pool.withDelegated isOpenTier (pool.delegated isOpenTier + amount)))

def delegate (s : PoolState) (v d amount : Nat) (allowlisted paid : Bool) : PoolM PoolState :=
  s.delegateTier v d amount (s.whitelistEnabled && !s.whitelistVerified d) allowlisted paid

def delegateWithProof (s : PoolState) (v d amount : Nat) (verified allowlisted paid : Bool) :
    PoolM PoolState :=
  if s.whitelistEnabled && !s.whitelistVerified d then
    if !verified then .error (.notWhitelisted d)
    else
      { s with whitelistVerified := update s.whitelistVerified d true }.delegateTier
        v d amount false allowlisted paid
  else s.delegateTier v d amount false allowlisted paid

def requestUndelegation (s : PoolState) (v d amount : Nat) : PoolM PoolState :=
  let pool := s.validatorPools v
  let pos := s.positions v d
  if amount = 0 then .error .zeroAmount
  else if !s.poolRegistered v then .error (.poolNotRegistered v)
  else if pos.undelegateEpoch ≠ 0 then .error (.pendingUndelegationExists pos.undelegateEpoch)
  else
    let pos := settlePosition pool pos s.currentEpoch
    if pos.amount < amount then .error (.insufficientBalance amount pos.amount)
    else do
      let pos := pos.withAmount pool (pos.amount - amount)
      let delegated ← checkedSub (pool.delegated pos.openTier) amount
      return (s.setPosition v d
        { pos with
          undelegateAmount := amount
          undelegateEpoch := s.currentEpoch + s.config.unbondingEpochs }).setPool v
            (pool.withDelegated pos.openTier delegated)

def completeUndelegation (s : PoolState) (v d : Nat) : PoolM PoolState :=
  let pos := s.positions v d
  if pos.undelegateEpoch = 0 then .error .nothingToUndelegate
  else if s.currentEpoch < pos.undelegateEpoch then
    .error (.unbondingNotComplete s.currentEpoch pos.undelegateEpoch)
  else
    (s.setPosition v d { pos with undelegateEpoch := 0, undelegateAmount := 0 }).transfer
      pos.undelegateAmount

def claimDelegationRewards (s : PoolState) (v d : Nat) : PoolM PoolState :=
  if !s.poolRegistered v then .error (.poolNotRegistered v)
  else
    let pos := settlePosition (s.validatorPools v) (s.positions v d) s.currentEpoch
    if pos.pendingRewards = 0 then .error .noPendingRewards
    else (s.setPosition v d { pos with pendingRewards := 0 }).transfer pos.pendingRewards

end PoolState

/-! ### The registry and the distributor -/

def distributeTier (pool : ValidatorPool) (openTier : Bool) (amount : Nat) : PoolM ValidatorPool :=
  if amount = 0 then .ok pool
  else if pool.delegated openTier = 0 then
    .ok { pool with pendingValidatorRewards := pool.pendingValidatorRewards + amount }
  else do
    let commission := amount * pool.commissionBps / maxCommissionBps
    let rewards ← checkedSub amount commission
    let increment := rewards * precision / pool.delegated openTier
    let pool := { pool with pendingValidatorRewards := pool.pendingValidatorRewards + commission }
    return if openTier then
        { pool with openRewardPerShareAccum := pool.openRewardPerShareAccum + increment }
      else { pool with rewardPerShareAccum := pool.rewardPerShareAccum + increment }

def distributePoolRewardsInternal (pool : ValidatorPool) (trackAAmount trackBAmount : Nat) :
    PoolM ValidatorPool :=
  if pool.totalAll = 0 then
    .ok { pool with
      pendingValidatorRewards := pool.pendingValidatorRewards + (trackAAmount + trackBAmount) }
  else do
    let pool ← distributeTier pool false trackAAmount
    distributeTier pool true trackBAmount

namespace PoolState

def distributeTracks (s : PoolState) (v trackAAmount trackBAmount : Nat) : PoolM PoolState :=
  let s := { s with balance := s.balance + (trackAAmount + trackBAmount) }
  if trackAAmount = 0 ∧ trackBAmount = 0 then .ok s
  else if !s.poolRegistered v then .ok s
  else do
    let pool ← distributePoolRewardsInternal (s.validatorPools v) trackAAmount trackBAmount
    return s.setPool v pool

def distributePoolRewards (s : PoolState) (v amount : Nat) : PoolM PoolState :=
  let s := { s with balance := s.balance + amount }
  if amount = 0 then .ok s
  else if !s.poolRegistered v then .ok s
  else
    let pool := s.validatorPools v
    if pool.totalAll = 0 then
      .ok (s.setPool v
        { pool with pendingValidatorRewards := pool.pendingValidatorRewards + amount })
    else do
      let trackAAmount := amount * pool.totalDelegated / pool.totalAll
      let trackBAmount ← checkedSub amount trackAAmount
      let pool ← distributePoolRewardsInternal pool trackAAmount trackBAmount
      return s.setPool v pool

def effectiveSlash (s : PoolState) (v amount : Nat) : Nat :=
  min amount (s.validatorPools v).totalAll

def slashPerShare (s : PoolState) (v amount : Nat) : Nat :=
  s.effectiveSlash v amount * precision / (s.validatorPools v).totalAll

def actualSlash (s : PoolState) (v amount : Nat) : Nat :=
  if s.poolRegistered v then
    s.slashPerShare v amount * (s.validatorPools v).totalAll / precision
  else 0

def applyPoolSlash (s : PoolState) (v amount : Nat) : PoolM PoolState :=
  let pool := s.validatorPools v
  if amount = 0 then .ok s
  else if !s.poolRegistered v then .ok s
  else if pool.totalAll = 0 then .ok s
  else do
    let slashA := s.actualSlash v amount * pool.totalDelegated / pool.totalAll
    let slashB ← checkedSub (s.actualSlash v amount) slashA
    let totalDelegated ← checkedSub pool.totalDelegated slashA
    let openTierDelegated ← checkedSub pool.openTierDelegated slashB
    (s.setPool v
      { pool with
        slashPerShareAccum := pool.slashPerShareAccum + s.slashPerShare v amount
        totalDelegated
        openTierDelegated }).transfer (s.actualSlash v amount)

end PoolState

/-! ### Runs -/

inductive PoolCall where
  | registerPool (v commissionBps : Nat) (allowlisted active : Bool)
  | updateCommission (v newCommissionBps : Nat)
  | activatePendingCommission (v : Nat)
  | cancelPendingCommission (v : Nat)
  | setAcceptingDelegations (v : Nat) (accepting : Bool)
  | claimCommission (v : Nat)
  | delegate (v d amount : Nat) (allowlisted paid : Bool)
  | delegateWithProof (v d amount : Nat) (verified allowlisted paid : Bool)
  | requestUndelegation (v d amount : Nat)
  | completeUndelegation (v d : Nat)
  | claimDelegationRewards (v d : Nat)
  | distributePoolRewards (v amount : Nat)
  | distributeTracks (v trackAAmount trackBAmount : Nat)
  | applyPoolSlash (v amount : Nat)
  | updateConfig (config : DelegationConfig)
  | setWhitelistRoot
  | disableWhitelist
  | concludeEpoch

namespace PoolState

def call (s : PoolState) : PoolCall → PoolM PoolState
  | .registerPool v bps allowlisted active => s.registerPool v bps allowlisted active
  | .updateCommission v bps => s.updateCommission v bps
  | .activatePendingCommission v => s.activatePendingCommission v
  | .cancelPendingCommission v => s.cancelPendingCommission v
  | .setAcceptingDelegations v accepting => s.setAcceptingDelegations v accepting
  | .claimCommission v => s.claimCommission v
  | .delegate v d amount allowlisted paid => s.delegate v d amount allowlisted paid
  | .delegateWithProof v d amount verified allowlisted paid =>
    s.delegateWithProof v d amount verified allowlisted paid
  | .requestUndelegation v d amount => s.requestUndelegation v d amount
  | .completeUndelegation v d => s.completeUndelegation v d
  | .claimDelegationRewards v d => s.claimDelegationRewards v d
  | .distributePoolRewards v amount => s.distributePoolRewards v amount
  | .distributeTracks v trackAAmount trackBAmount => s.distributeTracks v trackAAmount trackBAmount
  | .applyPoolSlash v amount => s.applyPoolSlash v amount
  | .updateConfig config => .ok { s with config }
  | .setWhitelistRoot => .ok { s with whitelistEnabled := true }
  | .disableWhitelist => .ok { s with whitelistEnabled := false }
  | .concludeEpoch => .ok { s with currentEpoch := s.currentEpoch + 1 }

def step (s : PoolState) (c : PoolCall) : PoolState :=
  match s.call c with
  | .ok s' => s'
  | .error _ => s

def run (s : PoolState) (calls : List PoolCall) : PoolState := calls.foldl step s

end PoolState

def smallConfig : DelegationConfig where
  minDelegation := 1
  maxDelegation := 1000
  maxValidatorDelegation := 10000
  unbondingEpochs := 1
  commissionDelayEpochs := 1
  min_pos := by decide
  max_pos := by decide
  max_le := by decide
  unbonding_pos := by decide
  delay_pos := by decide

abbrev smallPool : PoolState := { config := smallConfig }

end DelegationPool

end Axyl
