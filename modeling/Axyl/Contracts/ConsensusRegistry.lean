import Axyl.Lib.Except
import Axyl.Types.Address
import Mathlib.Logic.Function.Basic

/-! The consensus registry contract with its stake manager: validators from stake to retirement,
the committees of the coming epochs, and the stakes the contract holds. -/

namespace Axyl
open Function

namespace ConsensusRegistry

def maxBps : Nat := 10000
def participationBps : Nat := 8000
def anchorBps : Nat := 1000
def stakeBps : Nat := 1000
def weightPrecision : Nat := 1000000000000000000
def stakeTierMin : Nat := 5000000000000000000000000
def stakeTierStep : Nat := 5000000000000000000000000
def stakeTierMaxTiers : Nat := 5
def stakeTierBonusBps : Nat := 200

def pendingEpoch : Nat := 4294967295

/-- `any` is the status of retired validators, and in queries stands for every other one. -/
inductive ValidatorStatus where
  | undefined
  | staked
  | pendingActivation
  | active
  | pendingExit
  | exited
  | any
deriving DecidableEq, Repr

namespace ValidatorStatus

def rank : ValidatorStatus → Nat
  | .undefined => 0
  | .staked => 1
  | .pendingActivation => 2
  | .active => 3
  | .pendingExit => 4
  | .exited => 5
  | .any => 6

def eligible (status : ValidatorStatus) : Bool :=
  status == .active || status == .pendingExit || status == .pendingActivation

def queryMatches (query status : ValidatorStatus) : Bool :=
  query == .any || (if query = .active then status.eligible else status == query)

end ValidatorStatus

structure ValidatorInfo where
  blsPubkey : List UInt8 := []
  validatorAddress : Address := 0
  activationEpoch : Nat := 0
  exitEpoch : Nat := 0
  currentStatus : ValidatorStatus := .undefined
  isRetired : Bool := false
  isDelegated : Bool := false
  stakeVersion : Nat := 0
deriving DecidableEq, Repr

structure EpochInfo where
  committee : List Address := []
  epochDuration : Nat := 0
  stakeVersion : Nat := 0
deriving DecidableEq, Repr

structure StakeConfig where
  stakeAmount : Nat := 0
  minWithdrawAmount : Nat := 0
  epochDuration : Nat := 0
deriving DecidableEq, Repr

/-- The hash of the key is the key itself here, and zero is no delegator. -/
structure Delegation where
  blsPubkey : List UInt8 := []
  delegator : Address := 0
  validatorVersion : Nat := 0
  nonce : Nat := 0
deriving DecidableEq, Repr

structure PerformanceWeights where
  validators : List Address := []
  weights : List Nat := []
  totalWeight : Nat := 0
deriving DecidableEq, Repr

structure ProofOfPossession where
  uncompressedPubkey : List UInt8
  uncompressedSignature : List UInt8
deriving DecidableEq, Repr

/-- Whether the bytes are a point of the group, and the pairing check of a signature over the
message made of the key and an address. -/
structure Bls where
  validatePointG2 : List UInt8 → Bool
  verify : ProofOfPossession → Address → Bool

/-- `transferFailed` is the revert of the token and `poolReverted` that of the pool. -/
inductive RegistryError where
  | enforcedPause
  | unauthorizedAccount (caller : Address)
  | invalidBLSPubkey
  | invalidUncompressedBLSPubkey
  | invalidBLSProof
  | invalidProofOfPossession (proof : ProofOfPossession)
  | notAllowlisted (validator : Address)
  | notValidator (validator : Address)
  | duplicateBLSPubkey
  | invalidStatus (status : ValidatorStatus)
  | invalidStakeAmount (stakeAmount requiredAmount : Nat)
  | invalidEpoch (epoch : Nat)
  | invalidDuration (duration : Nat)
  | invalidCommitteeSize (minCommitteeSize providedCommitteeSize : Nat)
  | committeeRequirement (validator : Address)
  | validatorNotFound (validator : Address)
  | notRecipient (recipient : Address)
  | ineligibleUnstake (validator : ValidatorInfo)
  | invalidValidatorSupply
  | insufficientRewards (rewards : Nat)
  | ownableInvalidOwner (owner : Address)
  | genesisArityMismatch
  | invalidValidatorAddress
  | zeroAmount
  | insufficientSlashedFunds
  | invalidParticipationFloor (floorBps : Nat)
  | transferFailed
  | poolReverted
  | arithmeticPanic
deriving DecidableEq, Repr

abbrev RegistryM := Except RegistryError

instance epochRingNeZero : NeZero 4 := ⟨Nat.succ_ne_zero 3⟩

/-- The storage of the contract and its balance of the token. -/
structure Registry where
  currentEpoch : Nat := 0
  epochPointer : Fin 4 := 0
  epochInfo : Fin 4 → EpochInfo := fun _ => {}
  futureEpochInfo : Fin 4 → EpochInfo := fun _ => {}
  validators : Address → ValidatorInfo := fun _ => {}
  usedBLSPubkeys : List UInt8 → Bool := fun _ => false
  slashedFunds : Nat := 0
  validatorAllowlist : Address → Bool := fun _ => false
  performanceWeights : PerformanceWeights := {}
  participationFloorBps : Nat := 0
  stakeVersion : Nat := 0
  validatorsAddresses : List Address := []
  validatorIndex : Address → Nat := fun _ => 0
  versions : Nat → StakeConfig := fun _ => {}
  balances : Address → Nat := fun _ => 0
  delegations : Address → Delegation := fun _ => {}
  hasPool : Bool := false
  owner : Address := 0
  paused : Bool := false
  rlsBalance : Nat := 0

/-! ### The stake manager -/

namespace Registry

def setValidator (s : Registry) (a : Address) (v : ValidatorInfo) : Registry :=
  { s with validators := update s.validators a v }

def setBalance (s : Registry) (a : Address) (balance : Nat) : Registry :=
  { s with balances := update s.balances a balance }

def transfer (s : Registry) (amount : Nat) : RegistryM Registry :=
  if amount ≤ s.rlsBalance then .ok { s with rlsBalance := s.rlsBalance - amount }
  else .error .transferFailed

def receive (s : Registry) (amount : Nat) (paid : Bool) : RegistryM Registry :=
  if paid then .ok { s with rlsBalance := s.rlsBalance + amount } else .error .transferFailed

def addValidator (s : Registry) (a : Address) : Registry :=
  { s with
    validatorsAddresses := s.validatorsAddresses ++ [a]
    validatorIndex := update s.validatorIndex a (s.validatorsAddresses.length + 1) }

def removeValidator (s : Registry) (a : Address) : RegistryM Registry :=
  let index := s.validatorIndex a
  if index = 0 then .error (.validatorNotFound a)
  else
    let lastIndex := s.validatorsAddresses.length
    let last := s.validatorsAddresses.getD (lastIndex - 1) 0
    let swapped :=
      if index ≠ lastIndex then
        { s with
          validatorsAddresses := s.validatorsAddresses.set (index - 1) last
          validatorIndex := update s.validatorIndex last index }
      else s
    .ok { swapped with
      validatorsAddresses := swapped.validatorsAddresses.dropLast
      validatorIndex := update swapped.validatorIndex a 0 }

def recordStake (s : Registry) (a : Address) (stakeAmt : Nat) : Registry :=
  (s.setBalance a stakeAmt).addValidator a

def rewardsOver (s : Registry) (a : Address) (initialStake : Nat) : Nat :=
  if initialStake < s.balances a then s.balances a - initialStake else 0

def initialStake (s : Registry) (a : Address) : Nat :=
  (s.versions (s.validators a).stakeVersion).stakeAmount

def getBalanceBreakdown (s : Registry) (a : Address) : Nat × Nat × Nat :=
  (s.balances a, s.initialStake a, s.rewardsOver a (s.initialStake a))

def getRecipient (s : Registry) (a : Address) : Address :=
  if (s.delegations a).delegator = 0 then a else (s.delegations a).delegator

def payUnstake (s : Registry) (a : Address) : RegistryM (Nat × Registry) :=
  if s.validatorsAddresses.length ≤ 1 then .error .invalidValidatorSupply
  else do
    let s ← s.removeValidator a
    let (bal, stakeAmt, rewards) := s.getBalanceBreakdown a
    if bal = 0 then return (0, s)
    else
      let s := s.setBalance a 0
      let unstakeAmt := if stakeAmt ≤ bal then stakeAmt else bal
      let totalPayout := unstakeAmt + rewards
      if 0 < totalPayout then
        let s ← s.transfer totalPayout
        return (totalPayout, s)
      else return (totalPayout, s)

def checkRewards (s : Registry) (a : Address) (version : Nat) : RegistryM Nat :=
  let rewards := s.rewardsOver a (s.versions version).stakeAmount
  if rewards = 0 ∨ rewards < (s.versions version).minWithdrawAmount then
    .error (.insufficientRewards rewards)
  else .ok rewards

def checkStakeValue (s : Registry) (value version : Nat) : RegistryM Nat :=
  if value ≠ (s.versions version).stakeAmount then
    .error (.invalidStakeAmount value (s.versions version).stakeAmount)
  else .ok value

/-! ### Views -/

def getCurrentEpochInfo (s : Registry) : EpochInfo := s.epochInfo s.epochPointer

def getValidators (s : Registry) (status : ValidatorStatus) : List ValidatorInfo :=
  (s.validatorsAddresses.map s.validators).filter fun v =>
    !v.isRetired && status.queryMatches v.currentStatus

def isRetired (s : Registry) (a : Address) : Bool :=
  if (s.validators a).currentStatus = .undefined then false else (s.validators a).isRetired

def checkCommitteeSize (activeOrPending committeeSize : Nat) : RegistryM Unit :=
  if activeOrPending = 0 ∨ committeeSize = 0 ∨ activeOrPending < committeeSize then
    .error (.invalidCommitteeSize activeOrPending committeeSize)
  else .ok ()

def checkValidatorStatus (s : Registry) (a : Address) (required : ValidatorStatus) :
    RegistryM Unit :=
  if (s.validators a).currentStatus ≠ required then
    .error (.invalidStatus (s.validators a).currentStatus)
  else .ok ()

def enforceSorting : List Address → RegistryM Unit
  | a :: b :: rest =>
    if b ≤ a then .error (.committeeRequirement a) else enforceSorting (b :: rest)
  | _ => .ok ()

def eligibleForUnstake (s : Registry) (v : ValidatorInfo) : Bool :=
  v.currentStatus == .staked ||
    (v.currentStatus == .exited && decide (v.exitEpoch + 1 ≤ s.currentEpoch))

def whenNotPaused (s : Registry) : RegistryM Unit :=
  if s.paused then .error .enforcedPause else .ok ()

def onlyOwner (s : Registry) (caller : Address) : RegistryM Unit :=
  if caller ≠ s.owner then .error (.unauthorizedAccount caller) else .ok ()

end Registry

/-! ### Proofs of possession -/

/-- The check of a proof that `stake`, `delegateStake` and the constructor make, up to the error
of the last step. The compressed key beside it is not looked at. -/
def checkPossession (bls : Bls) (proof : ProofOfPossession) (a : Address) (e : RegistryError) :
    RegistryM Unit :=
  if proof.uncompressedPubkey.length ≠ 192 then .error .invalidUncompressedBLSPubkey
  else if !bls.validatePointG2 proof.uncompressedPubkey then .error .invalidBLSPubkey
  else if proof.uncompressedSignature.length ≠ 96 then .error .invalidBLSProof
  else if !bls.verify proof a then .error e
  else .ok ()

def checkPubkeyLength (blsPubkey : List UInt8) : RegistryM Unit :=
  if blsPubkey.length ≠ 96 then .error .invalidBLSPubkey else .ok ()

namespace Registry

def checkAllowlisted (s : Registry) (a : Address) : RegistryM Unit :=
  if !s.validatorAllowlist a then .error (.notAllowlisted a) else .ok ()

/-! ### Validators -/

def recordStaked (s : Registry) (blsPubkey : List UInt8) (a : Address) (isDelegated : Bool)
    (stakeVersion stakeAmt : Nat) : RegistryM Registry :=
  if s.usedBLSPubkeys blsPubkey then .error .duplicateBLSPubkey
  else
    .ok (({ s with usedBLSPubkeys := update s.usedBLSPubkeys blsPubkey true }.setValidator a
      { blsPubkey
        validatorAddress := a
        activationEpoch := pendingEpoch
        exitEpoch := 0
        currentStatus := .staked
        isRetired := false
        isDelegated
        stakeVersion }).recordStake a stakeAmt)

def stake (s : Registry) (bls : Bls) (caller : Address) (blsPubkey : List UInt8)
    (proof : ProofOfPossession) (paid : Bool) : RegistryM Registry := do
  s.whenNotPaused
  checkPubkeyLength blsPubkey
  s.checkAllowlisted caller
  checkPossession bls proof caller (.invalidProofOfPossession proof)
  let version := s.getCurrentEpochInfo.stakeVersion
  let stakeAmt ← s.checkStakeValue (s.versions version).stakeAmount version
  s.checkValidatorStatus caller .undefined
  let s ← s.receive stakeAmt paid
  s.recordStaked blsPubkey caller false version stakeAmt

def delegateStake (s : Registry) (bls : Bls) (caller : Address) (blsPubkey : List UInt8)
    (proof : ProofOfPossession) (a : Address) (signed paid : Bool) : RegistryM Registry := do
  s.whenNotPaused
  checkPubkeyLength blsPubkey
  checkPossession bls proof a (.invalidProofOfPossession proof)
  let version := s.getCurrentEpochInfo.stakeVersion
  let stakeAmt ← s.checkStakeValue (s.versions version).stakeAmount version
  s.checkValidatorStatus a .undefined
  s.checkAllowlisted a
  if caller ≠ s.owner ∧ signed = false then .error (.notValidator a)
  else
    let s ← s.receive stakeAmt paid
    let delegation : Delegation := ⟨blsPubkey, caller, version, (s.delegations a).nonce + 1⟩
    let s := { s with delegations := update s.delegations a delegation }
    s.recordStaked blsPubkey a true version stakeAmt

/-- The next epoch number is a `uint32`. -/
def checkNextEpoch (s : Registry) : RegistryM Unit :=
  if s.currentEpoch + 1 < 2 ^ 32 then .ok () else .error .arithmeticPanic

def activate (s : Registry) (caller : Address) : RegistryM Registry := do
  s.whenNotPaused
  s.checkValidatorStatus caller .staked
  s.checkNextEpoch
  return s.setValidator caller
    { s.validators caller with
      activationEpoch := s.currentEpoch + 1
      currentStatus := .pendingActivation }

def checkIndexed (s : Registry) (a : Address) : RegistryM Unit :=
  if s.validatorIndex a = 0 then .error (.validatorNotFound a) else .ok ()

def checkRecipient (s : Registry) (caller a : Address) : RegistryM Unit :=
  if caller ≠ a ∧ caller ≠ s.getRecipient a then .error (.notRecipient (s.getRecipient a))
  else .ok ()

def claimStakeRewards (s : Registry) (caller a : Address) : RegistryM (Nat × Registry) := do
  s.whenNotPaused
  s.checkIndexed a
  s.checkRecipient caller a
  let rewards ← s.checkRewards a (s.validators a).stakeVersion
  let s ← (s.setBalance a (s.balances a - rewards)).transfer rewards
  return (rewards, s)

def numStrictlyActive (s : Registry) : Nat :=
  (s.getValidators .active).length - (s.getValidators .pendingExit).length

def beginExit (s : Registry) (caller : Address) : RegistryM Registry := do
  s.whenNotPaused
  s.checkIndexed caller
  let committeeSize := s.getCurrentEpochInfo.committee.length
  if s.numStrictlyActive ≤ 1 then
    .error (.invalidCommitteeSize s.numStrictlyActive committeeSize)
  else
    checkCommitteeSize (s.getValidators .active).length committeeSize
    s.checkValidatorStatus caller .active
    if s.currentEpoch < (s.validators caller).activationEpoch then
      .error (.invalidEpoch s.currentEpoch)
    else
      return s.setValidator caller
        { s.validators caller with currentStatus := .pendingExit, exitEpoch := pendingEpoch }

def retire (s : Registry) (a : Address) : Registry :=
  s.setValidator a { s.validators a with currentStatus := .any, isRetired := true }

def exit (s : Registry) (a : Address) (epoch : Nat) : Registry :=
  s.setValidator a { s.validators a with currentStatus := .exited, exitEpoch := epoch }

def unstake (s : Registry) (caller a : Address) : RegistryM (Nat × Registry) := do
  s.whenNotPaused
  s.checkRecipient caller a
  if !s.eligibleForUnstake (s.validators a) then .error (.ineligibleUnstake (s.validators a))
  else (s.retire a).payUnstake a

def withdrawSlashedFunds (s : Registry) (caller : Address) (amount : Nat) : RegistryM Registry := do
  s.onlyOwner caller
  if amount = 0 then .error .zeroAmount
  else if s.slashedFunds < amount then .error .insufficientSlashedFunds
  else ({ s with slashedFunds := s.slashedFunds - amount } : Registry).transfer amount

/-! ### Slashes -/

def ejected (info : EpochInfo) (a : Address) : EpochInfo :=
  { info with committee := info.committee.erase a }

def ejectCurrent (s : Registry) (a : Address) : Registry :=
  let info := ejected (s.epochInfo s.epochPointer) a
  { s with epochInfo := update s.epochInfo s.epochPointer info }

def ejectFuture (s : Registry) (p : Fin 4) (a : Address) : Registry :=
  let info := ejected (s.futureEpochInfo p) a
  { s with futureEpochInfo := update s.futureEpochInfo p info }

def ejectFromCommittees (s : Registry) (a : Address) (numEligible : Nat) : RegistryM Registry := do
  let p := s.epochPointer
  let s := s.ejectCurrent a
  checkCommitteeSize numEligible (s.epochInfo p).committee.length
  let s := s.ejectFuture (p + 1) a
  checkCommitteeSize numEligible (s.futureEpochInfo (p + 1)).committee.length
  let s := s.ejectFuture (p + 2) a
  checkCommitteeSize numEligible (s.futureEpochInfo (p + 2)).committee.length
  return s

def consensusBurn (s : Registry) (a : Address) : RegistryM Registry := do
  let numActive := (s.getValidators .active).length
  let numEligible := if (s.validators a).currentStatus.eligible then numActive - 1 else numActive
  let s ← s.ejectFromCommittees a numEligible
  let s := s.setBalance a 0
  let (_, s) ← ((s.exit a s.currentEpoch).retire a).payUnstake a
  return s

structure Slash where
  validatorAddress : Address
  amount : Nat
deriving DecidableEq, Repr

/-- What the pool answers while a slash is applied: the stake delegated to the validator, and the
amount it takes from it and sends, where it does not revert. -/
structure PoolAnswer where
  totalDelegated : Nat
  slashed : Option Nat
deriving DecidableEq, Repr

def validatorSlash (s : Registry) (slash : Slash) (pool : PoolAnswer) : Nat :=
  let balance := s.balances slash.validatorAddress
  if s.hasPool && decide (0 < pool.totalDelegated) then
    let totalStake := balance + pool.totalDelegated
    min ((slash.amount * balance + totalStake - 1) / totalStake) slash.amount
  else slash.amount

def poolSlash (s : Registry) (slash : Slash) (pool : PoolAnswer) : Nat :=
  slash.amount - s.validatorSlash slash pool

def takePoolSlash (s : Registry) (amount : Nat) (pool : PoolAnswer) : RegistryM Registry :=
  if amount = 0 then .ok s
  else
    match pool.slashed with
    | none => .error .poolReverted
    | some slashed =>
      .ok { s with
        slashedFunds := s.slashedFunds + slashed
        rlsBalance := s.rlsBalance + slashed }

def applySlash (s : Registry) (slash : Slash) (pool : PoolAnswer) : RegistryM Registry :=
  let a := slash.validatorAddress
  if s.isRetired a then .ok s
  else
    let validatorSlash := s.validatorSlash slash pool
    let poolSlash := s.poolSlash slash pool
    if validatorSlash < s.balances a then
      (s.setBalance a (s.balances a - validatorSlash)).takePoolSlash poolSlash pool
    else do
      let s ← s.takePoolSlash poolSlash pool
      s.consensusBurn a

def applySlashes (s : Registry) : List (Slash × PoolAnswer) → RegistryM Registry
  | [] => .ok s
  | (slash, pool) :: rest => do
    let s ← s.applySlash slash pool
    s.applySlashes rest

/-! ### Epochs -/

def updateEpochInfo (s : Registry) (futureCommittee : List Address) : Registry :=
  let p := s.epochPointer + 1
  { s with
    epochInfo := update s.epochInfo p
      { committee := (s.futureEpochInfo p).committee
        epochDuration := (s.versions s.stakeVersion).epochDuration
        stakeVersion := s.stakeVersion }
    epochPointer := p
    currentEpoch := s.currentEpoch + 1
    futureEpochInfo := update s.futureEpochInfo (p + 2)
      { s.futureEpochInfo (p + 2) with committee := futureCommittee } }

def activateQueued (s : Registry) (v : ValidatorInfo) : Registry :=
  s.setValidator v.validatorAddress
    { s.validators v.validatorAddress with currentStatus := .active }

def exitQueued (futureCommittee : List Address) (s : Registry) (v : ValidatorInfo) : Registry :=
  let a := v.validatorAddress
  if a ∈ (s.epochInfo s.epochPointer).committee ∨
      a ∈ (s.futureEpochInfo (s.epochPointer + 1)).committee ∨ a ∈ futureCommittee then s
  else s.exit a s.currentEpoch

def updateValidatorQueue (s : Registry) (futureCommittee : List Address) : Registry :=
  let s := (s.getValidators .pendingActivation).foldl activateQueued s
  (s.getValidators .pendingExit).foldl (exitQueued futureCommittee) s

def concludeEpoch (s : Registry) (futureCommittee : List Address) : RegistryM Registry := do
  enforceSorting futureCommittee
  s.checkNextEpoch
  let s := (s.updateEpochInfo futureCommittee).updateValidatorQueue futureCommittee
  checkCommitteeSize (s.getValidators .active).length futureCommittee.length
  return s

/-! ### Incentives -/

def stakeTierWeightOf (s : Registry) (a : Address) (delegated : Nat) : Nat :=
  let totalStake := s.initialStake a + (if s.hasPool then delegated else 0)
  if totalStake ≤ stakeTierMin then maxBps
  else
    let maxStake := stakeTierMin + stakeTierStep * stakeTierMaxTiers
    let totalStake := if maxStake < totalStake then maxStake else totalStake
    maxBps + (totalStake - stakeTierMin) / stakeTierStep * stakeTierBonusBps

end Registry

structure RewardInfo where
  validatorAddress : Address
  participationRounds : Nat
  anchorRounds : Nat
deriving DecidableEq, Repr

namespace Registry

/-- What the first pass of `applyIncentives` skips: validators that are retired, took no part in
a round or are below the floor. -/
def excluded (s : Registry) (totalRounds : Nat) (r : RewardInfo) : Bool :=
  s.isRetired r.validatorAddress || r.participationRounds == 0 ||
    (decide (0 < s.participationFloorBps) && decide (0 < totalRounds) &&
      decide (r.participationRounds * maxBps / totalRounds < s.participationFloorBps))

def blendedWeight (r : RewardInfo) (stakeWeight totalParticipation totalRounds
    totalStakeWeight : Nat) : Nat :=
  (if 0 < totalParticipation then
    participationBps * weightPrecision * r.participationRounds / totalParticipation else 0) +
  (if 0 < totalRounds then anchorBps * weightPrecision * r.anchorRounds / totalRounds else 0) +
  stakeBps * weightPrecision * stakeWeight / totalStakeWeight

/-- The stake weight of a validator that is not skipped is never zero, so that the list of these
is what both passes of the source work on. -/
def applyIncentives (s : Registry) (rewardInfos : List RewardInfo) (totalRounds : Nat)
    (delegated : Address → Nat) : Registry :=
  let infos := rewardInfos.filter fun r => !s.excluded totalRounds r
  let stakeWeight (r : RewardInfo) : Nat :=
    s.stakeTierWeightOf r.validatorAddress (delegated r.validatorAddress)
  let totalParticipation := (infos.map fun r => r.participationRounds).sum
  let totalStakeWeight := (infos.map stakeWeight).sum
  let weighted := (infos.map fun r => (r.validatorAddress,
    blendedWeight r (stakeWeight r) totalParticipation totalRounds totalStakeWeight)).filter
      fun w => w.2 ≠ 0
  let totalWeight := (weighted.map Prod.snd).sum
  if infos.length = 0 ∨ totalWeight = 0 then { s with performanceWeights := {} }
  else
    { s with performanceWeights := ⟨weighted.map Prod.fst, weighted.map Prod.snd, totalWeight⟩ }

def setParticipationFloorBps (s : Registry) (caller : Address) (newFloorBps : Nat) :
    RegistryM Registry := do
  s.onlyOwner caller
  if maxBps < newFloorBps then .error (.invalidParticipationFloor newFloorBps)
  else return { s with participationFloorBps := newFloorBps }

/-! ### Configuration -/

def upgradeStakeVersion (s : Registry) (caller : Address) (config : StakeConfig) :
    RegistryM Registry := do
  s.onlyOwner caller
  s.whenNotPaused
  if config.epochDuration = 0 then .error (.invalidDuration config.epochDuration)
  else
    return { s with
      stakeVersion := s.stakeVersion + 1
      versions := update s.versions (s.stakeVersion + 1) config }

def setAllowlisted (s : Registry) (caller a : Address) (allowed : Bool) : RegistryM Registry := do
  s.onlyOwner caller
  if allowed ∧ a = 0 then .error .invalidValidatorAddress
  else return { s with validatorAllowlist := update s.validatorAllowlist a allowed }

def setDelegationPool (s : Registry) (caller : Address) (hasPool : Bool) : RegistryM Registry := do
  s.onlyOwner caller
  return { s with hasPool }

def setPaused (s : Registry) (caller : Address) (paused : Bool) : RegistryM Registry := do
  s.onlyOwner caller
  return { s with paused }

/-! ### The constructor -/

def checkInitial (bls : Bls) (v : ValidatorInfo) (proof : ProofOfPossession) : RegistryM Unit := do
  checkPossession bls proof v.validatorAddress .invalidBLSPubkey
  if v.validatorAddress = 0 then .error .invalidValidatorAddress
  else if v.activationEpoch ≠ 0 then .error (.invalidEpoch v.activationEpoch)
  else if v.exitEpoch ≠ 0 then .error (.invalidEpoch v.exitEpoch)
  else if v.currentStatus ≠ .active then .error (.invalidStatus v.currentStatus)
  else if v.isRetired then .error (.invalidStatus .exited)
  else if v.stakeVersion ≠ 0 then .error (.invalidStakeAmount v.stakeVersion 0)
  else .ok ()

def pushMember (a : Address) (info : EpochInfo) : EpochInfo :=
  { info with committee := info.committee ++ [a] }

def pushMembers (ring : Fin 4 → EpochInfo) (a : Address) : Fin 4 → EpochInfo :=
  fun j => if j = 3 then ring j else pushMember a (ring j)

def addInitial (s : Registry) (v : ValidatorInfo) (stakeAmount : Nat) : Registry :=
  let a := v.validatorAddress
  let delegations :=
    if v.isDelegated then
      update s.delegations a ⟨v.blsPubkey, s.owner, 0, 1⟩
    else s.delegations
  ({ s with
      delegations
      epochInfo := pushMembers s.epochInfo a
      futureEpochInfo := pushMembers s.futureEpochInfo a
      validatorAllowlist := update s.validatorAllowlist a true }.setValidator
    a v).recordStake a stakeAmount

def addInitials (bls : Bls) (stakeAmount : Nat) (s : Registry) :
    List (ValidatorInfo × ProofOfPossession) → RegistryM Registry
  | [] => .ok s
  | (v, proof) :: rest => do
    checkInitial bls v proof
    addInitials bls stakeAmount (s.addInitial v stakeAmount) rest

def blank (genesisConfig : StakeConfig) (owner : Address) (rlsBalance : Nat) : Registry where
  versions := update (fun _ => {}) 0 genesisConfig
  epochInfo j := if j = 3 then {} else { epochDuration := genesisConfig.epochDuration }
  owner
  rlsBalance

def construct (bls : Bls) (genesisConfig : StakeConfig) (initialValidators : List ValidatorInfo)
    (proofs : List ProofOfPossession) (owner : Address) (rlsBalance : Nat) : RegistryM Registry :=
  if owner = 0 then .error (.ownableInvalidOwner owner)
  else if initialValidators.length = 0 ∨ initialValidators.length ≠ proofs.length then
    .error .genesisArityMismatch
  else
    addInitials bls genesisConfig.stakeAmount (blank genesisConfig owner rlsBalance)
      (initialValidators.zip proofs)

end Registry

/-! ### Runs -/

inductive RegistryCall where
  | stake (caller : Address) (blsPubkey : List UInt8) (proof : ProofOfPossession) (paid : Bool)
  | delegateStake (caller : Address) (blsPubkey : List UInt8) (proof : ProofOfPossession)
      (a : Address) (signed paid : Bool)
  | activate (caller : Address)
  | claimStakeRewards (caller a : Address)
  | beginExit (caller : Address)
  | unstake (caller a : Address)
  | withdrawSlashedFunds (caller : Address) (amount : Nat)
  | applySlashes (slashes : List (Registry.Slash × Registry.PoolAnswer))
  | applyIncentives (rewardInfos : List RewardInfo) (totalRounds : Nat)
      (delegated : Address → Nat)
  | concludeEpoch (futureCommittee : List Address)
  | setParticipationFloorBps (caller : Address) (newFloorBps : Nat)
  | upgradeStakeVersion (caller : Address) (config : StakeConfig)
  | setAllowlisted (caller a : Address) (allowed : Bool)
  | setDelegationPool (caller : Address) (hasPool : Bool)
  | setPaused (caller : Address) (paused : Bool)

namespace Registry

def call (s : Registry) (bls : Bls) : RegistryCall → RegistryM Registry
  | .stake caller blsPubkey proof paid => s.stake bls caller blsPubkey proof paid
  | .delegateStake caller blsPubkey proof a signed paid =>
    s.delegateStake bls caller blsPubkey proof a signed paid
  | .activate caller => s.activate caller
  | .claimStakeRewards caller a => (s.claimStakeRewards caller a).map Prod.snd
  | .beginExit caller => s.beginExit caller
  | .unstake caller a => (s.unstake caller a).map Prod.snd
  | .withdrawSlashedFunds caller amount => s.withdrawSlashedFunds caller amount
  | .applySlashes slashes => s.applySlashes slashes
  | .applyIncentives rewardInfos totalRounds delegated =>
    .ok (s.applyIncentives rewardInfos totalRounds delegated)
  | .concludeEpoch futureCommittee => s.concludeEpoch futureCommittee
  | .setParticipationFloorBps caller floorBps => s.setParticipationFloorBps caller floorBps
  | .upgradeStakeVersion caller config => s.upgradeStakeVersion caller config
  | .setAllowlisted caller a allowed => s.setAllowlisted caller a allowed
  | .setDelegationPool caller hasPool => s.setDelegationPool caller hasPool
  | .setPaused caller paused => s.setPaused caller paused

def step (s : Registry) (bls : Bls) (c : RegistryCall) : Registry :=
  match s.call bls c with
  | .ok s' => s'
  | .error _ => s

def run (s : Registry) (bls : Bls) (calls : List RegistryCall) : Registry :=
  calls.foldl (fun s c => s.step bls c) s

end Registry

/-! ### A small network -/

def pointOf (a : Address) : List UInt8 := List.replicate 192 (UInt8.ofNat a.val)

def ownBls : Bls := ⟨fun _ => true, fun proof a => proof.uncompressedPubkey == pointOf a⟩

def proofOf (a : Address) : ProofOfPossession := ⟨pointOf a, List.replicate 96 0⟩

def someKey (n : UInt8) : List UInt8 := List.replicate 96 n

def initialValidator (a : Address) (n : UInt8) : ValidatorInfo where
  blsPubkey := someKey n
  validatorAddress := a
  currentStatus := .active

def smallStake : StakeConfig where
  stakeAmount := 10
  minWithdrawAmount := 1
  epochDuration := 1

def smallGenesis (initialValidators : List ValidatorInfo) : Registry :=
  match Registry.construct ownBls smallStake initialValidators
      (initialValidators.map fun v => proofOf v.validatorAddress) 9
      (initialValidators.length * 10) with
  | .ok s => s
  | .error _ => {}

theorem construct_smallGenesis {inits : List ValidatorInfo}
    (h : Fallible.failure (Registry.construct ownBls smallStake inits
      (inits.map fun v => proofOf v.validatorAddress) 9
      (inits.length * 10)) = none) :
    Registry.construct ownBls smallStake inits
      (inits.map fun v => proofOf v.validatorAddress) 9
      (inits.length * 10) = .ok (smallGenesis inits) := by
  obtain ⟨genesis, hgen⟩ := Fallible.exists_of_failure h
  unfold smallGenesis
  rw [hgen]

def twoInitial : List ValidatorInfo := [initialValidator 1 1, initialValidator 2 2]

end ConsensusRegistry

end Axyl
