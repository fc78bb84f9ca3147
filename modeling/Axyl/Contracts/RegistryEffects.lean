import Axyl.Contracts.ConsensusRegistry
import Mathlib.Data.List.Chain

/-! What a call of the consensus registry does when it does not revert. -/

namespace Axyl
open Function List

namespace ConsensusRegistry
open Fallible (bind_eq_ok guard_eq_ok ite_error_eq_ok)

namespace Registry
variable {s s' : Registry} {bls : Bls} {a caller : Address} {u : Unit} {version amount : Nat}

/-! ### Checks -/

@[simp] theorem checkCommitteeSize_eq_ok {n k : Nat} :
    checkCommitteeSize n k = .ok u ↔ k ≠ 0 ∧ k ≤ n := by
  rw [checkCommitteeSize, guard_eq_ok]
  omega

@[simp] theorem checkValidatorStatus_eq_ok {status : ValidatorStatus} :
    s.checkValidatorStatus a status = .ok u ↔ (s.validators a).currentStatus = status :=
  guard_eq_ok.trans not_not

@[simp] theorem checkIndexed_eq_ok : s.checkIndexed a = .ok u ↔ s.validatorIndex a ≠ 0 :=
  guard_eq_ok

theorem checkNextEpoch_eq_ok : s.checkNextEpoch = .ok u ↔ s.currentEpoch + 1 < 2 ^ 32 := by
  unfold checkNextEpoch
  split <;> simp_all

variable {proof : ProofOfPossession}

theorem checkPossession_of_ok {e : RegistryError} (h : checkPossession bls proof a e = .ok u) :
    bls.verify proof a = true := by
  unfold checkPossession at h
  simp only [ite_error_eq_ok] at h
  simpa using h.2.2.2.1

@[simp] theorem checkStakeValue_eq_ok :
    s.checkStakeValue (s.versions version).stakeAmount version = .ok amount ↔
      amount = (s.versions version).stakeAmount := by
  unfold checkStakeValue
  simp [eq_comm]

@[simp] theorem transfer_eq_ok : s.transfer amount = .ok s' ↔
      amount ≤ s.rlsBalance ∧ s' = { s with rlsBalance := s.rlsBalance - amount } := by
  unfold transfer
  split <;> simp_all [eq_comm]

variable {paid : Bool}

@[simp] theorem receive_eq_ok : s.receive amount paid = .ok s' ↔
      paid = true ∧ s' = { s with rlsBalance := s.rlsBalance + amount } := by
  unfold receive
  split <;> simp_all [eq_comm]

/-! ### Removal and payment -/

def withoutValidator (s : Registry) (a : Address) : Registry :=
  let last := s.validatorsAddresses.getD (s.validatorsAddresses.length - 1) 0
  let swapped :=
    if s.validatorIndex a ≠ s.validatorsAddresses.length then
      { s with
        validatorsAddresses := s.validatorsAddresses.set (s.validatorIndex a - 1) last
        validatorIndex := update s.validatorIndex last (s.validatorIndex a) }
    else s
  { swapped with
    validatorsAddresses := swapped.validatorsAddresses.dropLast
    validatorIndex := update swapped.validatorIndex a 0 }

theorem removeValidator_eq (s : Registry) (a : Address) : s.removeValidator a =
      if s.validatorIndex a = 0 then .error (.validatorNotFound a)
      else .ok (s.withoutValidator a) := rfl

theorem withoutValidator_eq (s : Registry) (a : Address) : s.withoutValidator a = { s with
        validatorsAddresses := (s.withoutValidator a).validatorsAddresses
        validatorIndex := (s.withoutValidator a).validatorIndex } := by
  unfold withoutValidator
  split <;> rfl

def paidOut (s : Registry) (a : Address) : Registry :=
  { s.withoutValidator a with
    balances := update s.balances a 0
    rlsBalance := s.rlsBalance - s.balances a }

theorem unstakeAmt_add_rewards (s : Registry) (a : Address) (stakeAmt : Nat) :
    (if stakeAmt ≤ s.balances a then stakeAmt else s.balances a) + s.rewardsOver a stakeAmt =
      s.balances a := by
  unfold rewardsOver
  split
  · split
    · omega
    · omega
  · split
    · omega
    · omega

theorem payUnstake_eq (s : Registry) (a : Address) : s.payUnstake a =
      if s.validatorsAddresses.length ≤ 1 then .error .invalidValidatorSupply
      else if s.validatorIndex a = 0 then .error (.validatorNotFound a)
      else if s.balances a ≤ s.rlsBalance then .ok (s.balances a, s.paidOut a)
      else .error .transferFailed := by
  have hbal : (s.withoutValidator a).balances = s.balances := by rw [withoutValidator_eq]
  have hrls : (s.withoutValidator a).rlsBalance = s.rlsBalance := by rw [withoutValidator_eq]
  have hpay := unstakeAmt_add_rewards (s.withoutValidator a) a
    ((s.withoutValidator a).initialStake a)
  unfold payUnstake
  refine if_congr Iff.rfl rfl ?_
  rw [removeValidator_eq]
  split
  · rfl
  unfold getBalanceBreakdown
  dsimp only [bind, Except.bind]
  rw [hpay, hbal]
  split
  next hzero =>
    have hupd : update s.balances a 0 = s.balances := by
      rw [← hzero, update_eq_self]
    unfold paidOut
    rw [hupd, hzero, if_pos (Nat.zero_le _), Nat.sub_zero, withoutValidator_eq]
    rfl
  next hpos =>
    rw [if_pos (by omega)]
    unfold transfer paidOut setBalance
    simp only [hbal, hrls]
    by_cases hfun : s.balances a ≤ s.rlsBalance
    · simp only [if_pos hfun]
      rfl
    · simp only [if_neg hfun]

theorem payUnstake_of_ok (h : s.payUnstake a = .ok (amount, s')) :
    1 < s.validatorsAddresses.length ∧ s.validatorIndex a ≠ 0 ∧ amount = s.balances a ∧
      s.balances a ≤ s.rlsBalance ∧ s' = s.paidOut a := by
  rw [payUnstake_eq] at h
  obtain ⟨hlen, h⟩ := ite_error_eq_ok.mp h
  obtain ⟨hidx, h⟩ := ite_error_eq_ok.mp h
  split at h
  next hfun =>
    cases h
    exact ⟨by omega, hidx, rfl, hfun, rfl⟩
  · cases h

/-! ### Committees -/

def currentCommittee (s : Registry) : List Address := (s.epochInfo s.epochPointer).committee

def nextCommittee (s : Registry) : List Address :=
  (s.futureEpochInfo (s.epochPointer + 1)).committee

def subsequentCommittee (s : Registry) : List Address :=
  (s.futureEpochInfo (s.epochPointer + 2)).committee

def committees (s : Registry) : List (List Address) :=
  [s.currentCommittee, s.nextCommittee, s.subsequentCommittee]

def ejectedAll (s : Registry) (a : Address) : Registry :=
  ((s.ejectCurrent a).ejectFuture (s.epochPointer + 1) a).ejectFuture (s.epochPointer + 2) a

theorem succ_ne_succ_succ (p : Fin 4) : p + 1 ≠ p + 2 := by
  revert p
  decide

theorem committees_ejectedAll (s : Registry) (a : Address) :
    (s.ejectedAll a).committees = s.committees.map fun c => c.erase a := by
  have hne := succ_ne_succ_succ s.epochPointer
  simp [committees, currentCommittee, nextCommittee, subsequentCommittee, ejectedAll,
    ejectCurrent, ejectFuture, ejected, hne, Ne.symm hne]

theorem ejectFromCommittees_of_ok {n : Nat} (h : s.ejectFromCommittees a n = .ok s') :
    s' = s.ejectedAll a ∧ ∀ c ∈ s'.committees, c.length ≠ 0 ∧ c.length ≤ n := by
  unfold ejectFromCommittees at h
  simp only [bind_eq_ok, checkCommitteeSize_eq_ok] at h
  obtain ⟨-, hcur, -, hnext, -, hsub, h⟩ := h
  cases h
  refine ⟨rfl, ?_⟩
  have hne := succ_ne_succ_succ s.epochPointer
  intro c hc
  simp only [committees, mem_cons, not_mem_nil, or_false] at hc
  rcases hc with rfl | rfl | rfl
  · exact hcur
  · simpa [nextCommittee, ejectFuture, ejectCurrent, hne] using hnext
  · exact hsub

/-! ### Burns and slashes -/

def numEligibleWithout (s : Registry) (a : Address) : Nat :=
  if (s.validators a).currentStatus.eligible then (s.getValidators .active).length - 1
  else (s.getValidators .active).length

def burnt (s : Registry) (a : Address) : Registry :=
  ((((s.ejectedAll a).setBalance a 0).exit a s.currentEpoch).retire a).paidOut a

theorem consensusBurn_of_ok (h : s.consensusBurn a = .ok s') :
    1 < s.validatorsAddresses.length ∧ s.validatorIndex a ≠ 0 ∧
      (∀ c ∈ s.committees, (c.erase a).length ≠ 0 ∧ (c.erase a).length ≤ s.numEligibleWithout a) ∧
      s' = s.burnt a := by
  obtain ⟨t, ht, h⟩ := bind_eq_ok.mp h
  obtain ⟨rfl, hsizes⟩ := ejectFromCommittees_of_ok ht
  obtain ⟨⟨amount, t⟩, ht, h⟩ := bind_eq_ok.mp h
  obtain ⟨hlen, hidx, -, -, rfl⟩ := payUnstake_of_ok ht
  cases h
  refine ⟨hlen, hidx, ?_, rfl⟩
  intro c hc
  refine hsizes (c.erase a) ?_
  rw [committees_ejectedAll]
  exact mem_map_of_mem hc

def withSlashed (s : Registry) (amount : Nat) : Registry :=
  { s with
    slashedFunds := s.slashedFunds + amount
    rlsBalance := s.rlsBalance + amount }

variable {I : Registry → Prop} {pool : PoolAnswer}

theorem takePoolSlash_of_ok (h : s.takePoolSlash amount pool = .ok s') :
    ∃ slashed, s' = s.withSlashed slashed := by
  unfold takePoolSlash at h
  split at h
  · cases h
    exact ⟨0, rfl⟩
  · split at h
    · cases h
    next slashed _ =>
      cases h
      exact ⟨slashed, rfl⟩

/-! ### Effects of calls -/

def withStake (s : Registry) (key : List UInt8) (a : Address) (isDelegated : Bool)
    (version amount : Nat) : Registry :=
  let s := { s with
    rlsBalance := s.rlsBalance + amount
    usedBLSPubkeys := update s.usedBLSPubkeys key true }
  (s.setValidator a
    { blsPubkey := key
      validatorAddress := a
      activationEpoch := pendingEpoch
      exitEpoch := 0
      currentStatus := .staked
      isRetired := false
      isDelegated
      stakeVersion := version }).recordStake a amount

def SameCore (s s' : Registry) : Prop :=
  s' = { s with
    performanceWeights := s'.performanceWeights
    participationFloorBps := s'.participationFloorBps
    validatorAllowlist := s'.validatorAllowlist
    hasPool := s'.hasPool
    paused := s'.paused }

structure Staked (bls : Bls) (s : Registry) (key : List UInt8) (a : Address)
    (proof : ProofOfPossession) (s' : Registry) : Prop where
  verified : bls.verify proof a = true
  fresh : s.usedBLSPubkeys key = false
  undefined : (s.validators a).currentStatus = .undefined
  result : ∃ isDelegated delegations,
    s' = ({ s with delegations } : Registry).withStake key a isDelegated
      s.getCurrentEpochInfo.stakeVersion (s.versions s.getCurrentEpochInfo.stakeVersion).stakeAmount

/-- What the other calls can do, the close of an epoch and a new stake version apart. -/
inductive Effect (s : Registry) : Registry → Prop
  | configured (s' : Registry) (hcore : s.SameCore s') : Effect s s'
  | activated (a : Address) (hstatus : (s.validators a).currentStatus = .staked) :
      Effect s (s.setValidator a
        { s.validators a with
          activationEpoch := s.currentEpoch + 1
          currentStatus := .pendingActivation })
  | claimed (a : Address) (hindex : s.validatorIndex a ≠ 0)
      (hrewards : s.initialStake a < s.balances a)
      (hfunds : s.balances a - s.initialStake a ≤ s.rlsBalance) :
      Effect s { s.setBalance a (s.initialStake a) with
        rlsBalance := s.rlsBalance - (s.balances a - s.initialStake a) }
  | exiting (a : Address) (hindex : s.validatorIndex a ≠ 0)
      (hstatus : (s.validators a).currentStatus = .active) (hothers : 1 < s.numStrictlyActive) :
      Effect s (s.setValidator a
        { s.validators a with currentStatus := .pendingExit, exitEpoch := pendingEpoch })
  | unstaked (a : Address) (heligible : s.eligibleForUnstake (s.validators a) = true)
      (hlength : 1 < s.validatorsAddresses.length) (hindex : s.validatorIndex a ≠ 0)
      (hfunds : s.balances a ≤ s.rlsBalance) :
      Effect s ((s.retire a).paidOut a)
  | withdrawn (amount : Nat) (hslashed : amount ≤ s.slashedFunds)
      (hfunds : amount ≤ s.rlsBalance) :
      Effect s { s with
        slashedFunds := s.slashedFunds - amount
        rlsBalance := s.rlsBalance - amount }

inductive SlashEffect (slash : Slash) (s : Registry) : Registry → Prop
  | skipped : SlashEffect slash s s
  | slashed (amount poolAmount : Nat) (hle : amount ≤ slash.amount)
      (hlt : amount < s.balances slash.validatorAddress) :
      SlashEffect slash s ((s.setBalance slash.validatorAddress
        (s.balances slash.validatorAddress - amount)).withSlashed poolAmount)
  | burned (poolAmount : Nat) (hle : s.balances slash.validatorAddress ≤ slash.amount)
      (hindex : s.validatorIndex slash.validatorAddress ≠ 0)
      (hsizes : ∀ c ∈ s.committees, (c.erase slash.validatorAddress).length ≠ 0 ∧
        (c.erase slash.validatorAddress).length ≤ s.numEligibleWithout slash.validatorAddress) :
      SlashEffect slash s ((s.withSlashed poolAmount).burnt slash.validatorAddress)

variable {key : List UInt8}

theorem recordStaked_of_ok {isDelegated : Bool}
    (h : ({ s with rlsBalance := s.rlsBalance + amount } : Registry).recordStaked key a isDelegated
      version amount = .ok s') :
    s.usedBLSPubkeys key = false ∧ s' = s.withStake key a isDelegated version amount := by
  obtain ⟨hfre, h⟩ := ite_error_eq_ok.mp h
  cases h
  exact ⟨by simpa using hfre, rfl⟩

theorem stake_of_ok (h : s.stake bls caller key proof paid = .ok s') :
    Staked bls s key caller proof s' := by
  unfold stake at h
  simp only [bind_eq_ok, checkStakeValue_eq_ok, checkValidatorStatus_eq_ok, receive_eq_ok] at h
  obtain ⟨-, -, -, -, -, -, _, hproof, amount, rfl, -, hstat, t, ⟨-, rfl⟩, h⟩ := h
  obtain ⟨hfre, rfl⟩ := recordStaked_of_ok h
  exact ⟨checkPossession_of_ok hproof, hfre, hstat, false, s.delegations, rfl⟩

theorem delegateStake_of_ok {signed : Bool}
    (h : s.delegateStake bls caller key proof a signed paid = .ok s') :
    Staked bls s key a proof s' := by
  unfold delegateStake at h
  simp only [bind_eq_ok, checkStakeValue_eq_ok, checkValidatorStatus_eq_ok] at h
  obtain ⟨-, -, -, -, _, hproof, amount, rfl, -, hstat, -, -, h⟩ := h
  split at h
  · cases h
  obtain ⟨t, ht, h⟩ := bind_eq_ok.mp h
  obtain ⟨-, rfl⟩ := receive_eq_ok.mp ht
  have h' : ({ ({ s with delegations := _ } : Registry) with
    rlsBalance := s.rlsBalance + _ } : Registry).recordStaked key a true _ _ = .ok s' := h
  obtain ⟨hfre, rfl⟩ := recordStaked_of_ok h'
  exact ⟨checkPossession_of_ok hproof, hfre, hstat, true, _, rfl⟩

theorem checkRewards_of_ok {rewards : Nat} (h : s.checkRewards a version = .ok rewards) :
    (s.versions version).stakeAmount < s.balances a ∧
      rewards = s.balances a - (s.versions version).stakeAmount := by
  unfold checkRewards at h
  dsimp only at h
  split at h
  · cases h
  next hsome =>
  have hrews := Except.ok.inj h
  unfold rewardsOver at hsome hrews
  split at hrews
  next hlt => exact ⟨hlt, hrews.symm⟩
  next hle =>
    rw [if_neg hle] at hsome
    exact absurd (.inl rfl) hsome

theorem claimStakeRewards_of_ok (h : s.claimStakeRewards caller a = .ok (amount, s')) :
    amount ≤ s.balances a ∧ Effect s s' := by
  unfold claimStakeRewards at h
  simp only [bind_eq_ok, checkIndexed_eq_ok, transfer_eq_ok] at h
  obtain ⟨-, -, -, hidx, -, -, rewards, hrews, t, ⟨hfun, rfl⟩, h⟩ := h
  cases h
  obtain ⟨hlt, hamt⟩ := checkRewards_of_ok hrews
  have hamt : amount = s.balances a - s.initialStake a := hamt
  have hleft : s.balances a - amount = s.initialStake a := by omega
  refine ⟨by omega, ?_⟩
  rw [hleft]
  subst hamt
  exact .claimed a hidx hlt hfun

theorem unstake_of_ok (h : s.unstake caller a = .ok (amount, s')) : Effect s s' := by
  unfold unstake at h
  simp only [bind_eq_ok] at h
  obtain ⟨-, -, -, -, h⟩ := h
  split at h
  · cases h
  next helig =>
    obtain ⟨hlen, hidx, -, hfun, rfl⟩ := payUnstake_of_ok h
    exact .unstaked a (by simpa using helig) hlen hidx hfun

theorem validatorSlash_le (s : Registry) (slash : Slash) (pool : PoolAnswer) :
    s.validatorSlash slash pool ≤ slash.amount := by
  unfold validatorSlash
  split
  · exact min_le_right _ _
  · exact le_refl _

theorem applySlash_of_ok {slash : Slash}
    (h : s.applySlash slash pool = .ok s') : SlashEffect slash s s' := by
  have hle := s.validatorSlash_le slash pool
  unfold applySlash at h
  dsimp only at h
  split at h
  · cases h
    exact .skipped
  split at h
  next hlt =>
    obtain ⟨slashed, rfl⟩ := takePoolSlash_of_ok h
    exact .slashed _ slashed hle hlt
  next hge =>
    obtain ⟨t, ht, h⟩ := bind_eq_ok.mp h
    obtain ⟨slashed, rfl⟩ := takePoolSlash_of_ok ht
    obtain ⟨-, hidx, hsizes, rfl⟩ := consensusBurn_of_ok h
    exact .burned slashed ((Nat.not_lt.mp hge).trans hle) hidx hsizes

theorem keep_applySlashes {slashes : List (Slash × PoolAnswer)}
    (hI : ∀ {slash s s'}, I s → SlashEffect slash s s' → I s') (h : I s)
    (hok : s.applySlashes slashes = .ok s') : I s' := by
  induction slashes generalizing s with
  | nil =>
    cases hok
    exact h
  | cons head rest ih =>
    obtain ⟨t, ht, hrest⟩ := bind_eq_ok.mp hok
    exact ih (hI h (applySlash_of_ok ht)) hrest

theorem withdrawSlashedFunds_of_ok (h : s.withdrawSlashedFunds caller amount = .ok s') :
    Effect s s' := by
  unfold withdrawSlashedFunds at h
  simp only [bind_eq_ok, ite_error_eq_ok, transfer_eq_ok] at h
  obtain ⟨-, -, -, hle, hfun, rfl⟩ := h
  exact .withdrawn amount (by omega) hfun

theorem activate_of_ok (h : s.activate caller = .ok s') : Effect s s' := by
  unfold activate at h
  simp only [bind_eq_ok, checkValidatorStatus_eq_ok] at h
  obtain ⟨-, -, -, hstat, -, -, h⟩ := h
  cases h
  exact .activated caller hstat

theorem beginExit_of_ok (h : s.beginExit caller = .ok s') : Effect s s' := by
  unfold beginExit at h
  simp only [bind_eq_ok, checkIndexed_eq_ok, checkValidatorStatus_eq_ok, ite_error_eq_ok] at h
  obtain ⟨-, -, -, hidx, hoths, -, -, -, hstat, -, h⟩ := h
  cases h
  exact .exiting caller hidx hstat (by omega)

def upgraded (s : Registry) (config : StakeConfig) : Registry :=
  { s with
    stakeVersion := s.stakeVersion + 1
    versions := update s.versions (s.stakeVersion + 1) config }

theorem upgradeStakeVersion_of_ok {config : StakeConfig}
    (h : s.upgradeStakeVersion caller config = .ok s') : s' = s.upgraded config := by
  unfold upgradeStakeVersion at h
  simp only [bind_eq_ok, ite_error_eq_ok] at h
  obtain ⟨-, -, -, -, -, h⟩ := h
  cases h
  rfl

theorem sameCore_applyIncentives (s : Registry) (infos : List RewardInfo) (totalRounds : Nat)
    (delegated : Address → Nat) : s.SameCore (s.applyIncentives infos totalRounds delegated) := by
  unfold applyIncentives
  dsimp only
  split <;> rfl

/-! ### Epochs -/

theorem enforceSorting_eq_ok {com : List Address} :
    enforceSorting com = .ok u ↔ com.Pairwise (· < ·) := by
  rw [← isChain_iff_pairwise]
  induction com with
  | nil => simp [enforceSorting]
  | cons b rest ih =>
    cases rest with
    | nil => simp [enforceSorting]
    | cons c rest =>
      rw [isChain_cons_cons, ← ih, enforceSorting]
      split
      next hle => simp [not_lt.mpr hle]
      next hlt => simp [not_le.mp hlt]

def concluded (s : Registry) (futureCommittee : List Address) : Registry :=
  (s.updateEpochInfo futureCommittee).updateValidatorQueue futureCommittee

theorem concludeEpoch_eq_ok {futureCommittee : List Address} :
    s.concludeEpoch futureCommittee = .ok s' ↔
      futureCommittee.Pairwise (· < ·) ∧ s.currentEpoch + 1 < 2 ^ 32 ∧
        futureCommittee.length ≠ 0 ∧
        futureCommittee.length ≤ ((s.concluded futureCommittee).getValidators .active).length ∧
        s' = s.concluded futureCommittee := by
  unfold concludeEpoch concluded
  simp only [bind_eq_ok, enforceSorting_eq_ok, checkNextEpoch_eq_ok, checkCommitteeSize_eq_ok]
  constructor
  · rintro ⟨-, hsort, -, hword, -, ⟨hne, hle⟩, h⟩
    cases h
    exact ⟨hsort, hword, hne, hle, rfl⟩
  · rintro ⟨hsort, hword, hne, hle, rfl⟩
    exact ⟨(), hsort, (), hword, (), ⟨hne, hle⟩, rfl⟩

theorem keep_updateValidatorQueue {future : List Address}
    (hactivate : ∀ t v, I t → I (t.activateQueued v))
    (hexit : ∀ t v, I t → I (exitQueued future t v)) (h : I s) :
    I (s.updateValidatorQueue future) :=
  foldlRecOn _ _ (foldlRecOn _ _ h fun t ht v _ => hactivate t v ht)
    fun t ht v _ => hexit t v ht

/-! ### The constructor -/

theorem construct_of_ok {gcfg : StakeConfig} {inits : List ValidatorInfo}
    {proofs : List ProofOfPossession} {owner : Address} {rlsBalance : Nat}
    (h : construct bls gcfg inits proofs owner rlsBalance = .ok s) :
    inits ≠ [] ∧ inits.length = proofs.length ∧
      addInitials bls gcfg.stakeAmount (blank gcfg owner rlsBalance)
        (inits.zip proofs) = .ok s := by
  unfold construct at h
  simp only [ite_error_eq_ok] at h
  obtain ⟨-, harity, h⟩ := h
  simp only [not_or, not_not, length_eq_zero_iff] at harity
  exact ⟨harity.1, harity.2, h⟩

theorem checkInitial_of_ok {v : ValidatorInfo} (h : checkInitial bls v proof = .ok u) :
    v.currentStatus = .active ∧ v.isRetired = false ∧ v.stakeVersion = 0 := by
  unfold checkInitial at h
  simp only [bind_eq_ok, ite_error_eq_ok] at h
  obtain ⟨-, -, -, -, -, hstat, hret, hvers, -⟩ := h
  exact ⟨not_not.mp hstat, by simpa using hret, not_not.mp hvers⟩

end Registry

def RegistryCall.stakes : RegistryCall → Option (List UInt8 × Address × ProofOfPossession)
  | .stake caller key proof _ => some (key, caller, proof)
  | .delegateStake _ key proof a _ _ => some (key, a, proof)
  | _ => none

namespace Registry

inductive Outcome (bls : Bls) (s : Registry) : RegistryCall → Registry → Prop
  | effect (c : RegistryCall) (s' : Registry) (hstakes : c.stakes = none)
      (heffect : Effect s s') : Outcome bls s c s'
  | slashes (slashes : List (Slash × PoolAnswer)) (s' : Registry)
      (hok : s.applySlashes slashes = .ok s') : Outcome bls s (.applySlashes slashes) s'
  | staked (c : RegistryCall) (key : List UInt8) (a : Address) (proof : ProofOfPossession)
      (s' : Registry) (hstakes : c.stakes = some (key, a, proof))
      (hstaked : Staked bls s key a proof s') : Outcome bls s c s'
  | concluded (futureCommittee : List Address) (hsorted : futureCommittee.Pairwise (· < ·))
      (hne : futureCommittee.length ≠ 0)
      (hle : futureCommittee.length
        ≤ ((s.concluded futureCommittee).getValidators .active).length) :
      Outcome bls s (.concludeEpoch futureCommittee) (s.concluded futureCommittee)
  | upgraded (caller : Address) (config : StakeConfig) :
      Outcome bls s (.upgradeStakeVersion caller config) (s.upgraded config)

variable {s s' : Registry} {bls : Bls} {c : RegistryCall}

theorem call_outcome (h : s.call bls c = .ok s') : Outcome bls s c s' := by
  have hone (hstks : c.stakes = none) (heff : Effect s s') : Outcome bls s c s' :=
    .effect c s' hstks heff
  cases c with
  | stake caller key proof paid => exact .staked _ key caller proof s' rfl (stake_of_ok h)
  | delegateStake caller key proof a signed paid =>
    exact .staked _ key a proof s' rfl (delegateStake_of_ok h)
  | activate caller => exact hone rfl (activate_of_ok h)
  | claimStakeRewards caller a =>
    obtain ⟨⟨amount, t⟩, ht, rfl⟩ := Fallible.map_eq_ok.mp h
    exact hone rfl (claimStakeRewards_of_ok ht).2
  | beginExit caller => exact hone rfl (beginExit_of_ok h)
  | unstake caller a =>
    obtain ⟨⟨amount, t⟩, ht, rfl⟩ := Fallible.map_eq_ok.mp h
    exact hone rfl (unstake_of_ok ht)
  | withdrawSlashedFunds caller amount => exact hone rfl (withdrawSlashedFunds_of_ok h)
  | applySlashes slashes => exact .slashes slashes s' h
  | applyIncentives infos totalRounds delegated =>
    cases h
    exact hone rfl (.configured _ (sameCore_applyIncentives s infos totalRounds delegated))
  | concludeEpoch future =>
    obtain ⟨hsort, -, hne, hle, rfl⟩ := concludeEpoch_eq_ok.mp h
    exact .concluded future hsort hne hle
  | setParticipationFloorBps _ _ | setAllowlisted _ _ _ =>
    obtain ⟨-, -, h⟩ := bind_eq_ok.mp h
    cases (ite_error_eq_ok.mp h).2
    exact hone rfl (.configured _ rfl)
  | upgradeStakeVersion caller config =>
    obtain rfl := upgradeStakeVersion_of_ok h
    exact .upgraded caller config
  | setDelegationPool _ _ | setPaused _ _ =>
    obtain ⟨-, -, h⟩ := bind_eq_ok.mp h
    cases h
    exact hone rfl (.configured _ rfl)

theorem step_cases (s : Registry) (bls : Bls) (c : RegistryCall) :
    (s.step bls c = s ∧ ∀ s', s.call bls c ≠ .ok s') ∨
      s.call bls c = .ok (s.step bls c) ∧ Outcome bls s c (s.step bls c) := by
  unfold step
  cases h : s.call bls c with
  | ok s' => exact .inr ⟨rfl, call_outcome h⟩
  | error e => exact .inl ⟨rfl, nofun⟩

theorem keep_step {I : Registry → Prop} {c : RegistryCall} (h : I s)
    (hout : ∀ s', Outcome bls s c s' → I s') : I (s.step bls c) := by
  rcases step_cases s bls c with ⟨hsame, -⟩ | ⟨-, houtc⟩
  · rw [hsame]
    exact h
  · exact hout _ houtc

end Registry

end ConsensusRegistry

end Axyl
