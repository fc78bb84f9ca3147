import Axyl.Contracts.RegistryEffects
import Axyl.Lib.Totals

/-! The registry holds the stakes of all validators and the slashed funds. -/

namespace Axyl
open Function

namespace ConsensusRegistry
open Fallible (bind_eq_ok bind_eq_error)

namespace Registry
variable {s s' : Registry} {bls : Bls} {a : Address}

def owed (s : Registry) : Nat := ∑ a, s.balances a + s.slashedFunds

def Solvent (s : Registry) : Prop := s.owed ≤ s.rlsBalance

/-! ### Payments -/

section
variable (h : s.Solvent)
include h

theorem Solvent.paidOut (a : Address) : (s.paidOut a).Solvent := by
  have htot := total_update s.balances a 0
  have hslas : (s.paidOut a).slashedFunds = s.slashedFunds := by
    unfold Registry.paidOut
    rw [withoutValidator_eq]
  unfold Solvent owed at h ⊢
  change ∑ j, update s.balances a 0 j + (s.paidOut a).slashedFunds ≤ s.rlsBalance - s.balances a
  omega

theorem Solvent.setBalance {v : Nat} (hv : v ≤ s.balances a) : (s.setBalance a v).Solvent := by
  have htot := total_update s.balances a v
  unfold Solvent owed at h ⊢
  change ∑ j, update s.balances a v j + s.slashedFunds ≤ s.rlsBalance
  omega

theorem Solvent.withSlashed (amt : Nat) : (s.withSlashed amt).Solvent := by
  unfold Solvent owed at h ⊢
  change ∑ j, s.balances j + (s.slashedFunds + amt) ≤ s.rlsBalance + amt
  omega

/-! ### Steps -/

theorem Solvent.burnt (a : Address) : (s.burnt a).Solvent := by
  have hejected : ((s.ejectedAll a).setBalance a 0).Solvent := h.setBalance (Nat.zero_le _)
  have hret : ((((s.ejectedAll a).setBalance a 0).exit a s.currentEpoch).retire a).Solvent :=
    hejected
  exact hret.paidOut a

theorem Staked.solvent {key : List UInt8} {proof : ProofOfPossession}
    (hstk : Staked bls s key a proof s') : s'.Solvent := by
  obtain ⟨isDelegated, delegations, rfl⟩ := hstk.result
  have htot := total_update s.balances a (s.versions s.getCurrentEpochInfo.stakeVersion).stakeAmount
  unfold Solvent owed at h ⊢
  change ∑ j, update s.balances a _ j + s.slashedFunds ≤ s.rlsBalance + _
  omega

theorem Effect.solvent (heff : Effect s s') : s'.Solvent := by
  cases heff with
  | configured s' hcore =>
    rw [hcore]
    exact h
  | activated a hstat => exact h
  | claimed a hidx hrews hfun =>
    have htot := total_update s.balances a (s.initialStake a)
    unfold Solvent owed at h ⊢
    change ∑ j, update s.balances a (s.initialStake a) j + s.slashedFunds
      ≤ s.rlsBalance - (s.balances a - s.initialStake a)
    omega
  | exiting a hidx hstat hoths => exact h
  | unstaked a helig hlen hidx hfun =>
    have hret : (s.retire a).Solvent := h
    exact hret.paidOut a
  | withdrawn amt hslas hfun =>
    unfold Solvent owed at h ⊢
    change ∑ j, s.balances j + (s.slashedFunds - amt) ≤ s.rlsBalance - amt
    omega

theorem SlashEffect.solvent {slash : Slash} (heff : SlashEffect slash s s') : s'.Solvent := by
  cases heff with
  | skipped => exact h
  | slashed amt poolAmount hle hlt =>
    exact (h.setBalance (Nat.sub_le _ _)).withSlashed poolAmount
  | burned poolAmount hle hidx hsizes =>
    exact (h.withSlashed poolAmount).burnt slash.validatorAddress

theorem Solvent.concluded (future : List Address) : (s.concluded future).Solvent := by
  have hinfo : (s.updateEpochInfo future).Solvent := h
  refine keep_updateValidatorQueue (fun t v ht => ht) (fun t v ht => ?_) hinfo
  unfold exitQueued
  dsimp only
  split
  · exact ht
  · exact ht

theorem Solvent.step (c : RegistryCall) : (s.step bls c).Solvent := by
  refine keep_step h fun s' houtc => ?_
  cases houtc with
  | effect _ _ _ heff => exact heff.solvent h
  | slashes _ _ hok => exact keep_applySlashes (fun h heff => heff.solvent h) h hok
  | staked _ _ _ _ _ _ hstk => exact hstk.solvent h
  | concluded future _ _ _ => exact h.concluded future
  | upgraded _ _ => exact h

theorem Solvent.run (calls : List RegistryCall) : (s.run bls calls).Solvent :=
  List.foldlRecOn calls _ h fun _ ht c _ => Solvent.step ht c

end

/-! ### Genesis -/

theorem owed_addInitials {stakeAmount : Nat} {initials : List (ValidatorInfo × ProofOfPossession)}
    (h : addInitials bls stakeAmount s initials = .ok s') :
    s'.owed ≤ s.owed + initials.length * stakeAmount ∧ s'.rlsBalance = s.rlsBalance := by
  induction initials generalizing s with
  | nil =>
    cases h
    omega
  | cons head rest ih =>
    obtain ⟨-, -, hrest⟩ := bind_eq_ok.mp h
    obtain ⟨howed, hrls⟩ := ih hrest
    have htot := total_update s.balances head.1.validatorAddress stakeAmount
    have hadd : (s.addInitial head.1 stakeAmount).owed ≤ s.owed + stakeAmount := by
      change ∑ j, update s.balances head.1.validatorAddress stakeAmount j
        + s.slashedFunds ≤ ∑ j, s.balances j + s.slashedFunds + stakeAmount
      omega
    rw [List.length_cons, Nat.succ_mul]
    exact ⟨by omega, hrls⟩

theorem solvent_construct {gcfg : StakeConfig} {inits : List ValidatorInfo}
    {proofs : List ProofOfPossession} {owner : Address} {rlsBalance : Nat}
    (h : construct bls gcfg inits proofs owner rlsBalance = .ok s)
    (hfunded : inits.length * gcfg.stakeAmount ≤ rlsBalance) : s.Solvent := by
  obtain ⟨-, -, hinit⟩ := construct_of_ok h
  obtain ⟨howed, hrls⟩ := owed_addInitials hinit
  have hblank : (blank gcfg owner rlsBalance).owed = 0 := by
    unfold owed blank
    simp
  have hlen : (inits.zip proofs).length ≤ inits.length := by
    rw [List.length_zip]
    omega
  have hstks := Nat.mul_le_mul_right gcfg.stakeAmount hlen
  unfold Solvent
  rw [hrls]
  change s.owed ≤ rlsBalance
  omega

/-! ### Withdrawals -/

theorem Solvent.balance_le (h : s.Solvent) (a : Address) : s.balances a ≤ s.rlsBalance := by
  have := holding_le_total s.balances a
  unfold Solvent owed at h
  omega

/-- A withdrawal pays at most the recorded balance and debits what it pays, and the token does not
refuse it. -/
def Pays (s : Registry) (a : Address) (x : RegistryM (Nat × Registry)) : Prop :=
  Fallible.Spec
    (fun r => r.1 ≤ s.balances a ∧
      r.2.balances = update s.balances a (s.balances a - r.1) ∧
      r.2.rlsBalance + r.1 = s.rlsBalance)
    (fun e => e ≠ .transferFailed) x

def Checks (x : RegistryM Unit) : Prop :=
  Fallible.Spec (fun _ => True) (fun e => e ≠ .transferFailed) x

theorem checks_ite {c : Prop} [Decidable c] {e : RegistryError} (he : e ≠ .transferFailed) :
    Checks (if c then .error e else .ok ()) := by
  split
  · exact he
  · exact trivial

section
variable (s : Registry)

theorem checks_whenNotPaused : Checks s.whenNotPaused := checks_ite nofun

theorem checks_checkIndexed (a : Address) : Checks (s.checkIndexed a) := checks_ite nofun

theorem checks_checkRecipient (caller a : Address) : Checks (s.checkRecipient caller a) :=
  checks_ite nofun

theorem checks_onlyOwner (caller : Address) : Checks (s.onlyOwner caller) := checks_ite nofun

end

theorem spec_transfer {amt : Nat} (h : amt ≤ s.rlsBalance) :
    Fallible.Spec (fun t => t.balances = s.balances ∧ t.rlsBalance + amt = s.rlsBalance)
      (fun e => e ≠ .transferFailed) (s.transfer amt) := by
  unfold transfer
  rw [if_pos h]
  exact ⟨rfl, Nat.sub_add_cancel h⟩

theorem spec_checkRewards (s : Registry) (a : Address) (version : Nat) :
    Fallible.Spec (fun rewards => rewards ≤ s.balances a) (fun e => e ≠ .transferFailed)
      (s.checkRewards a version) := by
  cases h : s.checkRewards a version with
  | ok rewards =>
    obtain ⟨-, rfl⟩ := checkRewards_of_ok h
    exact Nat.sub_le _ _
  | error e =>
    unfold checkRewards at h
    dsimp only at h
    split at h
    · cases h
      exact RegistryError.noConfusion
    · cases h

theorem Solvent.pays_claimStakeRewards (h : s.Solvent) (caller a : Address) :
    s.Pays a (s.claimStakeRewards caller a) := by
  refine (checks_whenNotPaused s).bind fun _ _ => ?_
  refine (checks_checkIndexed s a).bind fun _ _ => ?_
  refine (checks_checkRecipient s caller a).bind fun _ _ => ?_
  refine (spec_checkRewards s a _).bind fun rewards hrews => ?_
  have hfun : rewards ≤ s.rlsBalance := hrews.trans (h.balance_le a)
  have hpaid : rewards ≤ (s.setBalance a (s.balances a - rewards)).rlsBalance := hfun
  refine (spec_transfer hpaid).bind fun t ht => ?_
  exact ⟨hrews, ht.1, ht.2⟩

theorem Solvent.pays_payUnstake (h : s.Solvent) (a : Address) : s.Pays a (s.payUnstake a) := by
  have hfun := h.balance_le a
  rw [payUnstake_eq, if_pos hfun]
  split
  · exact RegistryError.noConfusion
  split
  · exact RegistryError.noConfusion
  refine ⟨le_refl _, ?_, Nat.sub_add_cancel hfun⟩
  rw [Nat.sub_self]
  rfl

theorem Solvent.pays_unstake (h : s.Solvent) (caller a : Address) :
    s.Pays a (s.unstake caller a) := by
  refine (checks_whenNotPaused s).bind fun _ _ => ?_
  refine (checks_checkRecipient s caller a).bind fun _ _ => ?_
  have hret : (s.retire a).Solvent := h
  split
  · exact RegistryError.noConfusion
  · exact hret.pays_payUnstake a

theorem Solvent.withdrawSlashedFunds_ne (h : s.Solvent) (caller : Address) (amt : Nat) :
    s.withdrawSlashedFunds caller amt ≠ .error .transferFailed := by
  intro hfail
  rcases bind_eq_error.mp hfail with hchk | ⟨-, -, hfail⟩
  · have := checks_onlyOwner s caller
    rw [hchk] at this
    exact this rfl
  split at hfail
  · cases hfail
  split at hfail
  · cases hfail
  next hle =>
    unfold transfer at hfail
    unfold Solvent owed at h
    rw [if_pos (by dsimp only; omega)] at hfail
    cases hfail

/-- From a funded genesis the contract holds, after any calls, all balances and the slashed funds;
no claim, unstake or withdrawal of slashed funds fails for want of tokens, and none pays more than
the recorded balance. -/
theorem run_funded {genesisConfig : StakeConfig} {initialValidators : List ValidatorInfo}
    {proofs : List ProofOfPossession} {owner : Address} {rlsBalance : Nat} {genesis : Registry}
    (hgenesis : construct bls genesisConfig initialValidators proofs owner rlsBalance = .ok genesis)
    (hfunded : initialValidators.length * genesisConfig.stakeAmount ≤ rlsBalance)
    (calls : List RegistryCall) :
    ∑ a, (genesis.run bls calls).balances a + (genesis.run bls calls).slashedFunds
        ≤ (genesis.run bls calls).rlsBalance ∧
      (∀ caller a,
        (genesis.run bls calls).Pays a ((genesis.run bls calls).claimStakeRewards caller a) ∧
        (genesis.run bls calls).Pays a ((genesis.run bls calls).unstake caller a)) ∧
      ∀ caller amount,
        (genesis.run bls calls).withdrawSlashedFunds caller amount ≠ .error .transferFailed := by
  have h : (genesis.run bls calls).Solvent := (solvent_construct hgenesis hfunded).run calls
  refine ⟨h, fun caller a => ⟨?_, ?_⟩, ?_⟩
  · exact h.pays_claimStakeRewards caller a
  · exact h.pays_unstake caller a
  · exact h.withdrawSlashedFunds_ne

def stakeAndSlash : List RegistryCall :=
  [.setAllowlisted 9 3 true, .stake 3 (someKey 3) (proofOf 3) true,
    .applySlashes [(⟨1, 4⟩, ⟨0, none⟩)], .unstake 3 3]

theorem run_funded_slashed :
    let s := (smallGenesis twoInitial).run ownBls stakeAndSlash
    ∑ a, s.balances a + s.slashedFunds ≤ s.rlsBalance :=
  (run_funded (construct_smallGenesis (by decide +kernel)) (by decide) stakeAndSlash).1

end Registry

end ConsensusRegistry

end Axyl
