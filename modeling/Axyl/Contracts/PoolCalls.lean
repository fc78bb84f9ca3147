import Axyl.Contracts.PoolBooks

/-! What every call of the delegation pool does to the books, as long as it rounds nothing. -/

namespace Axyl.DelegationPool
open Function ValidatorPool DelegatorPosition
open LazyShares (Account stake owed)
open Fallible (bind_eq_ok ite_error_eq_ok)

namespace PoolState

/-! ### The calls that touch a position -/

variable {s s' : PoolState} {g : Indices} {v d amount : Nat} {tier : Bool}

abbrev settledPosition (s : PoolState) (v d : Nat) : DelegatorPosition :=
  settlePosition (s.validatorPools v) (s.positions v d) s.currentEpoch

section
variable (s : PoolState)

theorem setPosition_self (v d : Nat) (pos : DelegatorPosition) :
    (s.setPosition v d pos).positions v d = pos := by
  simp [setPosition]

theorem setPosition_of_ne {v d u e : Nat} (pos : DelegatorPosition) (h : (u, e) ≠ (v, d)) :
    (s.setPosition v d pos).positions u e = s.positions u e := by
  unfold setPosition
  by_cases hu : u = v
  · subst hu
    have he : e ≠ d := fun he => h (by rw [he])
    simp [update_of_ne he]
  · simp [update_of_ne hu]

theorem setPool_self (v : Nat) (pool : ValidatorPool) :
    (s.setPool v pool).validatorPools v = pool := by
  simp [setPool]

theorem setPool_of_ne {v u : Nat} (pool : ValidatorPool) (h : u ≠ v) :
    (s.setPool v pool).validatorPools u = s.validatorPools u := by
  simp [setPool, update_of_ne h]

end

def ExactAmount (pool : ValidatorPool) (openTier : Bool) (amount : Nat) : Prop :=
  precision ∣ amount * pool.slashPerShareAccum ∧ precision ∣ amount * pool.accum openTier

theorem getEffectivePosition_of {r : Settlement}
    (hr : settleArithmetic (s.validatorPools v) (s.positions v d) s.currentEpoch = r)
    (hamt : 0 < (s.positions v d).amount) : s.getEffectivePosition v d =
      (r.effectiveAmount, (s.positions v d).pendingRewards + r.rewardDelta) := by
  unfold getEffectivePosition
  rw [if_neg (by omega), hr]

variable {q : DelegatorPosition}

theorem getEffectivePosition_of_settled {r : Settlement}
    (hr : settleArithmetic (s.validatorPools v) (s.positions v d) s.currentEpoch = r)
    (hq : s.settledPosition v d = q) (hamt : 0 < (s.positions v d).amount) :
    s.getEffectivePosition v d = (q.amount, q.pendingRewards) := by
  unfold settledPosition at hq
  rw [settlePosition_of hr hamt] at hq
  rw [getEffectivePosition_of hr hamt, ← hq]

theorem getEffectivePosition_eq (hq : s.settledPosition v d = q) :
    s.getEffectivePosition v d = (q.amount, q.pendingRewards) := by
  rcases Nat.eq_zero_or_pos (s.positions v d).amount with hzero | hpos
  · unfold settledPosition settlePosition at hq
    rw [if_pos hzero] at hq
    unfold getEffectivePosition
    rw [if_pos hzero, ← hq, hzero]
  · exact getEffectivePosition_of_settled rfl hq hpos

def afterDelegate (s : PoolState) (v d amount : Nat) (tier : Bool) (q : DelegatorPosition) :
    PoolState :=
  let pool := s.validatorPools v
  ({ s with balance := s.balance + amount }.setPosition v d
    { { q with openTier := tier }.withAmount pool (q.amount + amount) with
      lastDelegateEpoch := s.currentEpoch }).setPool v
        (pool.withDelegated tier (pool.delegated tier + amount))

def tierOf (pos : DelegatorPosition) (isOpenTier : Bool) : Bool :=
  if 0 < pos.amount then pos.openTier else isOpenTier

variable {allow : Bool} {inc : Bool → Nat} {isOpenTier : Bool} {b a : Nat}

theorem delegateTier_ok {paid : Bool}
    (h : s.delegateTier v d amount isOpenTier allow paid = .ok s') : s.poolRegistered v = true ∧
      s' = s.afterDelegate v d amount (tierOf (s.positions v d) isOpenTier)
        (s.settledPosition v d) := by
  unfold delegateTier at h
  simp only [ite_error_eq_ok] at h
  obtain ⟨-, -, hreg, -, -, -, -, -, -, h⟩ := h
  cases h
  exact ⟨by simpa using hreg, rfl⟩

def afterRequest (s : PoolState) (v d amount : Nat) (q : DelegatorPosition) : PoolState :=
  let pool := s.validatorPools v
  (s.setPosition v d
    { q.withAmount pool (q.amount - amount) with
      undelegateAmount := amount
      undelegateEpoch := s.currentEpoch + s.config.unbondingEpochs }).setPool v
        (pool.withDelegated q.openTier (pool.delegated q.openTier - amount))

theorem checkedSub_ok {c : Nat} (h : checkedSub a b = .ok c) : b + c = a := by
  unfold checkedSub at h
  split at h
  · cases h
    omega
  · cases h

theorem requestUndelegation_ok (h : s.requestUndelegation v d amount = .ok s') :
    ∃ q, s.settledPosition v d = q ∧ s.poolRegistered v = true ∧ amount ≤ q.amount ∧
      amount ≤ (s.validatorPools v).delegated q.openTier ∧ s' = s.afterRequest v d amount q := by
  unfold requestUndelegation at h
  simp only [ite_error_eq_ok] at h
  obtain ⟨-, hreg, -, hle, h⟩ := h
  obtain ⟨total, htot, h⟩ := bind_eq_ok.mp h
  have htot := checkedSub_ok htot
  cases h
  refine ⟨_, rfl, by simpa using hreg, Nat.not_lt.mp hle, ?_, ?_⟩
  · exact Nat.le.intro htot
  · rw [afterRequest, Nat.eq_sub_of_add_eq' htot]
    rfl

def afterClaim (s : PoolState) (v d : Nat) (q : DelegatorPosition) : PoolState :=
  { s.setPosition v d { q with pendingRewards := 0 } with
    balance := s.balance - q.pendingRewards }

theorem transfer_ok {t : PoolState} (h : t.transfer amount = .ok s') :
    amount ≤ t.balance ∧ s' = { t with balance := t.balance - amount } := by
  unfold transfer at h
  split at h
  · rename_i hle
    cases h
    exact ⟨hle, rfl⟩
  · cases h

theorem claimDelegationRewards_ok (h : s.claimDelegationRewards v d = .ok s') :
    ∃ q, s.settledPosition v d = q ∧
      s.poolRegistered v = true ∧ q.pendingRewards ≤ s.balance ∧ s' = s.afterClaim v d q := by
  unfold claimDelegationRewards at h
  simp only [ite_error_eq_ok] at h
  obtain ⟨hle, rfl⟩ := transfer_ok h.2.2
  exact ⟨_, rfl, by simpa using h.1, hle, rfl⟩

section
variable (pool : ValidatorPool)
include pool

theorem withDelegated_self (t : Bool) : pool.withDelegated t (pool.delegated t) = pool := by
  cases t <;> rfl

theorem withDelegated_slashPerShareAccum (t : Bool) (amount : Nat) :
    (pool.withDelegated t amount).slashPerShareAccum = pool.slashPerShareAccum := by
  cases t <;> rfl

theorem withDelegated_accum (t u : Bool) (amount : Nat) :
    (pool.withDelegated t amount).accum u = pool.accum u := by
  cases t <;> rfl

theorem withDelegated_delegated (t u : Bool) (amount : Nat) :
    (pool.withDelegated t amount).delegated u = if u = t then amount else pool.delegated u := by
  cases t <;> cases u <;> rfl

theorem totalAll_eq (t : Bool) : pool.totalAll = pool.delegated t + pool.delegated !t := by
  cases t
  · rfl
  · exact add_comm _ _

theorem poolLiability_withDelegated (t : Bool) (amount : Nat) :
    poolLiability (pool.withDelegated t amount) + precision * precision * pool.delegated t =
      poolLiability pool + precision * precision * amount := by
  cases t <;>
    simp only [poolLiability, withDelegated, delegated,
      totalAll, Bool.false_eq_true, if_false, if_true] <;>
    ring

end

section
variable (h : Books s g)
include h

theorem settles_books (v d : Nat) (hq : s.settledPosition v d = q) :
    Settles (s.validatorPools v) (s.positions v d) (g v d).1 (g v d).2 q := by
  subst hq
  exact settles _ (h.slashDebt v d) (h.rewardDebt v d)

section
variable (hq : Settles (s.validatorPools v) (s.positions v d) (g v d).1 (g v d).2 q)
include hq

theorem unbonding_of_settles (hep : q.undelegateEpoch = 0) : q.undelegateAmount = 0 := by
  rw [hq.undelegateEpoch_eq] at hep
  rw [hq.undelegateAmount_eq]
  exact h.unbonding v d hep

variable (hreg : s.poolRegistered v = true)
include hreg

/-- A settled position recorded anew, with debts that round nothing. Its amount moves with the
total of its tier, and the money with the claims. -/
theorem books_record {pos : DelegatorPosition} {total : Nat} (hsame : Beside v s s')
    (hposs : ∀ u e, (u, e) ≠ (v, d) → s'.positions u e = s.positions u e)
    (hpos : s'.positions v d = pos)
    (hpool : s'.validatorPools v = (s.validatorPools v).withDelegated pos.openTier total)
    (htier : 0 < (s.positions v d).amount → pos.openTier = (s.positions v d).openTier)
    (hex : ExactAmount (s.validatorPools v) pos.openTier pos.amount)
    (hsl : pos.slashDebt = accumulatedSlash pos.amount (s.validatorPools v).slashPerShareAccum)
    (hrew : pos.rewardDebt = pos.amount * (s.validatorPools v).accum pos.openTier / precision)
    (hamt : pos.amount + (s.validatorPools v).delegated pos.openTier ≤ q.amount + total)
    (hmoney : total + (pos.undelegateAmount + pos.pendingRewards) + s.balance ≤
      (s.validatorPools v).delegated pos.openTier +
        ((s.positions v d).undelegateAmount + q.pendingRewards) + s'.balance)
    (hunb : pos.undelegateEpoch = 0 → pos.undelegateAmount = 0) : ∃ g', Books s' g' := by
  have hsacc := withDelegated_slashPerShareAccum (s.validatorPools v) pos.openTier total
  have hacm := fun t => withDelegated_accum (s.validatorPools v) pos.openTier t total
  rw [← hpool] at hsacc hacm
  refine ⟨_, h.site v d ((s.validatorPools v).slashPerShareAccum,
    (s.validatorPools v).accum pos.openTier) hsame hposs hsacc hacm
    (fun hno => nomatch hreg.symm.trans hno) ?_ ?_ (le_refl _) ?_ (fun t => ?_)
    ?_ ?_⟩
  · rw [hpos, hsl]
    exact accumulatedSlash_of_dvd hex.1
  · rw [hpos, hrew]
    exact Nat.div_mul_cancel hex.2
  · rw [hpos]
  · -- what is left of the old position covers the settled amount
    rw [hpos, tierStake, LazyShares.stake_of_current hsacc.symm, hpool, withDelegated_delegated]
    split
    · rename_i heq
      subst heq
      have hstake : q.amount * precision ≤ tierStake (s.validatorPools v) (s.positions v d)
          (g v d) pos.openTier := by
        rcases Nat.eq_zero_or_pos (s.positions v d).amount with hzero | hpos
        · have hle := hq.amount_le
          rw [hzero, stake, zero_mul] at hle
          omega
        · rw [tierStake, if_pos (htier hpos).symm]
          exact hq.amount_le
      have hscal := Nat.mul_le_mul_left precision hamt
      rw [mul_add, mul_add] at hscal
      rw [mul_comm] at hstake ⊢
      rw [if_pos rfl]
      dsimp only
      omega
    · rename_i hne
      rw [if_neg (Ne.symm hne), zero_add]
      omega
  · have howed := hq.pendingRewards_le
    have hscal := Nat.mul_le_mul_left (precision * precision) hmoney
    have hliability := poolLiability_withDelegated (s.validatorPools v) pos.openTier total
    rw [← hpool] at hliability
    rw [hpos, positionLiability, LazyShares.owed_of_current (hacm _).symm, positionLiability]
    simp only [mul_add] at hscal howed ⊢
    omega
  · rw [hpos]
    exact hunb

theorem books_afterDelegate
    (htier : 0 < (s.positions v d).amount → tier = (s.positions v d).openTier)
    (hex : ExactAmount (s.validatorPools v) tier (q.amount + amount)) :
    ∃ g', Books (s.afterDelegate v d amount tier q) g' := by
  have hund := hq.undelegateAmount_eq
  have hunb := unbonding_of_settles h hq
  refine books_record h hq hreg ⟨fun u hu => setPool_of_ne _ _ hu, rfl⟩
    (fun u e hne => setPosition_of_ne _ _ hne) (setPosition_self _ v d _) (setPool_self _ v _)
    htier hex rfl rfl ?_ ?_ hunb
  · simp only [withAmount]
    omega
  · simp only [withAmount, afterDelegate, setPool, setPosition]
    omega

theorem books_afterRequest
    (hle : amount ≤ q.amount) (htot : amount ≤ (s.validatorPools v).delegated q.openTier)
    (hex : ExactAmount (s.validatorPools v) q.openTier (q.amount - amount)) :
    ∃ g', Books (s.afterRequest v d amount q) g' := by
  refine books_record h hq hreg ⟨fun u hu => setPool_of_ne _ _ hu, rfl⟩
    (fun u e hne => setPosition_of_ne _ _ hne) (setPosition_self _ v d _) (setPool_self _ v _)
    (fun _ => hq.openTier_eq) hex rfl rfl ?_ ?_ fun hzero => ?_
  · simp only [withAmount]
    omega
  · simp only [withAmount, afterRequest, setPool, setPosition]
    omega
  · have := s.config.unbonding_pos
    simp only at hzero
    omega

theorem books_afterClaim (hle : q.pendingRewards ≤ s.balance)
    (hex : ExactAmount (s.validatorPools v) q.openTier q.amount) :
    ∃ g', Books (s.afterClaim v d q) g' := by
  have hrew := hq.rewardDebt_eq
  have hund := hq.undelegateAmount_eq
  have hunb := unbonding_of_settles h hq
  rw [← hq.openTier_eq] at hrew
  refine books_record h hq hreg ⟨fun _ _ => rfl, rfl⟩
    (fun u e hne => setPosition_of_ne _ _ hne) (setPosition_self _ v d _)
    (withDelegated_self _ _).symm (fun _ => hq.openTier_eq) hex hq.slashDebt_eq hrew
    (le_refl _) ?_ hunb
  simp only [afterClaim, setPosition]
  omega

end

theorem books_delegateTier {paid : Bool}
    (hex : ExactAmount (s.validatorPools v) (tierOf (s.positions v d) isOpenTier)
      ((s.getEffectivePosition v d).1 + amount))
    (hok : s.delegateTier v d amount isOpenTier allow paid = .ok s') : ∃ g', Books s' g' := by
  obtain ⟨hreg, rfl⟩ := delegateTier_ok hok
  rw [getEffectivePosition_eq rfl] at hex
  refine books_afterDelegate h (settles_books h v d rfl) hreg ?_ hex
  intro hpos
  rw [tierOf, if_pos hpos]

theorem books_requestUndelegation (hex : ExactAmount (s.validatorPools v) (s.positions v d).openTier
      ((s.getEffectivePosition v d).1 - amount)) (hok : s.requestUndelegation v d amount = .ok s') :
    ∃ g', Books s' g' := by
  obtain ⟨q, hq, hreg, hle, htot, rfl⟩ := requestUndelegation_ok hok
  rw [getEffectivePosition_eq hq] at hex
  have hq := settles_books h v d hq
  rw [← hq.openTier_eq] at hex
  exact books_afterRequest h hq hreg hle htot hex

theorem books_claimDelegationRewards
    (hex : ExactAmount (s.validatorPools v) (s.positions v d).openTier
      (s.getEffectivePosition v d).1) (hok : s.claimDelegationRewards v d = .ok s') :
    ∃ g', Books s' g' := by
  obtain ⟨q, hq, hreg, hle, rfl⟩ := claimDelegationRewards_ok hok
  rw [getEffectivePosition_eq hq] at hex
  have hq := settles_books h v d hq
  rw [← hq.openTier_eq] at hex
  exact books_afterClaim h hq hreg hle hex

theorem books_completeUndelegation (hok : s.completeUndelegation v d = .ok s') :
    ∃ g', Books s' g' := by
  unfold completeUndelegation at hok
  simp only [ite_error_eq_ok] at hok
  obtain ⟨hle, rfl⟩ := transfer_ok hok.2.2
  refine ⟨_, h.site v d (g v d) ⟨fun _ _ => rfl, rfl⟩
    (fun u e hne => setPosition_of_ne _ _ hne) rfl (fun _ => rfl) (fun _ => rfl) ?_ ?_
    (h.slash_le v d) ?_ ?_ ?_ ?_⟩
  · simp only [setPosition_self]
    exact h.slashDebt v d
  · simp only [setPosition_self]
    exact h.rewardDebt v d
  · simp only [setPosition_self]
    exact h.reward_le v d
  · intro t
    simp only [setPosition_self]
    exact le_refl _
  · simp only [setPosition_self, positionLiability]
    have hmoney : s.balance ≤ (s.positions v d).undelegateAmount +
        (s.balance - (s.positions v d).undelegateAmount) := by omega
    have hscal := Nat.mul_le_mul_left (precision * precision) hmoney
    simp only [setPosition, mul_add, mul_zero] at hscal ⊢
    omega
  · simp only [setPosition_self, implies_true]

theorem books_claimCommission (hok : s.claimCommission v = .ok s') : ∃ g', Books s' g' := by
  unfold claimCommission at hok
  simp only [ite_error_eq_ok] at hok
  obtain ⟨hreg, -, hok⟩ := hok
  obtain ⟨hle, rfl⟩ := transfer_ok hok
  -- no position changes, so any of them will do
  refine ⟨_, h.site v 0 (g v 0) ⟨fun u hu => setPool_of_ne _ _ hu, rfl⟩
    (fun _ _ _ => rfl) ?_ ?_ (fun hno => ?_) (h.slashDebt v 0) (h.rewardDebt v 0) (h.slash_le v 0)
    (h.reward_le v 0) ?_ ?_ (h.unbonding v 0)⟩
  · simp only [setPool_self]
  · intro t
    simp only [setPool_self]
    rfl
  · simp [hno] at hreg
  · intro t
    simp only [setPool_self]
    exact le_refl _
  · simp only [setPool_self, poolLiability]
    have hmoney : s.balance ≤ (s.validatorPools v).pendingValidatorRewards +
        (s.balance - (s.validatorPools v).pendingValidatorRewards) := by omega
    have hscal := Nat.mul_le_mul_left (precision * precision) hmoney
    have hsame : ∀ pool : ValidatorPool, positionLiability
        { pool with pendingValidatorRewards := 0 } (s.positions v 0) (g v 0) =
          positionLiability pool (s.positions v 0) (g v 0) := fun _ => rfl
    simp only [setPool, hsame, totalAll, mul_add, mul_zero] at hscal ⊢
    omega

end

/-! ### Rewards and slashes -/

/-- What a distribution does to a pool: the increments are paid for by the amount. -/
structure Distributes (pool pool' : ValidatorPool) (increment : Bool → Nat) (amount : Nat) :
    Prop where
  slash_eq : pool'.slashPerShareAccum = pool.slashPerShareAccum
  accum_eq : ∀ t, pool'.accum t = pool.accum t + increment t
  delegated_eq : ∀ t, pool'.delegated t = pool.delegated t
  paid : precision * pool'.pendingValidatorRewards +
      (pool.delegated false * increment false + pool.delegated true * increment true) ≤
    precision * (pool.pendingValidatorRewards + amount)

theorem Distributes.toCommission (pool : ValidatorPool) (amount : Nat) :
    Distributes pool
      { pool with pendingValidatorRewards := pool.pendingValidatorRewards + amount } (fun _ => 0)
      amount :=
  ⟨rfl, fun _ => rfl, fun _ => rfl, by simp⟩

variable {pool pool' : ValidatorPool}

theorem Distributes.trans {pool'' : ValidatorPool} {inc' : Bool → Nat} {amount amt' : Nat}
    (h : Distributes pool pool' inc amount) (h' : Distributes pool' pool'' inc' amt') :
    Distributes pool pool'' (fun t => inc t + inc' t) (amount + amt') where
  slash_eq := h'.slash_eq.trans h.slash_eq
  accum_eq := fun t => by rw [h'.accum_eq, h.accum_eq, add_assoc]
  delegated_eq := fun t => (h'.delegated_eq t).trans (h.delegated_eq t)
  paid := by
    have hpaid := h.paid
    have hpaid' := h'.paid
    simp only [h.delegated_eq, mul_add] at hpaid hpaid' ⊢
    omega

theorem distributes_raise {rewards inc : Nat} (commission : Nat)
    (h : pool.delegated tier * inc ≤ rewards * precision) : Distributes pool (if tier then
        { pool with
          pendingValidatorRewards := pool.pendingValidatorRewards + commission
          openRewardPerShareAccum := pool.openRewardPerShareAccum + inc } else { pool with
          pendingValidatorRewards := pool.pendingValidatorRewards + commission
          rewardPerShareAccum := pool.rewardPerShareAccum + inc })
      (fun t => if t = tier then inc else 0) (commission + rewards) := by
  have hpaid : precision * (pool.pendingValidatorRewards + commission) + pool.delegated tier * inc ≤
        precision * (pool.pendingValidatorRewards + (commission + rewards)) := by
    simp only [mul_add, mul_comm precision rewards]
    omega
  cases tier
  · refine ⟨rfl, fun t => ?_, fun t => ?_, ?_⟩
    · cases t <;> rfl
    · cases t <;> rfl
    · simpa using hpaid
  · refine ⟨rfl, fun t => ?_, fun t => ?_, ?_⟩
    · cases t <;> rfl
    · cases t <;> rfl
    · simpa using hpaid

theorem distributeTier_distributes {amount : Nat}
    (hok : distributeTier pool tier amount = .ok pool') :
    ∃ inc, Distributes pool pool' inc amount := by
  unfold distributeTier at hok
  split at hok
  · rename_i hzero
    cases hok
    subst hzero
    exact ⟨fun _ => 0, rfl, fun _ => rfl, fun _ => rfl, by simp⟩
  split at hok
  · cases hok
    exact ⟨_, Distributes.toCommission pool amount⟩
  · obtain ⟨rewards, hrews, hok⟩ := bind_eq_ok.mp hok
    cases hok
    have hraise := distributes_raise (amount * pool.commissionBps / maxCommissionBps)
      (Nat.mul_div_le (rewards * precision) (pool.delegated tier))
    rw [checkedSub_ok hrews] at hraise
    exact ⟨_, hraise⟩

theorem distributeInternal_distributes (hok : distributePoolRewardsInternal pool a b = .ok pool') :
    ∃ inc, Distributes pool pool' inc (a + b) := by
  unfold distributePoolRewardsInternal at hok
  split at hok
  · cases hok
    exact ⟨_, Distributes.toCommission pool (a + b)⟩
  · obtain ⟨middle, hmiddle, hok⟩ := bind_eq_ok.mp hok
    obtain ⟨_, h₁⟩ := distributeTier_distributes hmiddle
    obtain ⟨_, h₂⟩ := distributeTier_distributes hok
    exact ⟨_, h₁.trans h₂⟩

theorem books_setPool_distributes (h : Books s g) (hreg : s.poolRegistered v = true)
    (hd : Distributes (s.validatorPools v) pool' inc amount) :
    Books ({ s with balance := s.balance + amount }.setPool v pool') g := by
  have hpool : ({ s with balance := s.balance + amount }.setPool v pool').validatorPools v =
      pool' := setPool_self _ v _
  refine h.accrue inc ⟨fun u hu => setPool_of_ne _ _ hu, rfl⟩ rfl ?_ ?_ ?_ hreg ?_
  · rw [hpool]
    exact hd.slash_eq
  · rw [hpool]
    exact hd.accum_eq
  · rw [hpool]
    exact hd.delegated_eq
  · have hfalse := hd.delegated_eq false
    have htrue := hd.delegated_eq true
    have hscal := Nat.mul_le_mul_left precision hd.paid
    rw [hpool, poolLiability, poolLiability, totalAll_eq _ false, totalAll_eq _ false, hfalse,
      Bool.not_false, htrue]
    simp only [setPool, mul_add, ← mul_assoc] at hscal ⊢
    omega

/-- What a distribution does: the money arrives, and the pool takes it if it is registered. -/
def Received (s : PoolState) (v amount : Nat) (s' : PoolState) : Prop :=
  s' = { s with balance := s.balance + amount } ∨
    s.poolRegistered v = true ∧ ∃ pool' increment,
      Distributes (s.validatorPools v) pool' increment amount ∧
      s' = { s with balance := s.balance + amount }.setPool v pool'

theorem distributeTracks_received (hok : s.distributeTracks v a b = .ok s') :
    s.Received v (a + b) s' := by
  unfold distributeTracks at hok
  simp only at hok
  split at hok
  · cases hok
    exact .inl rfl
  split at hok
  · cases hok
    exact .inl rfl
  rename_i hreg
  obtain ⟨pool', hpool', hok⟩ := bind_eq_ok.mp hok
  cases hok
  obtain ⟨_, hd⟩ := distributeInternal_distributes hpool'
  exact .inr ⟨by simpa using hreg, pool', _, hd, rfl⟩

theorem distributePoolRewards_received (hok : s.distributePoolRewards v amount = .ok s') :
    s.Received v amount s' := by
  unfold distributePoolRewards at hok
  simp only at hok
  split at hok
  · cases hok
    exact .inl rfl
  split at hok
  · cases hok
    exact .inl rfl
  rename_i hreg
  refine .inr ⟨by simpa using hreg, ?_⟩
  split at hok
  · cases hok
    exact ⟨_, _, Distributes.toCommission _ amount, rfl⟩
  · obtain ⟨b, hb, hok⟩ := bind_eq_ok.mp hok
    obtain ⟨pool', hpool', hok⟩ := bind_eq_ok.mp hok
    cases hok
    obtain ⟨_, hd⟩ := distributeInternal_distributes hpool'
    rw [checkedSub_ok hb] at hd
    exact ⟨pool', _, hd, rfl⟩

theorem books_received (h : Books s g) (hrecv : s.Received v amount s') : Books s' g := by
  rcases hrecv with rfl | ⟨hreg, pool', inc, hd, rfl⟩
  · exact h.quiet (Nat.le_add_right _ _) rfl (fun _ => SameMoney.refl _) h.fresh
  · exact books_setPool_distributes h hreg hd

def ExactSlash (s : PoolState) (v amount : Nat) : Prop :=
  (s.validatorPools v).totalAll ∣ s.effectiveSlash v amount * precision ∧
    (s.validatorPools v).totalAll ∣ s.effectiveSlash v amount * (s.validatorPools v).totalDelegated

theorem applyPoolSlash_ok (hok : s.applyPoolSlash v amount = .ok s') :
    (s' = s ∧ (s.actualSlash v amount = 0 ∨ (s.validatorPools v).totalAll = 0)) ∨
      (s.poolRegistered v = true ∧ 0 < (s.validatorPools v).totalAll ∧
      ∃ slashA slashB, slashA = s.actualSlash v amount * (s.validatorPools v).totalDelegated /
          (s.validatorPools v).totalAll ∧
        slashA + slashB = s.actualSlash v amount ∧ slashA ≤ (s.validatorPools v).totalDelegated ∧
        slashB ≤ (s.validatorPools v).openTierDelegated ∧ s.actualSlash v amount ≤ s.balance ∧
        s' = { s.setPool v
            { s.validatorPools v with
              slashPerShareAccum :=
                (s.validatorPools v).slashPerShareAccum + s.slashPerShare v amount
              totalDelegated := (s.validatorPools v).totalDelegated - slashA
              openTierDelegated := (s.validatorPools v).openTierDelegated - slashB } with
          balance := s.balance - s.actualSlash v amount }) := by
  unfold applyPoolSlash at hok
  simp only at hok
  split at hok
  · rename_i hzero
    cases hok
    refine .inl ⟨rfl, .inl ?_⟩
    rw [actualSlash, slashPerShare, effectiveSlash, hzero, Nat.zero_min, zero_mul,
      Nat.zero_div, zero_mul, Nat.zero_div, ite_self]
  split at hok
  · rename_i hreg
    cases hok
    exact .inl ⟨rfl, .inl (if_neg (by simpa using hreg))⟩
  rename_i hreg
  split at hok
  · rename_i htot
    cases hok
    exact .inl ⟨rfl, .inr htot⟩
  rename_i htot
  obtain ⟨slashB, hslashB, hok⟩ := bind_eq_ok.mp hok
  obtain ⟨totalA, htotalA, hok⟩ := bind_eq_ok.mp hok
  obtain ⟨totalB, htotalB, hok⟩ := bind_eq_ok.mp hok
  obtain ⟨hle, rfl⟩ := transfer_ok hok
  unfold checkedSub at hslashB htotalA htotalB
  split at hslashB <;> cases hslashB
  split at htotalA <;> cases htotalA
  split at htotalB <;> cases htotalB
  exact .inr ⟨by simpa using hreg, Nat.pos_of_ne_zero htot, _, _, rfl, by omega, by
    assumption, by assumption, hle, rfl⟩

theorem actualSlash_of_exact (hreg : s.poolRegistered v = true) (hex : s.ExactSlash v amount) :
    s.slashPerShare v amount * (s.validatorPools v).totalAll =
        s.effectiveSlash v amount * precision ∧
      s.actualSlash v amount = s.effectiveSlash v amount := by
  have hsh : s.slashPerShare v amount * (s.validatorPools v).totalAll =
      s.effectiveSlash v amount * precision := Nat.div_mul_cancel hex.1
  refine ⟨hsh, ?_⟩
  rw [actualSlash, if_pos hreg, hsh]
  exact Nat.mul_div_cancel _ precision_pos

theorem scaled_sub_le {total part slash share part' : Nat} (htot : 0 < total)
    (hsh : share * total = slash * precision) (hpart : part' * total = slash * part) :
    part * (precision - share) ≤ (part - part') * precision := by
  have heq : part' * precision = part * share := by
    refine Nat.eq_of_mul_eq_mul_right htot ?_
    calc part' * precision * total = part' * total * precision := by ring
      _ = slash * precision * part := by rw [hpart]; ring
      _ = part * share * total := by rw [← hsh]; ring
  rw [Nat.mul_sub, Nat.sub_mul, heq]

theorem books_applyPoolSlash (h : Books s g) (hex : s.ExactSlash v amount)
    (hok : s.applyPoolSlash v amount = .ok s') : ∃ g', Books s' g' := by
  rcases applyPoolSlash_ok hok with ⟨rfl, _⟩ | ⟨hreg, htot, slashA, slashB, hA, hAB, hleA,
    hleB, hle, rfl⟩
  · exact ⟨g, h⟩
  obtain ⟨hsh, hactual⟩ := actualSlash_of_exact hreg hex
  rw [hactual] at hA hAB hle
  have hpartA : slashA * (s.validatorPools v).totalAll =
      s.effectiveSlash v amount * (s.validatorPools v).totalDelegated := by
    rw [hA]
    exact Nat.div_mul_cancel hex.2
  have hpartB : slashB * (s.validatorPools v).totalAll =
      s.effectiveSlash v amount * (s.validatorPools v).openTierDelegated := by
    have hsum : (slashA + slashB) * (s.validatorPools v).totalAll =
        s.effectiveSlash v amount * (s.validatorPools v).totalAll := by rw [hAB]
    have htotalAll : (s.validatorPools v).totalAll = (s.validatorPools v).totalDelegated +
        (s.validatorPools v).openTierDelegated := rfl
    rw [add_mul, hpartA] at hsum
    nth_rewrite 2 [htotalAll] at hsum
    rw [mul_add] at hsum
    omega
  refine ⟨g, h.slash (s.slashPerShare v amount)
    ⟨fun u hu => setPool_of_ne _ _ hu, rfl⟩ rfl ?_ ?_ ?_ hreg ?_⟩
  · simp only [setPool_self]
  · intro t
    simp only [setPool_self]
    rfl
  · intro t
    simp only [setPool_self]
    cases t
    · exact scaled_sub_le htot hsh hpartA
    · exact scaled_sub_le htot hsh hpartB
  · have hmoney : (s.validatorPools v).totalDelegated - slashA +
        ((s.validatorPools v).openTierDelegated - slashB) +
          (s.validatorPools v).pendingValidatorRewards + s.balance ≤
        (s.validatorPools v).totalDelegated + (s.validatorPools v).openTierDelegated +
          (s.validatorPools v).pendingValidatorRewards +
            (s.balance - s.effectiveSlash v amount) := by omega
    have hscal := Nat.mul_le_mul_left (precision * precision) hmoney
    simp only [setPool_self, poolLiability, totalAll, hactual]
    simp only [mul_add] at hscal ⊢
    omega

/-! ### Settings -/

/-- Settings change, but no money, no position and no pool that is not registered. -/
structure Configured (s s' : PoolState) : Prop where
  balance : s'.balance = s.balance := by rfl
  positions : s'.positions = s.positions := by rfl
  epoch : s'.currentEpoch = s.currentEpoch := by rfl
  registered : s'.poolRegistered = s.poolRegistered := by rfl
  pools : ∀ u, SameMoney (s.validatorPools u) (s'.validatorPools u) := by exact fun _ => .refl _
  fresh : ∀ u, s.poolRegistered u = false → s'.validatorPools u = s.validatorPools u := by
    exact fun _ _ => rfl

theorem Configured.of_pool {pendings : Nat → PendingCommission}
    (hv : ¬ (!s.poolRegistered v) = true) (hpool : SameMoney (s.validatorPools v) pool') :
    Configured s { s.setPool v pool' with pendingCommissions := pendings } := by
  refine ⟨rfl, rfl, rfl, rfl, fun u => ?_, fun u hu => ?_⟩
  · change SameMoney _ ((s.setPool v pool').validatorPools u)
    by_cases heq : u = v
    · subst heq
      rw [setPool_self]
      exact hpool
    · rw [setPool_of_ne _ _ heq]
      exact .refl _
  · have hne : u ≠ v := by
      rintro rfl
      simp [hu] at hv
    exact setPool_of_ne _ _ hne

theorem updateCommission_configured {bps : Nat} (hok : s.updateCommission v bps = .ok s') :
    Configured s s' := by
  unfold updateCommission at hok
  simp only [ite_error_eq_ok] at hok
  obtain ⟨hreg, -, hok⟩ := hok
  split at hok
  · simp only [ite_error_eq_ok] at hok
    obtain ⟨-, -, hok⟩ := hok
    cases hok
    exact {}
  · cases hok
    exact .of_pool hreg ⟨rfl, fun _ => rfl, fun _ => rfl, rfl⟩

theorem activatePendingCommission_configured (hok : s.activatePendingCommission v = .ok s') :
    Configured s s' := by
  unfold activatePendingCommission at hok
  simp only [ite_error_eq_ok] at hok
  obtain ⟨hreg, -, -, hok⟩ := hok
  cases hok
  exact .of_pool hreg ⟨rfl, fun _ => rfl, fun _ => rfl, rfl⟩

theorem cancelPendingCommission_configured (hok : s.cancelPendingCommission v = .ok s') :
    Configured s s' := by
  unfold cancelPendingCommission at hok
  simp only [ite_error_eq_ok] at hok
  obtain ⟨-, -, hok⟩ := hok
  cases hok
  exact {}

theorem setAcceptingDelegations_configured {accepting : Bool}
    (hok : s.setAcceptingDelegations v accepting = .ok s') : Configured s s' := by
  obtain ⟨hreg, hok⟩ := ite_error_eq_ok.mp hok
  cases hok
  exact .of_pool hreg ⟨rfl, fun _ => rfl, fun _ => rfl, rfl⟩

theorem books_configured (h : Books s g) (hc : Configured s s') : Books s' g := by
  refine h.quiet hc.balance.ge hc.positions hc.pools fun u hu => ?_
  rw [hc.registered] at hu
  rw [hc.fresh u hu]
  exact h.fresh u hu

theorem books_registerPool {bps : Nat} {active : Bool} (h : Books s g)
    (hok : s.registerPool v bps allow active = .ok s') : Books s' g := by
  unfold registerPool at hok
  simp only [ite_error_eq_ok] at hok
  obtain ⟨hreg, -, -, -, -, hok⟩ := hok
  have hfre := h.fresh v (by simpa using hreg)
  cases hok
  refine h.quiet (le_refl _) rfl (fun u => ?_) fun u hu => ?_
  · by_cases heq : u = v
    · subst heq
      simp only [setPool_self, hfre]
      exact ⟨rfl, fun _ => rfl, fun _ => rfl, rfl⟩
    · simp only [setPool_of_ne _ _ heq]
      exact .refl _
  · have hne : u ≠ v := by
      rintro rfl
      simp at hu
    simp only [setPool_of_ne _ _ hne]
    simp only [update_of_ne hne] at hu
    exact h.fresh u hu

end PoolState

end Axyl.DelegationPool
