import Axyl.Contracts.PoolCalls

/-! The delegation pool can pay what it owes, in every run whose calls round nothing. -/

namespace Axyl.DelegationPool
open Finset Fallible

namespace PoolState

/-- The call rounds nothing: the debts it records are whole, and a slash divides evenly among the
shares and between the tiers. -/
def Exact (s : PoolState) : PoolCall → Prop
  | .delegate v d amount _ _ =>
    ExactAmount (s.validatorPools v)
      (tierOf (s.positions v d) (s.whitelistEnabled && !s.whitelistVerified d))
      ((s.getEffectivePosition v d).1 + amount)
  | .delegateWithProof v d amount _ _ _ =>
    ExactAmount (s.validatorPools v) (tierOf (s.positions v d) false)
      ((s.getEffectivePosition v d).1 + amount)
  | .requestUndelegation v d amount =>
    ExactAmount (s.validatorPools v) (s.positions v d).openTier
      ((s.getEffectivePosition v d).1 - amount)
  | .claimDelegationRewards v d =>
    ExactAmount (s.validatorPools v) (s.positions v d).openTier (s.getEffectivePosition v d).1
  | .applyPoolSlash v amount => s.ExactSlash v amount
  | _ => True

def ExactRun (s : PoolState) : List PoolCall → Prop
  | [] => True
  | c :: calls => s.Exact c ∧ (s.step c).ExactRun calls

variable {s s' : PoolState} {g : Indices}

theorem books_delegateWithProof {v d amt : Nat} {ver allowlisted paid : Bool} (h : Books s g)
    (hex : ExactAmount (s.validatorPools v) (tierOf (s.positions v d) false)
      ((s.getEffectivePosition v d).1 + amt))
    (hok : s.delegateWithProof v d amt ver allowlisted paid = .ok s') : ∃ g', Books s' g' := by
  unfold delegateWithProof at hok
  split at hok
  · split at hok
    · cases hok
    · have h' : Books { s with whitelistVerified := Function.update s.whitelistVerified d true } g :=
        books_configured h {}
      refine books_delegateTier h' ?_ hok
      exact hex
  · exact books_delegateTier h hex hok

theorem books_call {c : PoolCall} (h : Books s g) (hex : s.Exact c)
    (hok : s.call c = .ok s') : ∃ g', Books s' g' := by
  cases c with
  | registerPool => exact ⟨g, books_registerPool h hok⟩
  | updateCommission => exact ⟨g, books_configured h (updateCommission_configured hok)⟩
  | activatePendingCommission =>
    exact ⟨g, books_configured h (activatePendingCommission_configured hok)⟩
  | cancelPendingCommission =>
    exact ⟨g, books_configured h (cancelPendingCommission_configured hok)⟩
  | setAcceptingDelegations =>
    exact ⟨g, books_configured h (setAcceptingDelegations_configured hok)⟩
  | claimCommission => exact books_claimCommission h hok
  | delegate => exact books_delegateTier h hex hok
  | delegateWithProof => exact books_delegateWithProof h hex hok
  | requestUndelegation => exact books_requestUndelegation h hex hok
  | completeUndelegation => exact books_completeUndelegation h hok
  | claimDelegationRewards => exact books_claimDelegationRewards h hex hok
  | distributePoolRewards => exact ⟨g, books_received h (distributePoolRewards_received hok)⟩
  | distributeTracks => exact ⟨g, books_received h (distributeTracks_received hok)⟩
  | applyPoolSlash => exact books_applyPoolSlash h hex hok
  | updateConfig | setWhitelistRoot | disableWhitelist =>
    cases hok
    exact ⟨g, books_configured h {}⟩
  | concludeEpoch =>
    cases hok
    exact ⟨g, h.quiet (le_refl _) rfl (fun _ => SameMoney.refl _) h.fresh⟩

theorem books_step {c : PoolCall} (h : Books s g) (hex : s.Exact c) :
    ∃ g', Books (s.step c) g' := by
  unfold step
  split
  · rename_i hok
    exact books_call h hex hok
  · exact ⟨g, h⟩

theorem books_run {calls : List PoolCall} (h : Books s g) (hex : s.ExactRun calls) :
    ∃ g', Books (s.run calls) g' := by
  induction calls generalizing s g with
  | nil => exact ⟨g, h⟩
  | cons c calls ih =>
    obtain ⟨g', h'⟩ := books_step h hex.1
    exact ih h' hex.2

theorem books_init (config : DelegationConfig) : Books { config } fun _ _ => (0, 0) := by
  refine ⟨fun _ _ => by simp, fun _ _ => by simp, fun _ _ => Nat.le_refl _, fun _ _ => Nat.zero_le _,
    fun v t D => ?_, fun D => ?_, fun _ _ _ => rfl, fun _ _ => rfl⟩
  · simp [tierStake, LazyShares.stake]
  · refine Nat.le_trans (Nat.le_of_eq (sum_eq_zero ?_)) (Nat.zero_le _)
    rintro (v | q) _
    · simp [poolLiability, ValidatorPool.totalAll]
    · simp [positionLiability, LazyShares.owed, LazyShares.stake]

/-! ### What the books say of the views -/

section
variable (h : Books s g)
include h

theorem effective_tier_bounded (v : Nat) (t : Bool) :
    SumBounded (fun d => if (s.positions v d).openTier = t then (s.getEffectivePosition v d).1
      else 0) ((s.validatorPools v).delegated t) := by
  refine .of_mul_right precision_pos ?_
  refine (h.staked v t).mono (fun d => ?_) (le_of_eq (mul_comm _ _))
  rw [getEffectivePosition_eq rfl, tierStake]
  split
  · exact (settles_books h v d rfl).amount_le
  · simp

theorem effective_bounded (v : Nat) :
    SumBounded (fun d => (s.getEffectivePosition v d).1) (s.validatorPools v).totalAll := by
  refine ((effective_tier_bounded h v false).add (effective_tier_bounded h v true)).mono
    (fun d => ?_) (le_refl _)
  cases (s.positions v d).openTier <;> simp

theorem claims_le_liability (v d : Nat) :
    precision * precision * ((s.positions v d).undelegateAmount + (s.getEffectivePosition v d).2) ≤
      positionLiability (s.validatorPools v) (s.positions v d) (g v d) := by
  have hrews := (settles_books h v d rfl).pendingRewards_le
  rw [getEffectivePosition_eq rfl, positionLiability]
  simp only [mul_add] at hrews ⊢
  omega

theorem claims_bounded (V : Finset Nat) (Q : Finset (Nat × Nat)) :
    ∑ v ∈ V, (s.validatorPools v).pendingValidatorRewards +
        ∑ q ∈ Q, ((s.getEffectivePosition q.1 q.2).1 + (s.positions q.1 q.2).undelegateAmount +
          (s.getEffectivePosition q.1 q.2).2) ≤ s.balance := by
  have hfunded := SumBounded.elim_iff.mp h.funded (V ∪ Q.image Prod.fst) Q
  -- the stakes are those of the validators that occur
  have hstks : ∑ q ∈ Q, (s.getEffectivePosition q.1 q.2).1 ≤
      ∑ v ∈ Q.image Prod.fst, (s.validatorPools v).totalAll :=
    SumBounded.pairs (f := fun q => (s.getEffectivePosition q.1 q.2).1)
      (fun v => effective_bounded h v) Q
  have hstks' : ∑ v ∈ Q.image Prod.fst, (s.validatorPools v).totalAll ≤
      ∑ v ∈ V ∪ Q.image Prod.fst, (s.validatorPools v).totalAll :=
    sum_le_sum_of_subset subset_union_right
  have hcommissions : ∑ v ∈ V, (s.validatorPools v).pendingValidatorRewards ≤
      ∑ v ∈ V ∪ Q.image Prod.fst, (s.validatorPools v).pendingValidatorRewards :=
    sum_le_sum_of_subset subset_union_left
  have hclaims : precision * precision * ∑ q ∈ Q, ((s.positions q.1 q.2).undelegateAmount +
      (s.getEffectivePosition q.1 q.2).2) ≤ ∑ q ∈ Q,
        positionLiability (s.validatorPools q.1) (s.positions q.1 q.2) (g q.1 q.2) := by
    rw [mul_sum]
    exact sum_le_sum fun q _ => claims_le_liability h q.1 q.2
  have hpl : ∑ v ∈ V ∪ Q.image Prod.fst, poolLiability (s.validatorPools v) =
      precision * precision * (∑ v ∈ V ∪ Q.image Prod.fst, (s.validatorPools v).totalAll +
        ∑ v ∈ V ∪ Q.image Prod.fst, (s.validatorPools v).pendingValidatorRewards) := by
    rw [← sum_add_distrib, mul_sum]
    rfl
  refine Nat.le_of_mul_le_mul_left (c := precision * precision) ?_
    (Nat.mul_pos precision_pos precision_pos)
  have hlower := Nat.mul_le_mul_left (precision * precision)
    (Nat.add_le_add (le_trans hstks hstks') hcommissions)
  rw [hpl] at hfunded
  simp only [sum_add_distrib, mul_add] at hfunded hlower hclaims ⊢
  omega

end

/-! ### Solvency -/

/-- The balance covers every claim, the effective amounts are within the totals, and no payout to a
position or a validator fails for want of them. -/
structure Solvent (s : PoolState) : Prop where
  funds : ∀ (V : Finset Nat) (Q : Finset (Nat × Nat)),
    ∑ v ∈ V, (s.validatorPools v).pendingValidatorRewards +
      ∑ q ∈ Q, ((s.getEffectivePosition q.1 q.2).1 + (s.positions q.1 q.2).undelegateAmount +
        (s.getEffectivePosition q.1 q.2).2) ≤ s.balance
  stakes : ∀ (v : Nat) (D : Finset Nat),
    ∑ d ∈ D, (s.getEffectivePosition v d).1 ≤ (s.validatorPools v).totalAll
  requestUndelegation : ∀ v d amount, s.requestUndelegation v d amount ≠ .error .underflow
  completeUndelegation : ∀ v d, s.completeUndelegation v d ≠ .error .transferFailed
  claimDelegationRewards : ∀ v d, s.claimDelegationRewards v d ≠ .error .transferFailed
  claimCommission : ∀ v, s.claimCommission v ≠ .error .transferFailed

theorem requestUndelegation_ne_underflow (h : Books s g) (v d amt : Nat) :
    s.requestUndelegation v d amt ≠ .error .underflow := by
  unfold PoolState.requestUndelegation
  refine ite_error_ne (by simp) (ite_error_ne (by simp) (ite_error_ne (by simp) ?_))
  simp only
  split
  · simp
  · rename_i hle
    -- the amount is within the effective amount, and that within the total of the tier
    have hbnd := (effective_tier_bounded h v (s.positions v d).openTier).le d
    rw [if_pos rfl, getEffectivePosition_eq rfl, ← (settles_books h v d rfl).openTier_eq] at hbnd
    have htot := le_trans (Nat.not_lt.mp hle) hbnd
    simp [checkedSub, DelegatorPosition.withAmount, htot, bind, Except.bind, pure, Except.pure]

theorem transfer_ne_transferFailed {t : PoolState} {amount : Nat} (h : amount ≤ t.balance) :
    t.transfer amount ≠ .error .transferFailed := by
  rw [transfer, if_pos h]
  exact nofun

theorem completeUndelegation_ne_transferFailed (h : Books s g) (v d : Nat) :
    s.completeUndelegation v d ≠ .error .transferFailed := by
  have hbnd := claims_bounded h ∅ {(v, d)}
  simp only [sum_empty, sum_singleton] at hbnd
  refine ite_error_ne (by simp) (ite_error_ne (by simp) (transfer_ne_transferFailed ?_))
  simp only [setPosition]
  omega

theorem claimDelegationRewards_ne_transferFailed (h : Books s g) (v d : Nat) :
    s.claimDelegationRewards v d ≠ .error .transferFailed := by
  have hbnd := claims_bounded h ∅ {(v, d)}
  simp only [sum_empty, sum_singleton, getEffectivePosition_eq rfl, settledPosition] at hbnd
  refine ite_error_ne (by simp) (ite_error_ne (by simp) (transfer_ne_transferFailed ?_))
  simp only [setPosition]
  omega

theorem claimCommission_ne_transferFailed (h : Books s g) (v : Nat) :
    s.claimCommission v ≠ .error .transferFailed := by
  have hbnd := claims_bounded h {v} ∅
  simp only [sum_empty, sum_singleton] at hbnd
  refine ite_error_ne (by simp) (ite_error_ne (by simp) (transfer_ne_transferFailed ?_))
  simp only [setPool]
  omega

theorem solvent_of_books (h : Books s g) : s.Solvent where
  funds := claims_bounded h
  stakes := fun v D => effective_bounded h v D
  requestUndelegation := requestUndelegation_ne_underflow h
  completeUndelegation := completeUndelegation_ne_transferFailed h
  claimDelegationRewards := claimDelegationRewards_ne_transferFailed h
  claimCommission := claimCommission_ne_transferFailed h

/-- The pool is solvent after every run of calls none of which rounds. -/
theorem run_solvent (config : DelegationConfig) (calls : List PoolCall)
    (h : ({ config } : PoolState).ExactRun calls) : (({ config } : PoolState).run calls).Solvent := by
  obtain ⟨_, hbooks⟩ := books_run (books_init config) h
  exact solvent_of_books hbooks

/-- Two equal stakes, a reward, and a slash of half of them before the first delegator claims and
leaves. -/
theorem run_solvent_halved : (smallPool.run
    [.registerPool 9 1000 true true, .delegate 9 1 100 true true, .delegate 9 2 100 true true,
      .concludeEpoch, .distributePoolRewards 9 200, .applyPoolSlash 9 100,
      .claimDelegationRewards 9 1, .requestUndelegation 9 1 50, .concludeEpoch,
      .completeUndelegation 9 1, .claimCommission 9]).Solvent :=
  run_solvent smallConfig _ <| And.intro trivial
    <| And.intro ⟨by decide +kernel, by decide +kernel⟩
    <| And.intro ⟨by decide +kernel, by decide +kernel⟩ <| And.intro trivial <| And.intro trivial
    <| And.intro ⟨by decide +kernel, by decide +kernel⟩
    <| And.intro ⟨by decide +kernel, by decide +kernel⟩
    <| And.intro ⟨by decide +kernel, by decide +kernel⟩ <| And.intro trivial <| And.intro trivial
    <| And.intro trivial trivial

/-- After a slash of a tenth three delegators enter with one unit each, whose debts are rounded up
to one. A slash of half then takes nothing from them. -/
def roundedRun : List PoolCall :=
  [.registerPool 9 0 true true, .delegate 9 1 10 true true, .applyPoolSlash 9 1,
    .delegate 9 2 1 true true, .delegate 9 3 1 true true, .delegate 9 4 1 true true,
    .applyPoolSlash 9 6]

/-- The positions are worth seven, the pool holds and tracks six, and the last to leave cannot. -/
theorem roundedRun_insolvent :
    let s := smallPool.run roundedRun
    ([1, 2, 3, 4].map fun d => (s.getEffectivePosition 9 d).1) = [4, 1, 1, 1] ∧
      s.balance = 6 ∧ (s.validatorPools 9).totalAll = 6 ∧
      Fallible.failure ((s.run [.requestUndelegation 9 2 1, .requestUndelegation 9 3 1,
        .requestUndelegation 9 4 1]).requestUndelegation 9 1 4) = some .underflow ∧
      ¬ s.Solvent := by
  intro s
  have hsum : ¬ ∑ d ∈ ({1, 2, 3, 4} : Finset Nat), (s.getEffectivePosition 9 d).1 ≤
      (s.validatorPools 9).totalAll := by
    decide +kernel
  exact ⟨by decide +kernel, by decide +kernel, by decide +kernel, by decide +kernel,
    fun h => hsum (h.stakes 9 {1, 2, 3, 4})⟩

end PoolState

end Axyl.DelegationPool
