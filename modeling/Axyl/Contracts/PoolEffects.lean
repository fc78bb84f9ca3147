import Axyl.Contracts.PoolCalls

/-! What a call of the delegation pool can do to one position and to the sums its settlement
reads. -/

namespace Axyl.DelegationPool
open Function DelegatorPosition

def DelegatorPosition.bare (pos : DelegatorPosition) : DelegatorPosition :=
  { pos with undelegateEpoch := 0, undelegateAmount := 0 }

structure SameSums (pool pool' : ValidatorPool) : Prop where
  slash_eq : pool'.slashPerShareAccum = pool.slashPerShareAccum
  accum_eq : ∀ t, pool'.accum t = pool.accum t

def PoolCall.Records (v d : Nat) : PoolCall → Prop
  | .delegate u e _ _ _ | .delegateWithProof u e _ _ _ _ | .requestUndelegation u e _ =>
    u = v ∧ e = d
  | _ => False

inductive Effect (v d : Nat) (s s' : PoolState) (c : PoolCall) : Prop where
  | rest (position : (s'.positions v d).bare = (s.positions v d).bare)
      (pool : SameSums (s.validatorPools v) (s'.validatorPools v))
      (epoch : s'.currentEpoch = s.currentEpoch)
      (registered : s.poolRegistered v = true → s'.poolRegistered v = true)
  | accrue (registered : s'.poolRegistered v = true)
      (position : s'.positions v d = s.positions v d)
      (slash : (s'.validatorPools v).slashPerShareAccum =
        (s.validatorPools v).slashPerShareAccum)
      (accum : ∀ t, (s.validatorPools v).accum t ≤ (s'.validatorPools v).accum t)
      (epoch : s'.currentEpoch = s.currentEpoch)
  | register (new : s.poolRegistered v = false) (registered : s'.poolRegistered v = true)
      (position : s'.positions v d = s.positions v d)
      (slash : (s'.validatorPools v).slashPerShareAccum = 0)
      (accum : ∀ t, (s'.validatorPools v).accum t = 0)
      (epoch : s'.currentEpoch = s.currentEpoch)
  | slash (amount : Nat) (call : c = .applyPoolSlash v amount)
      (registered : s'.poolRegistered v = true)
      (position : s'.positions v d = s.positions v d)
      (slash : (s'.validatorPools v).slashPerShareAccum =
        (s.validatorPools v).slashPerShareAccum + s.slashPerShare v amount)
      (accum : ∀ t, (s'.validatorPools v).accum t = (s.validatorPools v).accum t)
      (epoch : s'.currentEpoch = s.currentEpoch)
  | claim (q : DelegatorPosition) (call : c = .claimDelegationRewards v d)
      (registered : s'.poolRegistered v = true) (settled : s.settledPosition v d = q)
      (position : s'.positions v d = { q with pendingRewards := 0 })
      (pool : s'.validatorPools v = s.validatorPools v)
      (epoch : s'.currentEpoch = s.currentEpoch)
  | record (q : DelegatorPosition) (call : c.Records v d)
      (registered : s'.poolRegistered v = true) (settled : s.settledPosition v d = q)
      (slashDebt : (s'.positions v d).slashDebt =
        accumulatedSlash (s'.positions v d).amount (s.validatorPools v).slashPerShareAccum)
      (rewardDebt : (s'.positions v d).rewardDebt = (s'.positions v d).amount *
        (s.validatorPools v).accum (s'.positions v d).openTier / precision)
      (pendingRewards : (s'.positions v d).pendingRewards = q.pendingRewards)
      (lastDelegateEpoch : (s'.positions v d).lastDelegateEpoch = s.currentEpoch ∨
        (∃ amount, c = .requestUndelegation v d amount) ∧
          (s'.positions v d).lastDelegateEpoch = (s.positions v d).lastDelegateEpoch)
      (pool : SameSums (s.validatorPools v) (s'.validatorPools v))
      (epoch : s'.currentEpoch = s.currentEpoch)
  | conclude (call : c = .concludeEpoch)
      (state : s' = { s with currentEpoch := s.currentEpoch + 1 })

theorem bare_eq {pos pos' : DelegatorPosition} (h : pos'.bare = pos.bare) :
    pos'.amount = pos.amount ∧ pos'.rewardDebt = pos.rewardDebt ∧
      pos'.pendingRewards = pos.pendingRewards ∧ pos'.slashDebt = pos.slashDebt ∧
      pos'.lastDelegateEpoch = pos.lastDelegateEpoch ∧ pos'.openTier = pos.openTier := by
  simp only [bare, mk.injEq, true_and] at h
  exact h

section
variable (pool : ValidatorPool)
include pool

theorem SameSums.refl : SameSums pool pool := ⟨rfl, fun _ => rfl⟩

theorem sameSums_withDelegated (t : Bool) (amount : Nat) :
    SameSums pool (pool.withDelegated t amount) :=
  ⟨PoolState.withDelegated_slashPerShareAccum pool t amount,
    fun u => PoolState.withDelegated_accum pool t u amount⟩

theorem settlePosition_lastDelegateEpoch (pos : DelegatorPosition)
    (epoch : Nat) : (settlePosition pool pos epoch).lastDelegateEpoch = pos.lastDelegateEpoch := by
  unfold settlePosition
  split <;> rfl

end

namespace PoolState
open Fallible (ite_error_eq_ok)

variable {s s' : PoolState} {v d u e amt : Nat} {c : PoolCall}

theorem effect_setPool {pool' : ValidatorPool}
    (hpl : s'.validatorPools = update s.validatorPools u pool')
    (h : SameSums (s.validatorPools u) pool')
    (hpos : (s'.positions v d).bare = (s.positions v d).bare)
    (hep : s'.currentEpoch = s.currentEpoch)
    (hreg : s'.poolRegistered = s.poolRegistered) : Effect v d s s' c := by
  refine .rest hpos ?_ hep fun hv => ?_
  · rw [hpl]
    by_cases hv : v = u
    · subst hv
      rw [update_self]
      exact h
    · rw [update_of_ne hv]
      exact .refl _
  · rw [hreg]
    exact hv

variable {allow : Bool}

theorem effect_record {q pos : DelegatorPosition} {t : Bool} {total bal : Nat} {ver : Nat → Bool}
    (hc : c.Records u e) (hreg : s.poolRegistered u = true) (hq : s.settledPosition u e = q)
    (hsl : pos.slashDebt = accumulatedSlash pos.amount (s.validatorPools u).slashPerShareAccum)
    (hrew : pos.rewardDebt = pos.amount * (s.validatorPools u).accum pos.openTier / precision)
    (hpend : pos.pendingRewards = q.pendingRewards)
    (hlast : pos.lastDelegateEpoch = s.currentEpoch ∨ (∃ amt, c = .requestUndelegation u e amt) ∧
      pos.lastDelegateEpoch = (s.positions u e).lastDelegateEpoch) :
    Effect v d s (({ s with balance := bal, whitelistVerified := ver }.setPosition u e pos).setPool u
      ((s.validatorPools u).withDelegated t total)) c := by
  have hsame := sameSums_withDelegated (s.validatorPools u) t total
  by_cases hne : (v, d) = (u, e)
  · cases hne
    rw [← setPosition_self { s with balance := bal, whitelistVerified := ver } v d pos]
      at hsl hrew hpend hlast
    refine .record q hc hreg hq hsl hrew hpend hlast ?_ rfl
    rw [setPool_self]
    exact hsame
  · exact effect_setPool rfl hsame (congrArg bare (setPosition_of_ne _ _ hne)) rfl rfl

theorem effect_delegateTier {isOpenTier paid : Bool} {ver : Nat → Bool} (hc : c.Records u e)
    (hok : { s with whitelistVerified := ver }.delegateTier u e amt isOpenTier allow paid = .ok s') :
    Effect v d s s' c := by
  obtain ⟨hreg, rfl⟩ := delegateTier_ok hok
  exact effect_record hc hreg rfl rfl rfl rfl (.inl rfl)

theorem effect_delegateWithProof {ver paid : Bool}
    (hok : s.delegateWithProof u e amt ver allow paid = .ok s') :
    Effect v d s s' (.delegateWithProof u e amt ver allow paid) := by
  unfold delegateWithProof at hok
  split at hok
  · split at hok
    · cases hok
    · exact effect_delegateTier ⟨rfl, rfl⟩ hok
  · have hsame : { s with whitelistVerified := s.whitelistVerified }.delegateTier u e amt false
        allow paid = .ok s' := hok
    exact effect_delegateTier ⟨rfl, rfl⟩ hsame

theorem effect_requestUndelegation (hok : s.requestUndelegation u e amt = .ok s') :
    Effect v d s s' (.requestUndelegation u e amt) := by
  obtain ⟨q, hq, hreg, -, -, rfl⟩ := requestUndelegation_ok hok
  refine effect_record ⟨rfl, rfl⟩ hreg hq rfl rfl rfl (.inr ⟨⟨amt, rfl⟩, ?_⟩)
  rw [← hq]
  exact settlePosition_lastDelegateEpoch _ _ _

theorem effect_claimDelegationRewards (hok : s.claimDelegationRewards u e = .ok s') :
    Effect v d s s' (.claimDelegationRewards u e) := by
  obtain ⟨_, hq, hreg, -, rfl⟩ := claimDelegationRewards_ok hok
  by_cases hne : (v, d) = (u, e)
  · cases hne
    exact .claim _ rfl hreg hq (setPosition_self _ v d _) rfl rfl
  · exact .rest (congrArg bare (setPosition_of_ne _ _ hne)) (SameSums.refl _) rfl fun h => h

theorem effect_completeUndelegation (hok : s.completeUndelegation u e = .ok s') :
    Effect v d s s' c := by
  unfold completeUndelegation at hok
  simp only [ite_error_eq_ok] at hok
  obtain ⟨_, rfl⟩ := transfer_ok hok.2.2
  refine .rest ?_ (SameSums.refl _) rfl fun h => h
  by_cases hne : (v, d) = (u, e)
  · cases hne
    simp only [setPosition_self]
    rfl
  · simp only [setPosition_of_ne _ _ hne]

theorem effect_claimCommission (hok : s.claimCommission u = .ok s') : Effect v d s s' c := by
  unfold claimCommission at hok
  simp only [ite_error_eq_ok] at hok
  obtain ⟨_, rfl⟩ := transfer_ok hok.2.2
  exact effect_setPool rfl ⟨rfl, fun _ => rfl⟩ rfl rfl rfl

theorem effect_configured (hc : Configured s s') : Effect v d s s' c := by
  refine .rest (by rw [hc.positions]) ⟨(hc.pools v).slash_eq, (hc.pools v).accum_eq⟩ hc.epoch ?_
  rw [hc.registered]
  exact fun h => h

theorem effect_registerPool {bps : Nat} {active : Bool}
    (hok : s.registerPool u bps allow active = .ok s') : Effect v d s s' c := by
  unfold registerPool at hok
  simp only [ite_error_eq_ok] at hok
  obtain ⟨hnew, -, -, -, -, hok⟩ := hok
  cases hok
  by_cases hv : v = u
  · subst hv
    refine .register (by simpa using hnew) (update_self ..) rfl ?_ (fun t => ?_) rfl
    · rw [setPool_self]
    · rw [setPool_self]
      cases t <;> rfl
  · refine .rest rfl ?_ rfl fun h => ?_
    · rw [setPool_of_ne _ _ hv]
      exact .refl _
    · simp only [update_of_ne hv]
      exact h

theorem effect_received (h : s.Received u amt s') : Effect v d s s' c := by
  rcases h with rfl | ⟨hreg, pool', inc, hd, rfl⟩
  · exact .rest rfl (SameSums.refl _) rfl fun h => h
  by_cases hv : v = u
  · subst hv
    refine .accrue hreg rfl ?_ (fun t => ?_) rfl
    · rw [setPool_self]
      exact hd.slash_eq
    · rw [setPool_self, hd.accum_eq]
      omega
  · refine .rest rfl ?_ rfl fun h => h
    rw [setPool_of_ne _ _ hv]
    exact .refl _

theorem effect_applyPoolSlash (hok : s.applyPoolSlash u amt = .ok s') :
    Effect v d s s' (.applyPoolSlash u amt) := by
  rcases applyPoolSlash_ok hok with ⟨rfl, _⟩ | ⟨hreg, _, _, _, _, _, _, _, _, rfl⟩
  · exact .rest rfl (SameSums.refl _) rfl fun h => h
  by_cases hv : v = u
  · subst hv
    refine .slash amt rfl hreg rfl ?_ (fun t => ?_) rfl
    · simp only [setPool_self]
    · simp only [setPool_self]
      rfl
  · refine .rest rfl ?_ rfl fun h => h
    simp only [setPool_of_ne _ _ hv]
    exact .refl _

theorem effect (hok : s.call c = .ok s') (v d : Nat) : Effect v d s s' c := by
  cases c with
  | registerPool u bps allow active => exact effect_registerPool hok
  | updateCommission u bps => exact effect_configured (updateCommission_configured hok)
  | activatePendingCommission u => exact effect_configured (activatePendingCommission_configured hok)
  | cancelPendingCommission u => exact effect_configured (cancelPendingCommission_configured hok)
  | setAcceptingDelegations u accepting =>
    exact effect_configured (setAcceptingDelegations_configured hok)
  | claimCommission u => exact effect_claimCommission hok
  | delegate u e amt allow paid =>
    have hsame : { s with whitelistVerified := s.whitelistVerified }.delegateTier u e amt
        (s.whitelistEnabled && !s.whitelistVerified e) allow paid = .ok s' := hok
    exact effect_delegateTier ⟨rfl, rfl⟩ hsame
  | delegateWithProof u e amt ver allow paid =>
    exact effect_delegateWithProof hok
  | requestUndelegation u e amt => exact effect_requestUndelegation hok
  | completeUndelegation u e => exact effect_completeUndelegation hok
  | claimDelegationRewards u e => exact effect_claimDelegationRewards hok
  | distributePoolRewards u amt => exact effect_received (distributePoolRewards_received hok)
  | distributeTracks u a b => exact effect_received (distributeTracks_received hok)
  | applyPoolSlash u amt => exact effect_applyPoolSlash hok
  | updateConfig | setWhitelistRoot | disableWhitelist =>
    cases hok
    exact effect_configured {}
  | concludeEpoch =>
    cases hok
    exact .conclude rfl rfl

end PoolState

/-! ### Settlement -/

section
variable {pool : ValidatorPool} {pos q : DelegatorPosition} {ep : Nat}

structure Current (pool : ValidatorPool) (pos : DelegatorPosition) : Prop where
  slashDebt : pos.slashDebt = accumulatedSlash pos.amount pool.slashPerShareAccum
  rewardDebt : pos.rewardDebt = pos.amount * pool.accum pos.openTier / precision

theorem effectiveAmount_eq : (settleArithmetic pool pos ep).effectiveAmount =
    pos.amount - (accumulatedSlash pos.amount pool.slashPerShareAccum - pos.slashDebt) := by
  unfold settleArithmetic
  simp only
  split
  · rename_i hall
    exact (Nat.sub_eq_zero_of_le hall.2).symm
  · rfl

theorem settlePosition_amount_of {r : Settlement} (hr : settleArithmetic pool pos ep = r)
    (hpos : 0 < pos.amount) : (settlePosition pool pos ep).amount = r.effectiveAmount := by
  rw [settlePosition_of hr hpos]

theorem settlePosition_amount : (settlePosition pool pos ep).amount =
    pos.amount - (accumulatedSlash pos.amount pool.slashPerShareAccum - pos.slashDebt) := by
  rcases Nat.eq_zero_or_pos pos.amount with hzero | hpos
  · unfold settlePosition
    rw [if_pos hzero, hzero, Nat.zero_sub]
  · exact (settlePosition_amount_of rfl hpos).trans effectiveAmount_eq

theorem current_of_settled {r : Settlement} (hr : settleArithmetic pool pos ep = r)
    (hq : settlePosition pool pos ep = q) (hpos : 0 < pos.amount) : Current pool q := by
  have hdebts := @settleArithmetic_debts pool pos ep
  rw [hr] at hdebts
  rw [settlePosition_of hr hpos] at hq
  subst hq
  exact ⟨hdebts.1, hdebts.2⟩

theorem current_settlePosition
    (hsl : pos.slashDebt ≤ accumulatedSlash pos.amount pool.slashPerShareAccum)
    (hrew : pos.rewardDebt ≤ pos.amount * pool.accum pos.openTier / precision)
    (hq : settlePosition pool pos ep = q) : Current pool q := by
  rcases Nat.eq_zero_or_pos pos.amount with hzero | hpos
  · unfold settlePosition at hq
    rw [if_pos hzero] at hq
    subst hq
    rw [hzero, accumulatedSlash_zero] at hsl
    rw [hzero, zero_mul] at hrew
    refine ⟨?_, ?_⟩
    · rw [hzero, accumulatedSlash_zero]
      omega
    · rw [hzero, zero_mul]
      exact Nat.le_zero.mp hrew
  · exact current_of_settled rfl hq hpos

end

/-! ### Runs -/

namespace PoolState
variable {s s' : PoolState} {v d : Nat} {c : PoolCall}

theorem accumulatedSlash_mono (amount : Nat) {i j : Nat} (h : i ≤ j) :
    accumulatedSlash amount i ≤ accumulatedSlash amount j := by
  refine Nat.div_le_div_right ?_
  have := Nat.mul_le_mul_left amount h
  omega

/-- No debt is above what its sum amounts to, and nothing was summed up before registration. -/
structure Sound (s : PoolState) (v d : Nat) : Prop where
  fresh : s.poolRegistered v = false → (s.validatorPools v).slashPerShareAccum = 0 ∧
    ∀ t, (s.validatorPools v).accum t = 0
  slashDebt_le : (s.positions v d).slashDebt ≤
    accumulatedSlash (s.positions v d).amount (s.validatorPools v).slashPerShareAccum
  rewardDebt_le : (s.positions v d).rewardDebt ≤
    (s.positions v d).amount * (s.validatorPools v).accum (s.positions v d).openTier / precision
  lastDelegateEpoch_le : (s.positions v d).lastDelegateEpoch ≤ s.currentEpoch

theorem Sound.of_current {pos : DelegatorPosition} (hreg : s'.poolRegistered v = true)
    (hpos : s'.positions v d = pos) (hcur : Current (s'.validatorPools v) pos)
    (hlast : pos.lastDelegateEpoch ≤ s'.currentEpoch) : Sound s' v d where
  fresh := by
    intro hno
    rw [hreg] at hno
    cases hno
  slashDebt_le := by
    rw [hpos]
    exact le_of_eq hcur.slashDebt
  rewardDebt_le := by
    rw [hpos]
    exact le_of_eq hcur.rewardDebt
  lastDelegateEpoch_le := by
    rw [hpos]
    exact hlast

theorem Sound.of_bare (h : Sound s v d) (hpos : (s'.positions v d).bare = (s.positions v d).bare)
    (hsl : (s.validatorPools v).slashPerShareAccum ≤ (s'.validatorPools v).slashPerShareAccum)
    (hacm : ∀ t, (s.validatorPools v).accum t ≤ (s'.validatorPools v).accum t)
    (hep : s.currentEpoch ≤ s'.currentEpoch)
    (hfre : s'.poolRegistered v = false → (s'.validatorPools v).slashPerShareAccum = 0 ∧
      ∀ t, (s'.validatorPools v).accum t = 0) : Sound s' v d := by
  obtain ⟨hamt, hrewardDebt, _, hslashDebt, hlast, hopenTier⟩ := bare_eq hpos
  refine ⟨hfre, ?_, ?_, ?_⟩
  · rw [hslashDebt, hamt]
    exact le_trans h.slashDebt_le (accumulatedSlash_mono _ hsl)
  · rw [hrewardDebt, hamt, hopenTier]
    exact le_trans h.rewardDebt_le (Nat.div_le_div_right (Nat.mul_le_mul_left _ (hacm _)))
  · rw [hlast]
    exact le_trans h.lastDelegateEpoch_le hep

theorem Sound.effect (h : Sound s v d) (he : Effect v d s s' c) : Sound s' v d := by
  have hreg' {p : Prop} (h : s'.poolRegistered v = true) (h' : s'.poolRegistered v = false) :
      p := by
    rw [h] at h'
    cases h'
  cases he with
  | rest position pool epoch reg =>
    refine h.of_bare position (le_of_eq pool.slash_eq.symm)
      (fun t => le_of_eq (pool.accum_eq t).symm) (by omega) fun hno => ?_
    have hfre : s.poolRegistered v = false := by
      cases hv : s.poolRegistered v with
      | false => rfl
      | true => exact hreg' (reg hv) hno
    rw [pool.slash_eq]
    exact ⟨(h.fresh hfre).1, fun t => (pool.accum_eq t).trans ((h.fresh hfre).2 t)⟩
  | accrue reg position slash accum epoch =>
    exact h.of_bare (congrArg _ position) (by omega) accum (by omega) (hreg' reg)
  | register new reg position slash accum epoch =>
    refine h.of_bare (congrArg _ position) ?_ (fun t => ?_) (by omega) (hreg' reg)
    · rw [(h.fresh new).1]
      exact Nat.zero_le _
    · rw [(h.fresh new).2 t]
      exact Nat.zero_le _
  | slash amount call reg position slash accum epoch =>
    refine h.of_bare (congrArg _ position) ?_ (fun t => le_of_eq (accum t).symm)
      (le_of_eq epoch.symm) (hreg' reg)
    rw [slash]
    omega
  | claim q call reg settled position pool epoch =>
    have hcur := current_settlePosition h.slashDebt_le h.rewardDebt_le settled
    refine .of_current reg position ?_ ?_
    · rw [pool]
      exact ⟨hcur.slashDebt, hcur.rewardDebt⟩
    · have hlast : (s.settledPosition v d).lastDelegateEpoch = _ :=
        settlePosition_lastDelegateEpoch _ _ _
      rw [settled] at hlast
      rw [epoch]
      exact hlast ▸ h.lastDelegateEpoch_le
  | record q call reg settled slashDebt rewardDebt pendingRewards last pool epoch =>
    refine .of_current reg rfl ⟨?_, ?_⟩ ?_
    · rw [pool.slash_eq]
      exact slashDebt
    · rw [pool.accum_eq]
      exact rewardDebt
    · rw [epoch]
      rcases last with hlast | ⟨_, hlast⟩
      · omega
      · rw [hlast]
        exact h.lastDelegateEpoch_le
  | conclude call st =>
    subst st
    exact { h with lastDelegateEpoch_le := Nat.le_succ_of_le h.lastDelegateEpoch_le }

theorem sound_init (config : DelegationConfig) (v d : Nat) : Sound { config } v d := by
  refine ⟨fun _ => ⟨rfl, fun t => ?_⟩, Nat.zero_le _, Nat.zero_le _, Nat.zero_le _⟩
  cases t <;> rfl

theorem step_of_ok (h : s.call c = .ok s') : s.step c = s' := by
  unfold step
  rw [h]

theorem step_of_error {e : PoolError} (h : s.call c = .error e) : s.step c = s := by
  unfold step
  rw [h]

theorem Sound.step (h : Sound s v d) (c : PoolCall) : Sound (s.step c) v d := by
  cases hcall : s.call c with
  | ok s' =>
    rw [step_of_ok hcall]
    exact h.effect (PoolState.effect hcall v d)
  | error _ =>
    rw [step_of_error hcall]
    exact h

theorem Sound.run (h : Sound s v d) (calls : List PoolCall) : Sound (s.run calls) v d := by
  induction calls generalizing s with
  | nil => exact h
  | cons c calls ih => exact ih (h.step c)

/-- No call makes a debt exceed what its sum amounts to. -/
theorem run_sound (config : DelegationConfig) (calls : List PoolCall) (v d : Nat) :
    Sound (({ config } : PoolState).run calls) v d := (sound_init config v d).run calls

/-! ### Pools that were never slashed -/

def Unslashed (s : PoolState) (v : Nat) : Prop := (s.validatorPools v).slashPerShareAccum = 0

theorem Unslashed.step (h : s.Unslashed v) (hc : ∀ amount, c ≠ .applyPoolSlash v amount) :
    (s.step c).Unslashed v := by
  cases hcall : s.call c with
  | error _ =>
    rw [step_of_error hcall]
    exact h
  | ok s' =>
    rw [step_of_ok hcall]
    -- the delegator does not matter here
    cases effect hcall v 0 with
    | rest position pool epoch reg => exact pool.slash_eq.trans h
    | accrue reg position slash accum epoch => exact slash.trans h
    | register new reg position slash accum epoch => exact slash
    | slash amount call reg position slash accum epoch => exact absurd call (hc amount)
    | claim q call reg settled position pool epoch =>
      rw [Unslashed, pool]
      exact h
    | record q call reg settled slashDebt rewardDebt pendingRewards last pool epoch =>
      exact pool.slash_eq.trans h
    | conclude call st =>
      subst st
      exact h

end PoolState

end Axyl.DelegationPool
