import Axyl.Contracts.DelegationPool
import Axyl.Lib.LazyShares
import Axyl.Lib.SumBound

/-! The books of the delegation pool: what the pool owes, against what it holds. A position whose
debts are exact is an account that remembers the accumulators at its last settlement. -/

namespace Axyl.DelegationPool
open Function
open LazyShares (Account stake owed)

theorem precision_pos : 0 < precision := by
  decide

/-! ### Rounding -/

theorem le_accumulatedSlash_mul (amt s : Nat) : amt * s ≤ accumulatedSlash amt s * precision := by
  have hmod := Nat.mod_lt (amt * s + precision - 1) precision_pos
  have hdiv := Nat.div_add_mod (amt * s + precision - 1) precision
  rw [mul_comm] at hdiv
  unfold accumulatedSlash
  omega

theorem accumulatedSlash_mul_lt (amt s : Nat) :
    accumulatedSlash amt s * precision < amt * s + precision := by
  have hle := Nat.div_mul_le_self (amt * s + precision - 1) precision
  unfold accumulatedSlash
  have := precision_pos
  omega

theorem accumulatedSlash_of_dvd {amt s : Nat} (h : precision ∣ amt * s) :
    accumulatedSlash amt s * precision = amt * s := by
  obtain ⟨k, hk⟩ := h
  have hge := le_accumulatedSlash_mul amt s
  have hlt := accumulatedSlash_mul_lt amt s
  rw [hk, mul_comm precision k] at hge hlt ⊢
  have h₁ := Nat.le_of_mul_le_mul_right hge precision_pos
  have h₂ : accumulatedSlash amt s < k + 1 := by
    refine Nat.lt_of_mul_lt_mul_right (a := precision) ?_
    rw [add_mul]
    exact hlt
  rw [le_antisymm (by omega) h₁]

/-! ### Settlement -/

section
variable {pool : ValidatorPool} {pos : DelegatorPosition} {i j ep : Nat}

theorem settle_effectiveAmount_le (hsl : pos.slashDebt * precision = pos.amount * i) :
    (settleArithmetic pool pos ep).effectiveAmount * precision ≤
      stake precision pool.slashPerShareAccum ⟨pos.amount, i, j⟩ := by
  have hacc := le_accumulatedSlash_mul pos.amount pool.slashPerShareAccum
  unfold settleArithmetic stake
  simp only
  split
  · simp
  · rw [Nat.sub_mul, Nat.sub_mul, Nat.mul_sub, Nat.mul_sub]
    omega

theorem settle_rewardDelta_le (hamt : 0 < pos.amount)
    (hrew : pos.rewardDebt * precision = pos.amount * j) :
    (settleArithmetic pool pos ep).rewardDelta * precision ≤
      (settleArithmetic pool pos ep).effectiveAmount * (pool.accum pos.openTier - j) := by
  unfold settleArithmetic
  simp only
  split
  · simp
  · split
    · generalize accumulatedSlash pos.amount pool.slashPerShareAccum - pos.slashDebt = slash
      have hacc := Nat.div_mul_le_self ((pos.amount - slash) * pool.accum pos.openTier) precision
      rw [Nat.sub_mul, Nat.mul_sub (pos.amount - slash)]
      refine tsub_le_tsub hacc ?_
      split
      · -- the debt was scaled down with the amount and rounded up
        refine Nat.le_of_mul_le_mul_left (c := pos.amount) ?_ hamt
        have hmod := Nat.mod_lt (pos.rewardDebt * (pos.amount - slash) + pos.amount - 1) hamt
        have hdiv := Nat.div_add_mod (pos.rewardDebt * (pos.amount - slash) + pos.amount - 1)
          pos.amount
        have hge : pos.rewardDebt * (pos.amount - slash) ≤
            pos.amount * ((pos.rewardDebt * (pos.amount - slash) + pos.amount - 1) / pos.amount) := by
          omega
        calc pos.amount * ((pos.amount - slash) * j)
            = pos.rewardDebt * precision * (pos.amount - slash) := by rw [hrew]; ring
          _ = pos.rewardDebt * (pos.amount - slash) * precision := by ring
          _ ≤ _ := Nat.mul_le_mul_right precision hge
          _ = _ := by ring
      · rename_i hsl
        have hzero : slash = 0 := by omega
        rw [hzero, Nat.sub_zero, hrew]
    · simp

theorem accumulatedSlash_zero (s : Nat) : accumulatedSlash 0 s = 0 := by
  unfold accumulatedSlash
  rw [zero_mul]
  exact Nat.div_eq_of_lt (Nat.sub_lt precision_pos Nat.one_pos)

theorem settleArithmetic_debts : (settleArithmetic pool pos ep).newSlashDebt =
        accumulatedSlash (settleArithmetic pool pos ep).effectiveAmount pool.slashPerShareAccum ∧
      (settleArithmetic pool pos ep).newRewardDebt =
        (settleArithmetic pool pos ep).effectiveAmount * pool.accum pos.openTier / precision := by
  unfold settleArithmetic
  simp only
  split
  · exact ⟨(accumulatedSlash_zero _).symm, by rw [zero_mul, Nat.zero_div]⟩
  · exact ⟨rfl, rfl⟩

theorem settlePosition_of {r : Settlement} (hr : settleArithmetic pool pos ep = r)
    (hamt : 0 < pos.amount) : settlePosition pool pos ep = { pos with
        amount := r.effectiveAmount
        pendingRewards := pos.pendingRewards + r.rewardDelta
        rewardDebt := r.newRewardDebt
        slashDebt := r.newSlashDebt } := by
  unfold settlePosition
  rw [if_neg (by omega), hr]

/-- What settlement does to a position whose debts are those of an account. -/
structure Settles (pool : ValidatorPool) (pos : DelegatorPosition) (i j : Nat)
    (settled : DelegatorPosition) : Prop where
  amount_le : settled.amount * precision ≤
    stake precision pool.slashPerShareAccum ⟨pos.amount, i, j⟩
  pendingRewards_le : precision * precision * settled.pendingRewards ≤
    precision * precision * pos.pendingRewards +
      owed precision pool.slashPerShareAccum (pool.accum pos.openTier) ⟨pos.amount, i, j⟩
  slashDebt_eq : settled.slashDebt = accumulatedSlash settled.amount pool.slashPerShareAccum
  rewardDebt_eq : settled.rewardDebt = settled.amount * pool.accum pos.openTier / precision
  openTier_eq : settled.openTier = pos.openTier
  undelegateAmount_eq : settled.undelegateAmount = pos.undelegateAmount
  undelegateEpoch_eq : settled.undelegateEpoch = pos.undelegateEpoch

theorem settles_of {r : Settlement} (hr : settleArithmetic pool pos ep = r) (hamt : 0 < pos.amount)
    (heff : r.effectiveAmount * precision ≤
      stake precision pool.slashPerShareAccum ⟨pos.amount, i, j⟩)
    (hdelta : r.rewardDelta * precision ≤ r.effectiveAmount * (pool.accum pos.openTier - j))
    (hdebts : r.newSlashDebt = accumulatedSlash r.effectiveAmount pool.slashPerShareAccum ∧
      r.newRewardDebt = r.effectiveAmount * pool.accum pos.openTier / precision) :
    Settles pool pos i j (settlePosition pool pos ep) := by
  have hset := LazyShares.settled_le heff hdelta
  rw [mul_comm] at hset
  rw [settlePosition_of hr hamt]
  refine ⟨heff, ?_, hdebts.1, hdebts.2, rfl, rfl, rfl⟩
  rw [mul_add]
  omega

theorem settles (ep : Nat) (hsl : pos.slashDebt * precision = pos.amount * i)
    (hrew : pos.rewardDebt * precision = pos.amount * j) :
    Settles pool pos i j (settlePosition pool pos ep) := by
  rcases Nat.eq_zero_or_pos pos.amount with hzero | hpos
  · have heq : settlePosition pool pos ep = pos := by
      unfold settlePosition
      rw [if_pos hzero]
    rw [heq]
    rw [hzero, zero_mul] at hsl hrew
    have hsl := (Nat.mul_eq_zero.mp hsl).resolve_right (ne_of_gt precision_pos)
    have hrew := (Nat.mul_eq_zero.mp hrew).resolve_right (ne_of_gt precision_pos)
    refine ⟨?_, Nat.le_add_right _ _, ?_, ?_, rfl, rfl, rfl⟩
    · rw [hzero]
      omega
    · rw [hzero, hsl, accumulatedSlash_zero]
    · rw [hzero, hrew, zero_mul, Nat.zero_div]
  · exact settles_of rfl hpos (settle_effectiveAmount_le hsl)
      (settle_rewardDelta_le hpos hrew) settleArithmetic_debts

end

/-! ### What the pool owes -/

def tierStake (pool : ValidatorPool) (pos : DelegatorPosition) (index : Nat × Nat)
    (openTier : Bool) : Nat :=
  if pos.openTier = openTier then
    stake precision pool.slashPerShareAccum ⟨pos.amount, index.1, index.2⟩ else 0

def positionLiability (pool : ValidatorPool) (pos : DelegatorPosition) (index : Nat × Nat) : Nat :=
  precision * precision * (pos.undelegateAmount + pos.pendingRewards) +
    owed precision pool.slashPerShareAccum (pool.accum pos.openTier)
      ⟨pos.amount, index.1, index.2⟩

def poolLiability (pool : ValidatorPool) : Nat :=
  precision * precision * (pool.totalAll + pool.pendingValidatorRewards)

abbrev Indices := Nat → Nat → Nat × Nat

def Indices.set (g : Indices) (v d : Nat) (index : Nat × Nat) : Indices :=
  update g v (update (g v) d index)

/-- All debts are exact, the stake left in the positions of a tier is covered by its total, and
all the pool owes by its balance. -/
structure Books (s : PoolState) (g : Indices) : Prop where
  slashDebt : ∀ v d,
    (s.positions v d).slashDebt * precision = (s.positions v d).amount * (g v d).1
  rewardDebt : ∀ v d,
    (s.positions v d).rewardDebt * precision = (s.positions v d).amount * (g v d).2
  slash_le : ∀ v d, (g v d).1 ≤ (s.validatorPools v).slashPerShareAccum
  reward_le : ∀ v d, (g v d).2 ≤ (s.validatorPools v).accum (s.positions v d).openTier
  staked : ∀ v t, SumBounded (fun d => tierStake (s.validatorPools v) (s.positions v d) (g v d) t)
    (precision * (s.validatorPools v).delegated t)
  funded : SumBounded
    (Sum.elim (fun v => poolLiability (s.validatorPools v))
      fun q : Nat × Nat =>
        positionLiability (s.validatorPools q.1) (s.positions q.1 q.2) (g q.1 q.2))
    (precision * precision * s.balance)
  unbonding : ∀ v d, (s.positions v d).undelegateEpoch = 0 → (s.positions v d).undelegateAmount = 0
  fresh : ∀ v, s.poolRegistered v = false → s.validatorPools v = {}

section
variable {s s' : PoolState} {g : Indices}

theorem Indices.set_self (g : Indices) (v d : Nat) (index : Nat × Nat) :
    g.set v d index v d = index := by
  simp [Indices.set]

variable {v : Nat}

theorem Indices.set_of_ne (g : Indices) {d u e : Nat} (idx : Nat × Nat)
    (h : (u, e) ≠ (v, d)) : g.set v d idx u e = g u e := by
  unfold Indices.set
  by_cases hu : u = v
  · subst hu
    have he : e ≠ d := fun he => h (by rw [he])
    rw [update_self, update_of_ne he]
  · rw [update_of_ne hu]

/-- Only the pool of `v` may differ. -/
structure Beside (v : Nat) (s s' : PoolState) : Prop where
  pools : ∀ u, u ≠ v → s'.validatorPools u = s.validatorPools u
  registered : s'.poolRegistered = s.poolRegistered

theorem Books.fresh_beside (h : Books s g) (hsame : Beside v s s')
    (hfre : s.poolRegistered v = false → s'.validatorPools v = s.validatorPools v) (u : Nat)
    (hu : s'.poolRegistered u = false) : s'.validatorPools u = {} := by
  rw [hsame.registered] at hu
  by_cases heq : u = v
  · subst heq
    rw [hfre hu]
    exact h.fresh u hu
  · rw [hsame.pools u heq]
    exact h.fresh u hu

theorem Books.site (h : Books s g) (v d : Nat) (idx : Nat × Nat) (hsame : Beside v s s')
    (hposs : ∀ u e, (u, e) ≠ (v, d) → s'.positions u e = s.positions u e)
    (hsacc : (s'.validatorPools v).slashPerShareAccum = (s.validatorPools v).slashPerShareAccum)
    (hacm : ∀ t, (s'.validatorPools v).accum t = (s.validatorPools v).accum t)
    (hfre : s.poolRegistered v = false → s'.validatorPools v = s.validatorPools v)
    (hsl : (s'.positions v d).slashDebt * precision = (s'.positions v d).amount * idx.1)
    (hrew : (s'.positions v d).rewardDebt * precision = (s'.positions v d).amount * idx.2)
    (hslashIndex : idx.1 ≤ (s.validatorPools v).slashPerShareAccum)
    (hrewardIndex : idx.2 ≤ (s.validatorPools v).accum (s'.positions v d).openTier)
    (hstk : ∀ t, tierStake (s'.validatorPools v) (s'.positions v d) idx t +
        precision * (s.validatorPools v).delegated t ≤
      tierStake (s.validatorPools v) (s.positions v d) (g v d) t +
        precision * (s'.validatorPools v).delegated t)
    (hfunded : poolLiability (s'.validatorPools v) +
        positionLiability (s'.validatorPools v) (s'.positions v d) idx +
        precision * precision * s.balance ≤ poolLiability (s.validatorPools v) +
        positionLiability (s.validatorPools v) (s.positions v d) (g v d) +
        precision * precision * s'.balance) (hunb : (s'.positions v d).undelegateEpoch = 0 →
      (s'.positions v d).undelegateAmount = 0) : Books s' (g.set v d idx) := by
  -- the accumulators are the same for every position
  have haccums : ∀ u, (s'.validatorPools u).slashPerShareAccum =
      (s.validatorPools u).slashPerShareAccum ∧
      ∀ t, (s'.validatorPools u).accum t = (s.validatorPools u).accum t := by
    intro u
    by_cases hu : u = v
    · subst hu
      exact ⟨hsacc, hacm⟩
    · rw [hsame.pools u hu]
      exact ⟨rfl, fun _ => rfl⟩
  have hoth : ∀ {P : Nat → Nat → Prop}, P v d → (∀ u e, (u, e) ≠ (v, d) → P u e) →
      ∀ u e, P u e := by
    intro P hself hne u e
    by_cases heq : (u, e) = (v, d)
    · cases heq
      exact hself
    · exact hne u e heq
  constructor
  · refine hoth ?_ fun u e hne => ?_
    · rw [g.set_self]
      exact hsl
    · rw [hposs u e hne, g.set_of_ne _ hne]
      exact h.slashDebt u e
  · refine hoth ?_ fun u e hne => ?_
    · rw [g.set_self]
      exact hrew
    · rw [hposs u e hne, g.set_of_ne _ hne]
      exact h.rewardDebt u e
  · refine hoth ?_ fun u e hne => ?_
    · rw [g.set_self, hsacc]
      exact hslashIndex
    · rw [g.set_of_ne _ hne, (haccums u).1]
      exact h.slash_le u e
  · refine hoth ?_ fun u e hne => ?_
    · rw [g.set_self, hacm]
      exact hrewardIndex
    · rw [g.set_of_ne _ hne, (haccums u).2, hposs u e hne]
      exact h.reward_le u e
  · intro u t
    by_cases hu : u = v
    · subst hu
      refine (h.staked u t).update_one d (fun e he => ?_) ?_
      · have hne : (u, e) ≠ (u, d) := fun heq => he (congrArg Prod.snd heq)
        rw [hposs u e hne, g.set_of_ne _ hne, tierStake, tierStake, hsacc]
      · rw [g.set_self]
        exact hstk t
    · refine (h.staked u t).mono (fun e => ?_) ?_
      · have hne : (u, e) ≠ (v, d) := fun heq => hu (congrArg Prod.fst heq)
        rw [hposs u e hne, g.set_of_ne _ hne, hsame.pools u hu]
      · rw [hsame.pools u hu]
  · refine h.funded.update {.inl v, .inr (v, d)} ?_ ?_
    · rintro (u | ⟨u, e⟩) hnot
      · have hu : u ≠ v := fun hu => hnot (by simp [hu])
        simp only [Sum.elim_inl, hsame.pools u hu]
      · have hne : (u, e) ≠ (v, d) := fun heq => hnot (by simp [heq])
        simp only [Sum.elim_inr, hposs u e hne, g.set_of_ne _ hne, positionLiability,
          (haccums u).1, (haccums u).2]
    · rw [Finset.sum_pair (by simp)]
      simp only [Sum.elim_inl, Sum.elim_inr, g.set_self]
      exact hfunded
  · refine hoth hunb fun u e hne => ?_
    rw [hposs u e hne]
    exact h.unbonding u e
  · exact h.fresh_beside hsame hfre

structure SameMoney (pool pool' : ValidatorPool) : Prop where
  slash_eq : pool'.slashPerShareAccum = pool.slashPerShareAccum
  accum_eq : ∀ t, pool'.accum t = pool.accum t
  delegated_eq : ∀ t, pool'.delegated t = pool.delegated t
  rewards_eq : pool'.pendingValidatorRewards = pool.pendingValidatorRewards

theorem SameMoney.refl (pool : ValidatorPool) : SameMoney pool pool :=
  ⟨rfl, fun _ => rfl, fun _ => rfl, rfl⟩

theorem Books.of_positions (h : Books s g) (hposs : s'.positions = s.positions)
    (hsl : ∀ v, (s.validatorPools v).slashPerShareAccum ≤ (s'.validatorPools v).slashPerShareAccum)
    (hacm : ∀ v t, (s.validatorPools v).accum t ≤ (s'.validatorPools v).accum t)
    (hstk : ∀ v t, SumBounded
      (fun d => tierStake (s'.validatorPools v) (s'.positions v d) (g v d) t)
      (precision * (s'.validatorPools v).delegated t)) (hfunded : SumBounded
      (Sum.elim (fun v => poolLiability (s'.validatorPools v))
        fun q : Nat × Nat =>
          positionLiability (s'.validatorPools q.1) (s'.positions q.1 q.2) (g q.1 q.2))
      (precision * precision * s'.balance))
    (hfre : ∀ v, s'.poolRegistered v = false → s'.validatorPools v = {}) : Books s' g := by
  refine ⟨?_, ?_, fun v d => le_trans (h.slash_le v d) (hsl v), fun v d => ?_, hstk,
    hfunded, ?_, hfre⟩
  · rw [hposs]
    exact h.slashDebt
  · rw [hposs]
    exact h.rewardDebt
  · rw [hposs]
    exact le_trans (h.reward_le v d) (hacm v _)
  · rw [hposs]
    exact h.unbonding

theorem Books.quiet (h : Books s g) (hbal : s.balance ≤ s'.balance)
    (hposs : s'.positions = s.positions)
    (hpl : ∀ v, SameMoney (s.validatorPools v) (s'.validatorPools v))
    (hfre : ∀ v, s'.poolRegistered v = false → s'.validatorPools v = {}) : Books s' g := by
  have hsl := fun v => (hpl v).slash_eq
  have hacm := fun v => (hpl v).accum_eq
  have hpool : ∀ v, poolLiability (s'.validatorPools v) = poolLiability (s.validatorPools v) := by
    intro v
    have hfalse := (hpl v).delegated_eq false
    have htrue := (hpl v).delegated_eq true
    simp only [ValidatorPool.delegated, Bool.false_eq_true, if_false, if_true] at hfalse htrue
    rw [poolLiability, poolLiability, ValidatorPool.totalAll, ValidatorPool.totalAll, hfalse, htrue,
      (hpl v).rewards_eq]
  refine h.of_positions hposs (fun v => (hsl v).ge) (fun v t => (hacm v t).ge)
    (fun v t => ?_) (h.funded.mono ?_ (Nat.mul_le_mul_left _ hbal)) hfre
  · rw [(hpl v).delegated_eq]
    refine (h.staked v t).mono (fun d => ?_) (le_refl _)
    rw [hposs, tierStake, tierStake, hsl]
  · rintro (v | ⟨v, d⟩)
    · exact le_of_eq (hpool v)
    · simp only [Sum.elim_inr, positionLiability, hposs, hsl, hacm, le_refl]

theorem Books.accrue (h : Books s g) (inc : Bool → Nat) (hsame : Beside v s s')
    (hposs : s'.positions = s.positions)
    (hsacc : (s'.validatorPools v).slashPerShareAccum = (s.validatorPools v).slashPerShareAccum)
    (hacm : ∀ t, (s'.validatorPools v).accum t = (s.validatorPools v).accum t + inc t)
    (hdele : ∀ t, (s'.validatorPools v).delegated t = (s.validatorPools v).delegated t)
    (hv : s.poolRegistered v = true) (hfunded : poolLiability (s'.validatorPools v) +
        (precision * (s.validatorPools v).delegated false * inc false +
          precision * (s.validatorPools v).delegated true * inc true) +
        precision * precision * s.balance ≤
      poolLiability (s.validatorPools v) + precision * precision * s'.balance) : Books s' g := by
  have haccums : ∀ u, (s'.validatorPools u).slashPerShareAccum =
      (s.validatorPools u).slashPerShareAccum ∧
      ∀ t, (s'.validatorPools u).delegated t = (s.validatorPools u).delegated t := by
    intro u
    by_cases hu : u = v
    · subst hu
      exact ⟨hsacc, hdele⟩
    · rw [hsame.pools u hu]
      exact ⟨rfl, fun _ => rfl⟩
  refine h.of_positions hposs (fun u => (haccums u).1.ge) (fun u t => ?_) (fun u t => ?_) ?_
    (h.fresh_beside hsame fun hno => nomatch hv.symm.trans hno)
  · by_cases hu : u = v
    · subst hu
      rw [hacm]
      omega
    · rw [hsame.pools u hu]
  · rw [(haccums u).2]
    refine (h.staked u t).mono (fun d => ?_) (le_refl _)
    rw [hposs, tierStake, tierStake, (haccums u).1]
  · -- the rise on the stake left in the positions of the pool
    have hrise := (((h.staked v false).mul_right (inc false)).add
      ((h.staked v true).mul_right (inc true))).fiber v
    have hrise' := SumBounded.elim_iff.mpr fun (V : Finset Nat) Q =>
      show ∑ _ ∈ V, 0 + _ ≤ _ by
        rw [Finset.sum_const_zero, zero_add]
        exact hrise Q
    refine (h.funded.add hrise').update_one (.inl v) ?_ ?_
    · rintro (u | ⟨u, d⟩) hne
      · have hu : u ≠ v := fun hu => hne (by rw [hu])
        simp only [Sum.elim_inl, hsame.pools u hu, add_zero]
      · simp only [Sum.elim_inr, hposs]
        by_cases hu : u = v
        · subst hu
          rw [positionLiability, positionLiability, hsacc, hacm,
            LazyShares.owed_add (h.reward_le u d), tierStake, tierStake]
          cases (s.positions u d).openTier <;> simp [add_assoc]
        · rw [if_neg hu, hsame.pools u hu, add_zero]
    · simp only [Sum.elim_inl, add_zero]
      omega

theorem Books.slash (h : Books s g) (inc : Nat) (hsame : Beside v s s')
    (hposs : s'.positions = s.positions) (hsacc : (s'.validatorPools v).slashPerShareAccum =
      (s.validatorPools v).slashPerShareAccum + inc)
    (hacm : ∀ t, (s'.validatorPools v).accum t = (s.validatorPools v).accum t)
    (hdele : ∀ t, (s.validatorPools v).delegated t * (precision - inc) ≤
      (s'.validatorPools v).delegated t * precision) (hv : s.poolRegistered v = true)
    (hfunded : poolLiability (s'.validatorPools v) + precision * precision * s.balance ≤
      poolLiability (s.validatorPools v) + precision * precision * s'.balance) : Books s' g := by
  refine h.of_positions hposs (fun u => ?_) (fun u t => ?_) (fun u t => ?_) ?_
    (h.fresh_beside hsame fun hno => nomatch hv.symm.trans hno)
  · by_cases hu : u = v
    · subst hu
      rw [hsacc]
      omega
    · rw [hsame.pools u hu]
  · by_cases hu : u = v
    · subst hu
      rw [hacm]
    · rw [hsame.pools u hu]
  · by_cases hu : u = v
    · subst hu
      refine .of_mul_right precision_pos ?_
      refine ((h.staked u t).mul_right (precision - inc)).mono (fun d => ?_) ?_
      · rw [hposs, tierStake, tierStake, hsacc]
        split
        · exact LazyShares.stake_add_mul_le (h.slash_le u d) inc
        · simp
      · rw [mul_assoc, mul_assoc]
        exact Nat.mul_le_mul_left _ (hdele t)
    · rw [hsame.pools u hu, hposs]
      exact h.staked u t
  · have hless : SumBounded (Sum.elim (fun u => poolLiability (s.validatorPools u))
        fun q : Nat × Nat =>
          positionLiability (s'.validatorPools q.1) (s'.positions q.1 q.2) (g q.1 q.2))
        (precision * precision * s.balance) := by
      refine h.funded.mono ?_ (le_refl _)
      rintro (u | ⟨u, d⟩)
      · exact le_refl _
      · simp only [Sum.elim_inr, hposs]
        by_cases hu : u = v
        · subst hu
          rw [positionLiability, hsacc, hacm]
          exact Nat.add_le_add_left (LazyShares.owed_le_of_le (by omega)) _
        · rw [hsame.pools u hu]
    refine hless.update_one (.inl v) ?_ hfunded
    rintro (u | ⟨u, d⟩) hne
    · have hu : u ≠ v := fun hu => hne (by rw [hu])
      simp only [Sum.elim_inl, hsame.pools u hu]
    · simp only [Sum.elim_inr]

end

end Axyl.DelegationPool
