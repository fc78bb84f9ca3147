import Axyl.Contracts.PoolEffects
import Mathlib.Algebra.Order.Field.Basic
import Mathlib.Algebra.Order.Field.Rat
import Mathlib.Algebra.Order.Ring.Abs

/-! How far slashes reach a position: a slash of a part of the pool should take the same part of
every position. -/

namespace Axyl.DelegationPool

/-- What is left of a unit of stake after slashes, each given by the amount taken and the total it
was taken from. -/
def kept (slashes : List (Nat × Nat)) : ℚ := (slashes.map fun x => 1 - (x.1 : ℚ) / x.2).prod

/-! ### Rounding -/

theorem drift_le {x y z f g ε δ : ℚ} (h₁ : |y - x * f| ≤ ε) (h₂ : |z - y * g| ≤ δ) (hg₀ : 0 ≤ g)
    (hg₁ : g ≤ 1) : |z - x * (f * g)| ≤ ε + δ := by
  have hspl : z - x * (f * g) = (z - y * g) + (y - x * f) * g := by ring
  have hscal : |(y - x * f) * g| ≤ ε := by
    rw [abs_mul, abs_of_nonneg hg₀]
    exact le_trans (mul_le_of_le_one_right (abs_nonneg _) hg₁) h₁
  calc |z - x * (f * g)| = |(z - y * g) + (y - x * f) * g| := by rw [hspl]
    _ ≤ |z - y * g| + |(y - x * f) * g| := abs_add_le _ _
    _ ≤ δ + ε := add_le_add h₂ hscal
    _ = ε + δ := add_comm _ _

theorem exists_loss (amount i : Nat) {share : Nat} (hsh : share ≤ precision) :
    ∃ loss, accumulatedSlash amount (i + share) = accumulatedSlash amount i + loss ∧
      loss ≤ amount ∧ loss * precision < amount * share + precision ∧
      amount * share < loss * precision + precision := by
  obtain ⟨loss, hloss⟩ := Nat.exists_eq_add_of_le
    (PoolState.accumulatedSlash_mono amount (Nat.le_add_right i share))
  have hge := le_accumulatedSlash_mul amount (i + share)
  have hlt := accumulatedSlash_mul_lt amount (i + share)
  have hge₀ := le_accumulatedSlash_mul amount i
  have hlt₀ := accumulatedSlash_mul_lt amount i
  rw [hloss, add_mul, mul_add] at hge hlt
  have hbnd := Nat.mul_le_mul_left amount hsh
  refine ⟨loss, hloss, ?_, by omega, by omega⟩
  refine Nat.le_of_lt_succ (Nat.lt_of_mul_lt_mul_right (a := precision) ?_)
  rw [Nat.succ_mul]
  omega

theorem loss_near {amount total taken share loss : Nat} (htot : 0 < total) (hamt : amount ≤ total)
    (htk : taken * precision ≤ share * total) (htk' : share * total < taken * precision + precision)
    (hloss : loss * precision < amount * share + precision)
    (hloss' : amount * share < loss * precision + precision) :
    |(amount : ℚ) * (taken / total) - loss| ≤ 2 := by
  have hP : (0 : ℚ) < precision := Nat.cast_pos.mpr precision_pos
  have hT : (0 : ℚ) < total := Nat.cast_pos.mpr htot
  have hpart : (taken : ℚ) / total ≤ share / precision := by
    rw [div_le_div_iff₀ hT hP]
    exact_mod_cast htk
  have hpart' : (share : ℚ) / precision ≤ taken / total + 1 / total := by
    rw [← add_div, div_le_div_iff₀ hP hT]
    have : (share : ℚ) * total < taken * precision + precision := by exact_mod_cast htk'
    linarith
  have hsh : (loss : ℚ) < amount * (share / precision) + 1 := by
    rw [← mul_div_assoc, ← sub_lt_iff_lt_add, lt_div_iff₀ hP]
    have : (loss : ℚ) * precision < amount * share + precision := by exact_mod_cast hloss
    linarith
  have hsh' : (amount : ℚ) * (share / precision) < loss + 1 := by
    rw [← mul_div_assoc, div_lt_iff₀ hP]
    have : (amount : ℚ) * share < loss * precision + precision := by exact_mod_cast hloss'
    linarith
  have hone : (amount : ℚ) * (1 / total) ≤ 1 := by
    rw [mul_one_div, div_le_one hT]
    exact_mod_cast hamt
  have hamt₀ : (0 : ℚ) ≤ amount := Nat.cast_nonneg _
  have hlow := mul_le_mul_of_nonneg_left hpart hamt₀
  have hhigh := mul_le_mul_of_nonneg_left hpart' hamt₀
  rw [abs_le]
  constructor <;> linarith

namespace PoolState
variable {s s' : PoolState} {v d amount : Nat} {c : PoolCall}

def slashOf (s : PoolState) (v : Nat) : PoolCall → List (Nat × Nat)
  | .applyPoolSlash u amount =>
    if u = v ∧ Fallible.failure (s.applyPoolSlash v amount) = none then
      [(s.actualSlash v amount, (s.validatorPools v).totalAll)] else []
  | _ => []

def slashes (s : PoolState) (v : Nat) : List PoolCall → List (Nat × Nat)
  | [] => []
  | c :: calls => s.slashOf v c ++ (s.step c).slashes v calls

/-- The delegator leaves the amount alone, and a slash finds the position within the pool and with
no earlier loss left to settle. -/
def Steady (s : PoolState) (v d : Nat) : PoolCall → Prop
  | .applyPoolSlash u _ => u = v →
    (s.positions v d).amount = (s.getEffectivePosition v d).1 ∧
      (s.positions v d).amount ≤ (s.validatorPools v).totalAll
  | c => ¬ c.Records v d

def SteadyRun (s : PoolState) (v d : Nat) : List PoolCall → Prop
  | [] => True
  | c :: calls => s.Steady v d c ∧ (s.step c).SteadyRun v d calls

theorem effective_eq (s : PoolState) (v d : Nat) : (s.getEffectivePosition v d).1 =
    (s.positions v d).amount - (accumulatedSlash (s.positions v d).amount
      (s.validatorPools v).slashPerShareAccum - (s.positions v d).slashDebt) := by
  rw [getEffectivePosition_eq rfl]
  exact settlePosition_amount

theorem effective_of_same (hamt : (s'.positions v d).amount = (s.positions v d).amount)
    (hdebt : (s'.positions v d).slashDebt = (s.positions v d).slashDebt)
    (hsl : (s'.validatorPools v).slashPerShareAccum = (s.validatorPools v).slashPerShareAccum) :
    (s'.getEffectivePosition v d).1 = (s.getEffectivePosition v d).1 := by
  rw [effective_eq, effective_eq, hamt, hdebt, hsl]

theorem effective_of_effect (h : Sound s v d) (he : Effect v d s s' c)
    (hsl : ∀ amount, c ≠ .applyPoolSlash v amount) (hrec : ¬ c.Records v d) :
    (s'.getEffectivePosition v d).1 = (s.getEffectivePosition v d).1 := by
  cases he with
  | rest pos pool ep reg =>
    obtain ⟨hamt, _, _, hdebt, _, _⟩ := bare_eq pos
    exact effective_of_same hamt hdebt pool.slash_eq
  | accrue reg pos slash accum ep =>
    exact effective_of_same (by rw [pos]) (by rw [pos]) slash
  | register new reg pos slash accum ep =>
    exact effective_of_same (by rw [pos]) (by rw [pos]) (slash.trans (h.fresh new).1.symm)
  | slash amount call reg pos slash accum ep => exact absurd call (hsl amount)
  | claim q call reg settled pos pool ep =>
    have hcur := current_settlePosition h.slashDebt_le h.rewardDebt_le settled
    rw [effective_eq, pos, pool, getEffectivePosition_eq settled]
    rw [hcur.slashDebt, Nat.sub_self, Nat.sub_zero]
  | record q call reg settled slashDebt rewardDebt pendingRewards last pool ep =>
    exact absurd call hrec
  | conclude call st =>
    subst st
    exact effective_of_same rfl rfl rfl

theorem slashPerShare_le (s : PoolState) (v amount : Nat) : s.slashPerShare v amount ≤ precision := by
  refine Nat.div_le_of_le_mul ?_
  exact Nat.mul_le_mul_right _ (min_le_right _ _)

theorem actualSlash_le (s : PoolState) (v amount : Nat) :
    s.actualSlash v amount ≤ (s.validatorPools v).totalAll := by
  unfold actualSlash
  split
  · refine Nat.div_le_of_le_mul ?_
    exact Nat.mul_le_mul_right _ (slashPerShare_le s v amount)
  · omega

theorem effective_of_slash (hamt : (s.positions v d).amount ≤ (s.validatorPools v).totalAll)
    (hdebt : (s.positions v d).slashDebt = accumulatedSlash (s.positions v d).amount
      (s.validatorPools v).slashPerShareAccum)
    (htot : 0 < (s.validatorPools v).totalAll) (hreg : s.poolRegistered v = true)
    (hpos : s'.positions v d = s.positions v d) (hsl : (s'.validatorPools v).slashPerShareAccum =
      (s.validatorPools v).slashPerShareAccum + s.slashPerShare v amount) :
    |((s'.getEffectivePosition v d).1 : ℚ) - (s.positions v d).amount *
      (1 - (s.actualSlash v amount : ℚ) / (s.validatorPools v).totalAll)| ≤ 2 := by
  obtain ⟨loss, hloss, hle, hsh, hsh'⟩ := exists_loss (s.positions v d).amount
    (s.validatorPools v).slashPerShareAccum (slashPerShare_le s v amount)
  have htk : s.actualSlash v amount = s.slashPerShare v amount *
      (s.validatorPools v).totalAll / precision := if_pos hreg
  have hnear := loss_near htot hamt (Nat.div_mul_le_self _ _)
    (Nat.lt_div_mul_add precision_pos) hsh hsh'
  rw [← htk] at hnear
  have heffv : (s'.getEffectivePosition v d).1 = (s.positions v d).amount - loss := by
    rw [effective_eq, hpos, hsl, hloss, hdebt, Nat.add_sub_cancel_left]
  rw [heffv, Nat.cast_sub hle]
  have hring : ((s.positions v d).amount : ℚ) - loss - (s.positions v d).amount *
      (1 - (s.actualSlash v amount : ℚ) / (s.validatorPools v).totalAll) =
        (s.positions v d).amount * ((s.actualSlash v amount : ℚ) /
          (s.validatorPools v).totalAll) - loss := by ring
  rw [hring]
  exact hnear

theorem kept_nil : kept [] = 1 := rfl

theorem kept_singleton (x : Nat × Nat) : kept [x] = 1 - (x.1 : ℚ) / x.2 := by
  simp [kept]

theorem kept_append (xs ys : List (Nat × Nat)) : kept (xs ++ ys) = kept xs * kept ys := by
  rw [kept, List.map_append, List.prod_append]
  rfl

theorem slashDebt_of_settled (h : Sound s v d)
    (hset : (s.positions v d).amount = (s.getEffectivePosition v d).1) :
    (s.positions v d).slashDebt = accumulatedSlash (s.positions v d).amount
      (s.validatorPools v).slashPerShareAccum := by
  have hle := h.slashDebt_le
  rw [effective_eq] at hset
  rcases Nat.eq_zero_or_pos (s.positions v d).amount with hzero | hpos
  · rw [hzero, accumulatedSlash_zero] at hle ⊢
    omega
  · omega

theorem effective_applyPoolSlash (h : Sound s v d)
    (hsteady : s.Steady v d (.applyPoolSlash v amount)) (hok : s.applyPoolSlash v amount = .ok s') :
    |((s'.getEffectivePosition v d).1 : ℚ) - (s.getEffectivePosition v d).1 *
      (1 - (s.actualSlash v amount : ℚ) / (s.validatorPools v).totalAll)| ≤ 2 := by
  obtain ⟨hset, hamt⟩ := hsteady rfl
  rcases applyPoolSlash_ok hok with ⟨rfl, hzero⟩ | ⟨hreg, htot, _, _, _, _, _, _, _, rfl⟩
  · have hfactor : (s'.actualSlash v amount : ℚ) / (s'.validatorPools v).totalAll = 0 := by
      rcases hzero with hzero | hzero
      · rw [hzero, Nat.cast_zero, zero_div]
      · rw [hzero, Nat.cast_zero, div_zero]
    rw [hfactor, sub_zero, mul_one, sub_self]
    exact zero_le_two
  · rw [← hset]
    refine effective_of_slash hamt (slashDebt_of_settled h hset) htot hreg rfl ?_
    simp only [setPool_self]

theorem slashOf_of_ne (h : ∀ amount, c ≠ .applyPoolSlash v amount) : s.slashOf v c = [] := by
  cases c with
  | applyPoolSlash u amount =>
    refine if_neg ?_
    rintro ⟨rfl, _⟩
    exact h amount rfl
  | _ => rfl

theorem Steady.not_records (h : s.Steady v d c) : ¬ c.Records v d := by
  cases c with
  | applyPoolSlash u amount => exact fun hrecords => hrecords
  | _ => exact h

theorem effective_step (h : Sound s v d) (hsteady : s.Steady v d c) :
    |(((s.step c).getEffectivePosition v d).1 : ℚ) - (s.getEffectivePosition v d).1 *
      kept (s.slashOf v c)| ≤ 2 * (s.slashOf v c).length := by
  have hsame {x y : Nat} (hxy : x = y) :
      |(x : ℚ) - y * kept []| ≤ 2 * ([] : List PoolCall).length := by
    rw [hxy, kept_nil, mul_one, sub_self, abs_zero, List.length_nil, Nat.cast_zero, mul_zero]
  by_cases hsl : ∀ amount, c ≠ .applyPoolSlash v amount
  · rw [slashOf_of_ne hsl]
    cases hcall : s.call c with
    | ok s' =>
      rw [step_of_ok hcall]
      exact hsame (effective_of_effect h (effect hcall v d) hsl hsteady.not_records)
    | error _ =>
      rw [step_of_error hcall]
      exact hsame rfl
  · obtain ⟨amount, hc⟩ := not_forall.mp hsl
    rw [not_not] at hc
    subst hc
    cases hslas : s.applyPoolSlash v amount with
    | ok s' =>
      have hcall : s.call (.applyPoolSlash v amount) = .ok s' := hslas
      have hof : s.slashOf v (.applyPoolSlash v amount) =
          [(s.actualSlash v amount, (s.validatorPools v).totalAll)] :=
        if_pos ⟨rfl, by rw [hslas]; rfl⟩
      rw [step_of_ok hcall, hof, kept_singleton, List.length_singleton, Nat.cast_one, mul_one]
      exact effective_applyPoolSlash h hsteady hslas
    | error e =>
      have hcall : s.call (.applyPoolSlash v amount) = .error e := hslas
      have hof : s.slashOf v (.applyPoolSlash v amount) = [] :=
        if_neg fun hnone => by rw [hslas] at hnone; cases hnone.2
      rw [step_of_error hcall, hof]
      exact hsame rfl

theorem kept_slashOf (s : PoolState) (v : Nat) (c : PoolCall) :
    0 ≤ kept (s.slashOf v c) ∧ kept (s.slashOf v c) ≤ 1 := by
  cases c with
  | applyPoolSlash u amount =>
    simp only [slashOf]
    split
    · rw [kept_singleton, sub_nonneg]
      refine ⟨div_le_one_of_le₀ ?_ (Nat.cast_nonneg _), sub_le_self _ (by positivity)⟩
      exact_mod_cast actualSlash_le s v amount
    · exact ⟨zero_le_one, le_refl _⟩
  | _ => exact ⟨zero_le_one, le_refl _⟩

theorem kept_slashes (s : PoolState) (v : Nat) (calls : List PoolCall) :
    0 ≤ kept (s.slashes v calls) ∧ kept (s.slashes v calls) ≤ 1 := by
  induction calls generalizing s with
  | nil => exact ⟨zero_le_one, le_refl _⟩
  | cons c calls ih =>
    rw [slashes, kept_append]
    obtain ⟨hlow, hhigh⟩ := kept_slashOf s v c
    obtain ⟨hlow', hhigh'⟩ := ih (s.step c)
    exact ⟨mul_nonneg hlow hlow', mul_le_one₀ hhigh hlow' hhigh'⟩

theorem effective_run {calls : List PoolCall} (h : Sound s v d) (hsteady : s.SteadyRun v d calls) :
    |(((s.run calls).getEffectivePosition v d).1 : ℚ) - (s.getEffectivePosition v d).1 *
      kept (s.slashes v calls)| ≤ 2 * (s.slashes v calls).length := by
  induction calls generalizing s with
  | nil =>
    rw [slashes, kept_nil, mul_one, List.length_nil, Nat.cast_zero, mul_zero]
    show |((s.getEffectivePosition v d).1 : ℚ) - (s.getEffectivePosition v d).1| ≤ 0
    rw [sub_self, abs_zero]
  | cons c calls ih =>
    obtain ⟨hfst, hrest⟩ := hsteady
    obtain ⟨hlow, hhigh⟩ := kept_slashes (s.step c) v calls
    have hdrift := drift_le (effective_step h hfst) (ih (h.step c) hrest) hlow hhigh
    rw [slashes, kept_append, List.length_append, Nat.cast_add, mul_add]
    exact hdrift

/-- From any state of the contract on, a position that its delegator leaves alone and that has
nothing to settle whenever the pool is slashed keeps the part of its worth that the pool keeps, and
two positions of one worth stay together. -/
theorem run_slashes (config : DelegationConfig) (before calls : List PoolCall) (v d : Nat)
    (h : (({ config } : PoolState).run before).SteadyRun v d calls) :
    let s := ({ config } : PoolState).run before
    |(((s.run calls).getEffectivePosition v d).1 : ℚ) -
        (s.getEffectivePosition v d).1 * kept (s.slashes v calls)| ≤
          2 * (s.slashes v calls).length ∧
      ∀ e, s.SteadyRun v e calls →
        (s.getEffectivePosition v e).1 = (s.getEffectivePosition v d).1 →
        |(((s.run calls).getEffectivePosition v d).1 : ℚ) -
          ((s.run calls).getEffectivePosition v e).1| ≤ 4 * (s.slashes v calls).length := by
  intro s
  have hrun := effective_run ((sound_init config v d).run before) h
  refine ⟨hrun, ?_⟩
  intro e he heq
  have hrun' := effective_run ((sound_init config v e).run before) he
  rw [heq] at hrun'
  rw [abs_le] at hrun hrun' ⊢
  constructor <;> linarith

def evenStart : List PoolCall :=
  [.registerPool 9 0 true true, .delegate 9 1 100 true true, .delegate 9 2 100 true true,
    .concludeEpoch, .distributePoolRewards 9 20]

def settledSlashes : List PoolCall :=
  [.applyPoolSlash 9 100, .claimDelegationRewards 9 1, .claimDelegationRewards 9 2,
    .applyPoolSlash 9 50]

theorem run_slashes_settled :
    let s := smallPool.run evenStart
    |(((s.run settledSlashes).getEffectivePosition 9 1).1 : ℚ) -
      ((s.run settledSlashes).getEffectivePosition 9 2).1| ≤
        4 * (s.slashes 9 settledSlashes).length :=
  (run_slashes smallConfig evenStart settledSlashes 9 1
    (And.intro (fun _ => ⟨by decide +kernel, by decide +kernel⟩) <| And.intro not_false
      <| And.intro not_false
      <| And.intro (fun _ => ⟨by decide +kernel, by decide +kernel⟩) trivial)).2 2
    (And.intro (fun _ => ⟨by decide +kernel, by decide +kernel⟩) <| And.intro not_false
      <| And.intro not_false <| And.intro (fun _ => ⟨by decide +kernel, by decide +kernel⟩) trivial)
    (by decide +kernel)

/-- One claims between the slashes and keeps a quarter, the other does not and keeps nothing. -/
theorem unsettled_slashes :
    let s := smallPool.run evenStart
    let calls : List PoolCall :=
      [.applyPoolSlash 9 100, .claimDelegationRewards 9 1, .applyPoolSlash 9 50]
    (s.getEffectivePosition 9 1).1 = 100 ∧ (s.getEffectivePosition 9 2).1 = 100 ∧
      s.slashes 9 calls = [(100, 200), (50, 100)] ∧
      ((s.run calls).getEffectivePosition 9 1).1 = 25 ∧
      ((s.run calls).getEffectivePosition 9 2).1 = 0 ∧
      ¬ |(((s.run calls).getEffectivePosition 9 2).1 : ℚ) -
        (s.getEffectivePosition 9 2).1 * kept (s.slashes 9 calls)| ≤
          2 * (s.slashes 9 calls).length := by
  intro s calls
  have hstart : (s.getEffectivePosition 9 2).1 = 100 := by decide +kernel
  have hslashes : s.slashes 9 calls = [(100, 200), (50, 100)] := by decide +kernel
  have hend : ((s.run calls).getEffectivePosition 9 2).1 = 0 := by decide +kernel
  refine ⟨by decide +kernel, hstart, hslashes, by decide +kernel, hend, ?_⟩
  rw [hstart, hslashes, hend]
  norm_num [kept]

end PoolState

end Axyl.DelegationPool
