import Axyl.Contracts.PoolCalls
import Axyl.Contracts.RegistryEffects

/-! A list of slashes over the registry and the pool: what it takes of the own stake and of the
pool, and where that goes. -/

namespace Axyl.ConsensusRegistry
open List Function Fallible
open DelegationPool (PoolState precision precision_pos ValidatorPool smallConfig)

namespace Registry
variable {s v t amount taken : Nat}

/-! ### The two parts -/

def ownPart (s v t : Nat) : Nat := (s * v + (v + t) - 1) / (v + t)

section
variable (hv : 0 < v)
include hv

theorem ownPart_bounds :
    s * v ≤ ownPart s v t * (v + t) ∧ ownPart s v t * (v + t) < s * v + (v + t) := by
  have := Nat.div_add_mod (s * v + (v + t) - 1) (v + t)
  have := Nat.mod_lt (s * v + (v + t) - 1) (show 0 < v + t by omega)
  rw [ownPart, mul_comm (_ / _)]
  omega

theorem ownPart_le : ownPart s v t ≤ s := by
  have h := (ownPart_bounds (s := s) (t := t) hv).2
  by_contra hlt
  have := Nat.mul_le_mul_right (v + t) (Nat.not_le.mp hlt)
  rw [Nat.succ_mul, mul_add] at this
  omega

/-- The two parts, each within what is there, make up the slash. -/
theorem ownPart_split : min v (ownPart s v t) + min (s - ownPart s v t) t = min s (v + t) := by
  have hcs : ownPart s v t ≤ s := ownPart_le hv
  obtain ⟨hlo, hhi⟩ := ownPart_bounds (s := s) (t := t) hv
  generalize ownPart s v t = c at hcs hlo hhi ⊢
  rcases le_total s (v + t) with hle | hge
  · have hcv : c ≤ v := by nlinarith
    have hct : s ≤ c + t := by nlinarith
    rw [Nat.min_eq_right hcv, Nat.min_eq_left (by omega), Nat.min_eq_left hle]
    omega
  · have hcv : v ≤ c := by nlinarith
    have hct : c + t ≤ s := by nlinarith
    rw [Nat.min_eq_left hcv, Nat.min_eq_right (by omega), Nat.min_eq_right hge]

end

/-- The pool pays what is asked, its total at most, but for the rounding to whole shares. -/
theorem actualSlash_bounds {p : PoolState} {a : Nat} (hreg : p.poolRegistered a = true) :
    p.actualSlash a amount ≤ p.effectiveSlash a amount ∧
      (p.effectiveSlash a amount - p.actualSlash a amount) * precision <
        (p.validatorPools a).totalAll + precision := by
  rw [PoolState.actualSlash, if_pos hreg, PoolState.slashPerShare]
  have hle : p.effectiveSlash a amount ≤ (p.validatorPools a).totalAll := min_le_right _ _
  generalize p.effectiveSlash a amount = e, (p.validatorPools a).totalAll = t at hle
  rcases Nat.eq_zero_or_pos t with rfl | ht
  · have := precision_pos
    simp_all
  have h₁ := Nat.div_add_mod (e * precision) t
  have h₂ := Nat.mod_lt (e * precision) ht
  have h₃ := Nat.div_add_mod (e * precision / t * t) precision
  have h₄ := Nat.mod_lt (e * precision / t * t) precision_pos
  rw [mul_comm t] at h₁
  rw [mul_comm precision] at h₃
  refine ⟨Nat.le_of_mul_le_mul_right (by omega) precision_pos, ?_⟩
  rw [Nat.sub_mul]
  omega

theorem applyPoolSlash_takes {p p' : PoolState} {a : Nat} (h : p.applyPoolSlash a amount = .ok p') :
    (p'.validatorPools a).totalAll + p.actualSlash a amount = (p.validatorPools a).totalAll ∧
      p'.balance + p.actualSlash a amount = p.balance := by
  rcases PoolState.applyPoolSlash_ok h with ⟨rfl, hz⟩ | ⟨-, -, x, y, -, hxy, hx, hy, hb, rfl⟩
  · have hz : p'.actualSlash a amount = 0 := hz.elim id fun hz => by simp [PoolState.actualSlash, hz]
    rw [hz]
    exact ⟨rfl, rfl⟩
  · simp only [PoolState.setPool_self, ValidatorPool.totalAll]
    omega

/-! ### Slashes -/

/-- The delegated total as the registry sees it. -/
def delegatedTo (r : Registry × PoolState) (a : Address) : Nat :=
  if r.1.hasPool then (r.2.validatorPools a).totalAll else 0

def poolAsked (r : Registry × PoolState) (slash : Slash) : Nat :=
  r.1.poolSlash slash ⟨delegatedTo r slash.validatorAddress, none⟩

def applySlashWith (r : Registry × PoolState) (slash : Slash) : RegistryM (Registry × PoolState) :=
  let a := slash.validatorAddress
  if r.1.isRetired a then .ok r
  else
    match r.2.applyPoolSlash a (poolAsked r slash) with
    | .error _ => .error .poolReverted
    | .ok p => (r.1.applySlash slash ⟨delegatedTo r a,
        some (r.2.actualSlash a (poolAsked r slash))⟩).map (·, p)

def applySlashesWith (r : Registry × PoolState) (slashes : List Slash) :
    RegistryM (Registry × PoolState) :=
  slashes.foldlM applySlashWith r

/-- A slash takes of an own stake and of the pool, and the registry books what the pool has paid. On
a retired validator it changes nothing. -/
def Accounted (slash : Slash) (r r' : Registry × PoolState) : Prop :=
  let a := slash.validatorAddress
  let v := r.1.balances a
  let t := delegatedTo r a
  let own := min v (ownPart slash.amount v t)
  if r.1.isRetired a then r' = r
  else 0 < v → ∃ taken, r'.1.balances a + own = v ∧
    (r'.2.validatorPools a).totalAll + taken = (r.2.validatorPools a).totalAll ∧
    r'.2.balance + taken = r.2.balance ∧ r'.1.slashedFunds = r.1.slashedFunds + taken ∧
    r'.1.rlsBalance = r.1.rlsBalance + taken ∧
    (r.2.poolRegistered a = true → own + taken ≤ min slash.amount (v + t) ∧
      (min slash.amount (v + t) - (own + taken)) * precision <
        (r.2.validatorPools a).totalAll + precision)

section
variable {r r' : Registry} {slash : Slash}

theorem validatorSlash_eq {p : PoolState} {answer : Option Nat}
    (hv : 0 < r.balances slash.validatorAddress) :
    r.validatorSlash slash ⟨delegatedTo (r, p) slash.validatorAddress, answer⟩ =
      ownPart slash.amount (r.balances slash.validatorAddress)
        (delegatedTo (r, p) slash.validatorAddress) := by
  unfold validatorSlash
  split
  · exact Nat.min_eq_left (ownPart_le hv)
  · next hp =>
    have ht : delegatedTo (r, p) slash.validatorAddress = 0 := by
      unfold delegatedTo at hp ⊢
      split <;> simp_all
    rw [ownPart, ht, add_zero, Nat.add_sub_assoc hv, add_comm,
      Nat.add_mul_div_right _ _ hv, Nat.div_eq_of_lt (by omega), zero_add]

theorem takePoolSlash_some (h : amount = 0 → taken = 0) :
    r.takePoolSlash amount ⟨t, some taken⟩ = .ok (r.withSlashed taken) := by
  unfold takePoolSlash
  split
  · next hz =>
    rw [h hz]
    rfl
  · rfl

theorem applySlash_some (hret : ¬ r.isRetired slash.validatorAddress = true)
    (hz : r.poolSlash slash ⟨t, some taken⟩ = 0 → taken = 0)
    (h : r.applySlash slash ⟨t, some taken⟩ = .ok r') : r'.balances slash.validatorAddress =
        r.balances slash.validatorAddress - r.validatorSlash slash ⟨t, some taken⟩ ∧
      r'.slashedFunds = r.slashedFunds + taken ∧ r'.rlsBalance = r.rlsBalance + taken := by
  unfold applySlash at h
  dsimp only at h
  rw [if_neg hret, takePoolSlash_some hz, takePoolSlash_some hz] at h
  split at h
  · cases h
    exact ⟨update_self _ _ _, rfl, rfl⟩
  · next hge =>
    obtain ⟨-, -, -, rfl⟩ := consensusBurn_of_ok h
    unfold burnt paidOut
    rw [withoutValidator_eq]
    refine ⟨(update_self _ _ _).trans (by omega), rfl, ?_⟩
    change r.rlsBalance + taken - update r.balances _ 0 _ = _
    rw [update_self, Nat.sub_zero]

end

variable {r r' : Registry × PoolState} {slash : Slash} {before after : List Slash}

theorem applySlash_accounted (h : applySlashWith r slash = .ok r') : Accounted slash r r' := by
  have hz : poolAsked r slash = 0 →
      r.2.actualSlash slash.validatorAddress (poolAsked r slash) = 0 := by
    intro hz
    simp [hz, PoolState.actualSlash, PoolState.slashPerShare, PoolState.effectiveSlash]
  dsimp only [applySlashWith] at h
  dsimp only [Accounted]
  split at h
  · next hret =>
    cases h
    rw [if_pos hret]
  next hret =>
  rw [if_neg hret]
  intro hv
  have hask : poolAsked r slash = slash.amount - ownPart slash.amount _ _ :=
    congrArg _ (validatorSlash_eq hv)
  split at h
  · cases h
  next q hq =>
  obtain ⟨u, hu, rfl⟩ := map_eq_ok.mp h
  obtain ⟨htot, hbal⟩ := applyPoolSlash_takes hq
  obtain ⟨hown, hfunds, hrls⟩ := applySlash_some hret hz hu
  rw [validatorSlash_eq hv] at hown
  refine ⟨_, ?_, htot, hbal, hfunds, hrls, fun hreg => ?_⟩
  · rw [hown]
    exact Nat.sub_add_min_cancel _ _
  · have hbnd := @actualSlash_bounds (poolAsked r slash) _ _ hreg
    have heff : r.2.effectiveSlash slash.validatorAddress (poolAsked r slash) =
        min (poolAsked r slash) (delegatedTo r slash.validatorAddress) := by
      unfold PoolState.effectiveSlash delegatedTo
      split
      · rfl
      · next hp => simp [poolAsked, poolSlash, validatorSlash, hp]
    rw [heff, hask] at hbnd
    rw [← ownPart_split hv, Nat.add_sub_add_left, hask]
    exact ⟨Nat.add_le_add_left hbnd.1 _, hbnd.2⟩

/-- Every slash of a list takes its amount of what there is, the own part rounded up and the pool's
to whole shares. What the pool pays becomes slashed funds, and the own part stays in the balance. -/
theorem applySlashes_accounted (h : applySlashesWith r (before ++ slash :: after) = .ok r') :
    ∃ t t', applySlashesWith r before = .ok t ∧ applySlashWith t slash = .ok t' ∧
      applySlashesWith t' after = .ok r' ∧ Accounted slash t t' := by
  unfold applySlashesWith at h
  rw [foldlM_append, bind_eq_ok] at h
  obtain ⟨t, ht, h⟩ := h
  rw [foldlM_cons, bind_eq_ok] at h
  obtain ⟨t', ht', h⟩ := h
  exact ⟨t, t', ht, ht', h, applySlash_accounted ht'⟩

def stakes (own delegated : Nat) : Registry × PoolState :=
  ({ blank {} 0 0 with balances := fun _ => own, hasPool := true },
    { config := smallConfig
      balance := delegated
      poolRegistered := fun _ => true
      validatorPools := fun _ => { totalDelegated := delegated } })

theorem applySlashes_accounted_twice :
    ∃ r' t t', applySlashesWith (stakes 100 300) [⟨1, 100⟩, ⟨1, 60⟩] = .ok r' ∧
      (r'.1.balances 1 = 60 ∧ r'.1.slashedFunds = 120) ∧
      applySlashesWith (stakes 100 300) [⟨1, 100⟩] = .ok t ∧ applySlashWith t ⟨1, 60⟩ = .ok t' ∧
      applySlashesWith t' [] = .ok r' ∧ Accounted ⟨1, 60⟩ t t' := by
  obtain ⟨r', hr, h⟩ : ∃ r', applySlashesWith (stakes 100 300) ([⟨1, 100⟩] ++ [⟨1, 60⟩]) = .ok r' ∧
      r'.1.balances 1 = 60 ∧ r'.1.slashedFunds = 120 := by
    decide +kernel
  obtain ⟨t, t', haccounted⟩ := applySlashes_accounted hr
  exact ⟨r', t, t', hr, h, haccounted⟩

/-- Of a slash of two on two stakes of three the validator pays one, which is not booked, and the
pool rounds the other away. -/
theorem applySlashes_stranded :
    ∃ r', applySlashesWith (stakes 3 3) [⟨1, 2⟩] = .ok r' ∧ r'.1.balances 1 = 2 ∧
      (r'.2.validatorPools 1).totalAll = 3 ∧ r'.1.slashedFunds = 0 := by
  decide +kernel

end Registry

end Axyl.ConsensusRegistry
