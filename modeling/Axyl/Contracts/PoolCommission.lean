import Axyl.Contracts.PoolEffects
import Mathlib.Data.List.Induction

/-! A commission rises only to a value that was scheduled before and has stood since. -/

namespace Axyl.DelegationPool
open Function List

/-- The calls on commissions, changes of the configuration and of the epoch. -/
def PoolCall.OnCommission : PoolCall → Prop
  | .updateCommission _ _ | .activatePendingCommission _ | .cancelPendingCommission _
  | .updateConfig _ | .concludeEpoch => True
  | _ => False

namespace PoolState
open Fallible (ite_error_eq_ok)
variable {s s₀ s' : PoolState} {v : Nat} {c : PoolCall} {calls : List PoolCall}

def bps (s : PoolState) (v : Nat) : Nat := (s.validatorPools v).commissionBps

def effectiveEpoch (s : PoolState) (v : Nat) : Nat := (s.pendingCommissions v).effectiveEpoch

inductive CommissionEffect (v : Nat) (s : PoolState) (c : PoolCall) (s' : PoolState) : Prop
  | kept (hp : s'.pendingCommissions v = s.pendingCommissions v) (hb : s'.bps v = s.bps v)
  | dropped (hp : s'.effectiveEpoch v = 0) (hb : s'.bps v ≤ s.bps v)
  | scheduled (b : Nat) (hc : c = .updateCommission v b) (h0 : s.effectiveEpoch v = 0)
      (hp : s'.pendingCommissions v = ⟨b, s.currentEpoch + s.config.commissionDelayEpochs⟩)
      (hb : s'.bps v = s.bps v)
      (hle : b ≤ s.bps v + maxCommissionIncreaseBps ∧ b ≤ maxCommissionBps)
  | activated (h0 : s.effectiveEpoch v ≠ 0) (hep : s.effectiveEpoch v ≤ s.currentEpoch)
      (hp : s'.effectiveEpoch v = 0) (hb : s'.bps v = (s.pendingCommissions v).newBps)

theorem commissionEffect (hc : c.OnCommission) (h : s.call c = .ok s') :
    CommissionEffect v s c s' := by
  cases c with
  | updateCommission u b =>
    simp only [call, updateCommission, ite_error_eq_ok] at h
    obtain ⟨-, hmax, h⟩ := h
    split at h
    · simp only [ite_error_eq_ok] at h
      obtain ⟨hle, h0, h⟩ := h
      cases h
      rcases eq_or_ne v u with rfl | hv
      · refine .scheduled b rfl (not_not.mp h0) (update_self ..) rfl ⟨?_, Nat.le_of_not_lt hmax⟩
        unfold bps
        omega
      · exact .kept (update_of_ne hv ..) rfl
    next hge =>
      cases h
      rcases eq_or_ne v u with rfl | hv
      · refine .dropped ?_ (by simpa [bps, setPool] using hge)
        by_cases h0 : (s.pendingCommissions v).effectiveEpoch = 0 <;> simp [effectiveEpoch, h0]
      · refine .kept ?_ (by simp [bps, setPool, hv])
        by_cases h0 : (s.pendingCommissions u).effectiveEpoch = 0 <;> simp [h0, hv]
  | activatePendingCommission u =>
    simp only [call, activatePendingCommission, ite_error_eq_ok] at h
    obtain ⟨-, h0, hep, h⟩ := h
    cases h
    rcases eq_or_ne v u with rfl | hv
    · exact .activated h0 (Nat.le_of_not_lt hep) (by simp [effectiveEpoch]) (by simp [bps, setPool])
    · exact .kept (update_of_ne hv ..) (by simp [bps, setPool, hv])
  | cancelPendingCommission u =>
    simp only [call, cancelPendingCommission, ite_error_eq_ok] at h
    obtain ⟨-, -, h⟩ := h
    cases h
    rcases eq_or_ne v u with rfl | hv
    · exact .dropped (by simp [effectiveEpoch]) (le_refl _)
    · exact .kept (update_of_ne hv ..) rfl
  | updateConfig | concludeEpoch =>
    cases h
    exact .kept rfl rfl
  | _ => cases hc

theorem commissionEffect_step (hc : c.OnCommission) : CommissionEffect v s c (s.step c) := by
  cases h : s.call c with
  | ok s' =>
    rw [step_of_ok h]
    exact commissionEffect hc h
  | error _ =>
    rw [step_of_error h]
    exact .kept rfl rfl

/-- The call after `before` schedules the rise from `a` to `b`, a bounded one, and it stands to the
end of `after`. -/
structure Announced (s₀ : PoolState) (v a b : Nat) (before after : List PoolCall) : Prop where
  fresh : (s₀.run before).effectiveEpoch v = 0
  bounds : b ≤ a + maxCommissionIncreaseBps ∧ b ≤ maxCommissionBps
  stands : ∀ mid, mid <+: after →
    let t := s₀.run before
    let u := s₀.run (before ++ .updateCommission v b :: mid)
    u.bps v = a ∧ u.pendingCommissions v = ⟨b, t.currentEpoch + t.config.commissionDelayEpochs⟩

theorem exists_announced (h0 : s₀.effectiveEpoch v = 0) (hcs : ∀ c ∈ calls, c.OnCommission)
    (hp : (s₀.run calls).effectiveEpoch v ≠ 0) : ∃ before b after,
      calls = before ++ .updateCommission v b :: after ∧
        Announced s₀ v ((s₀.run calls).bps v) b before after := by
  induction calls using List.reverseRecOn with
  | nil => exact absurd h0 hp
  | append_singleton calls c ih =>
    obtain ⟨hcs, hc⟩ := forall_mem_append.mp hcs
    have hrun : s₀.run (calls ++ [c]) = (s₀.run calls).step c := foldl_concat ..
    have he : CommissionEffect v (s₀.run calls) c _ := commissionEffect_step (hc c mem_cons_self)
    rw [← hrun] at he
    cases he with
    | kept hp' hb =>
      rw [effectiveEpoch, hp'] at hp
      obtain ⟨before, b, after, rfl, ha⟩ := ih hcs hp
      rw [hb]
      refine ⟨before, b, after ++ [c], by simp, { ha with stands := fun mid hmid => ?_ }⟩
      rcases prefix_concat_iff.mp hmid with rfl | hmid
      · rw [← cons_append, ← append_assoc]
        exact ⟨hb, hp'.trans (ha.stands after prefix_rfl).2⟩
      · exact ha.stands mid hmid
    | scheduled b hc h0 hp hb hle =>
      subst hc
      refine ⟨calls, b, [], rfl, h0, hb ▸ hle, fun mid hmid => ?_⟩
      rw [prefix_nil.mp hmid]
      exact ⟨rfl, hp⟩
    | dropped hp' | activated _ _ hp' => exact absurd hp' hp

/-- A call that raises a commission raises it to a value that was announced at least the delay of
that time before. -/
theorem commission_rise_announced (s₀ : PoolState) (v : Nat) (calls : List PoolCall) (c : PoolCall)
    (h0 : s₀.effectiveEpoch v = 0) (hcs : ∀ x ∈ c :: calls, x.OnCommission) :
    let s := s₀.run calls
    s.bps v < (s.step c).bps v → ∃ before after,
      let t := s₀.run before
      calls = before ++ .updateCommission v ((s.step c).bps v) :: after ∧
        Announced s₀ v (s.bps v) ((s.step c).bps v) before after ∧
        t.currentEpoch + t.config.commissionDelayEpochs ≤ s.currentEpoch := by
  intro s hlt
  obtain ⟨hc, hcs⟩ := forall_mem_cons.mp hcs
  have he : CommissionEffect v s c _ := commissionEffect_step hc
  cases he with
  | kept _ hb | scheduled _ _ _ _ hb => exact absurd hb (ne_of_gt hlt)
  | dropped _ hb => exact absurd hlt (Nat.not_lt_of_ge hb)
  | activated hp hep _ hb =>
    obtain ⟨before, b, after, hcalls, ha⟩ := exists_announced h0 hcs hp
    have hstand := (ha.stands after prefix_rfl).2
    rw [← hcalls] at hstand
    rw [effectiveEpoch, hstand] at hep
    rw [hb, hstand]
    exact ⟨before, after, hcalls, ha, hep⟩

theorem commission_rise_announced_once :
    let s : PoolState := { config := smallConfig, poolRegistered := fun _ => true }
    let s' := s.run [.updateCommission 1 500, .concludeEpoch]
    ∃ before after, Announced s 1 0 ((s'.step (.activatePendingCommission 1)).bps 1) before
      after := by
  intro s s'
  have h := commission_rise_announced s 1 [.updateCommission 1 500, .concludeEpoch]
    (.activatePendingCommission 1) rfl (by simp [PoolCall.OnCommission]) (by decide)
  obtain ⟨before, after, -, ha, -⟩ := h
  exact ⟨before, after, ha⟩

end PoolState

end Axyl.DelegationPool
