import Axyl.Contracts.RegistryEnrolled
import Axyl.Lib.Fold
import Mathlib.Data.List.Sort

/-! The close of an epoch: the committee that the node builds and the checks of the registry. A
burn counts validators on their way out as eligible, and the node does not choose them. -/

namespace Axyl
open List Function

namespace ConsensusRegistry
open Fallible (bind_eq_ok)

def ValidatorStatus.standing (status : ValidatorStatus) : Bool :=
  status == .active || status == .pendingActivation

inductive CloseError where
  | emptyCommittee (epoch : Nat)
  | reverted (e : RegistryError)
deriving DecidableEq, Repr

namespace Registry
variable {s s' : Registry} {bls : Bls} {a x : Address}

def newCommittee (s : Registry) : List Address :=
  ((s.getValidators .active).filter fun v => v.currentStatus ≠ .pendingExit).map
    ValidatorInfo.validatorAddress

def sortedCommittee (s : Registry) : List Address :=
  s.newCommittee.mergeSort fun a b => decide (a ≤ b)

def generateConcludeEpochCalldata (s : Registry) (epoch : Nat) : Except CloseError (List Address) :=
  if s.newCommittee.isEmpty then .error (.emptyCommittee epoch) else .ok s.sortedCommittee

def closeEpoch (s : Registry) (epoch : Nat) : Except CloseError Registry := do
  let committee ← s.generateConcludeEpochCalldata epoch
  (s.concludeEpoch committee).mapError CloseError.reverted

def Manned (s : Registry) : Prop := ∃ a, (s.validators a).currentStatus.standing = true

/-! ### The committee of the node -/

section
variable (h : s.Enrolled)
include h

theorem Enrolled.mem_newCommittee :
    a ∈ s.newCommittee ↔ (s.validators a).currentStatus.standing = true := by
  unfold newCommittee
  rw [h.mem_filter_iff]
  cases (s.validators a).currentStatus <;> decide

theorem Enrolled.map_address :
    (s.validatorsAddresses.map s.validators).map ValidatorInfo.validatorAddress
      = s.validatorsAddresses := by
  rw [map_map]
  conv_rhs => rw [← map_id s.validatorsAddresses]
  apply map_congr_left
  intro a ha
  exact h.own a (h.mem_iff.mp ha)

theorem Enrolled.nodup_newCommittee : s.newCommittee.Nodup := by
  have hsublist : s.newCommittee.Sublist s.validatorsAddresses := by
    conv_rhs => rw [← h.map_address]
    exact (filter_sublist.trans filter_sublist).map _
  exact h.listing.nodup.sublist hsublist

omit h in
theorem length_newCommittee (s : Registry) : s.newCommittee.length = s.numStrictlyActive := by
  unfold newCommittee numStrictlyActive
  have hexit : s.getValidators .pendingExit
      = (s.getValidators .active).filter fun v => !decide (v.currentStatus ≠ .pendingExit) := by
    unfold getValidators
    rw [filter_filter]
    congr 1
    funext v
    cases v.isRetired <;> cases v.currentStatus <;> rfl
  rw [length_map, hexit]
  have := (s.getValidators .active).length_eq_length_filter_add
    fun v => decide (v.currentStatus ≠ .pendingExit)
  omega

omit h in
theorem Queued.eligible_of_standing {ep : Nat} {inCommittee : Prop} {v w : ValidatorInfo}
    (h : Queued ep inCommittee v w) (hv : v.currentStatus.standing = true) :
    w.currentStatus.standing = true ∧ w.currentStatus.eligible = true := by
  cases h with
  | same =>
    revert hv
    cases v.currentStatus <;> decide
  | activated hstat => exact ⟨rfl, rfl⟩
  | exited hstat hout =>
    rw [hstat] at hv
    cases hv

theorem Enrolled.exists_other (hmany : 1 < s.numStrictlyActive) (a : Address) :
    ∃ b, b ≠ a ∧ (s.validators b).currentStatus.standing = true := by
  rw [← length_newCommittee] at hmany
  by_contra hnone
  have hsubset : s.newCommittee ⊆ [a] := by
    intro b hb
    by_contra hba
    exact hnone ⟨b, fun heq => hba (mem_singleton.mpr heq), h.mem_newCommittee.mp hb⟩
  have hle := (subperm_of_subset h.nodup_newCommittee hsubset).length_le
  rw [length_singleton] at hle
  omega

theorem Effect.manned (hmanned : s.Manned) (heff : Effect s s') : s'.Manned := by
  cases heff with
  | configured s' hcore =>
    rw [hcore]
    exact hmanned
  | activated a hstat =>
    refine ⟨a, ?_⟩
    change (update s.validators a _ a).currentStatus.standing = true
    rw [update_self]
    rfl
  | claimed a hidx hrews hfun => exact hmanned
  | exiting a hidx hstat hoths =>
    obtain ⟨b, hba, hb⟩ := h.exists_other hoths a
    refine ⟨b, ?_⟩
    change (update s.validators a _ b).currentStatus.standing = true
    rw [update_of_ne hba]
    exact hb
  | unstaked a helig hlen hidx hfun =>
    obtain ⟨b, hb⟩ := hmanned
    refine ⟨b, ?_⟩
    rw [validators_paidOut]
    change (update s.validators a _ b).currentStatus.standing = true
    have hba : b ≠ a := by
      rintro rfl
      unfold eligibleForUnstake at helig
      revert hb helig
      cases (s.validators b).currentStatus <;> simp [ValidatorStatus.standing]
    rw [update_of_ne hba]
    exact hb
  | withdrawn amt hslas hfun => exact hmanned

end

def Spares (s : Registry) : RegistryCall → Prop
  | .applySlashes slashes => ∀ s', s.applySlashes slashes = .ok s' → s'.Manned
  | _ => True

theorem Manned.step (h : s.Enrolled ∧ s.Manned) (c : RegistryCall) (hc : s.Spares c) :
    (s.step bls c).Enrolled ∧ (s.step bls c).Manned := by
  refine ⟨h.1.step c, ?_⟩
  refine keep_step h.2 fun s' houtc => ?_
  cases houtc with
  | effect _ _ _ heff => exact heff.manned h.1 h.2
  | slashes slashes _ hok => exact hc s' hok
  | staked _ key b proof _ _ hstk =>
    obtain ⟨v, hvals, -⟩ := hstk.validators
    obtain ⟨a, ha⟩ := h.2
    have hne : a ≠ b := by
      rintro rfl
      rw [hstk.undefined] at ha
      cases ha
    refine ⟨a, ?_⟩
    rw [hvals, update_of_ne hne]
    exact ha
  | concluded future _ _ _ =>
    obtain ⟨a, ha⟩ := h.2
    exact ⟨a, (((queued_concluded h.1.own future).2 a).eligible_of_standing ha).1⟩
  | upgraded _ _ => exact h.2

/-! ### Runs -/

end Registry

end ConsensusRegistry

end Axyl
