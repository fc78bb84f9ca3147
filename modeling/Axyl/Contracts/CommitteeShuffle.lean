import Axyl.Contracts.ConsensusRegistry
import Mathlib.Data.List.Perm.Subperm

/-! The committee that is drawn at the close of an epoch from the validators of the registry. -/

namespace Axyl.ConsensusRegistry
open List ValidatorInfo

/-- What the seeded generator answers: the validators `choose_multiple` takes, and the position each
one is swapped with. -/
structure CommitteeRng where
  chooseMultiple : List ValidatorInfo → Nat → List ValidatorInfo
  randomRange : Nat → Nat
  chosen : ∀ vs n, chooseMultiple vs n <+~ vs ∧ (chooseMultiple vs n).length = min n vs.length
  range_le : ∀ i, randomRange i ≤ i

def fisherYates (rng : CommitteeRng) : Nat → List ValidatorInfo → List ValidatorInfo
  | 0, vs => vs
  | i + 1, vs => fisherYates rng i (vs.swap (i + 1) (rng.randomRange (i + 1)))

theorem fisherYates_perm (rng : CommitteeRng) (i : Nat) (vs : List ValidatorInfo) :
    fisherYates rng i vs ~ vs := by
  induction i generalizing vs with
  | zero => exact .refl vs
  | succ i ih => exact (ih _).trans (swap_perm ..)

def exiting (v : ValidatorInfo) : Bool := v.currentStatus == .pendingExit

section
variable (all : List ValidatorInfo) (size : Nat) (rng : CommitteeRng)

def validatorsForShuffle : List ValidatorInfo :=
  let active := all.filter (!exiting ·)
  if size ≤ active.length then active
  else active ++ rng.chooseMultiple (all.filter exiting) (size - active.length)

theorem validatorsForShuffle_spec : validatorsForShuffle all size rng <+~ all ∧
    min size (validatorsForShuffle all size rng).length = min size all.length ∧
    (validatorsForShuffle all size rng ⊆ all.filter (!exiting ·) ∨
      (all.filter (!exiting ·)).length < size ∧ (validatorsForShuffle all size rng).length ≤ size ∧
        all.filter (!exiting ·) ⊆ validatorsForShuffle all size rng) := by
  have hperm := filter_append_perm exiting all
  have hlen := hperm.length_eq
  rw [length_append] at hlen
  unfold validatorsForShuffle
  dsimp only
  split
  next hle => exact ⟨filter_sublist.subperm, by omega, .inl (Subset.refl _)⟩
  next hlt =>
    obtain ⟨hsub, hcount⟩ :=
      rng.chosen (all.filter exiting) (size - (all.filter (!exiting ·)).length)
    rw [length_append, hcount]
    refine ⟨?_, by omega, .inr ⟨by omega, by omega, subset_append_left ..⟩⟩
    exact ((Subperm.refl _).append hsub).trans (perm_append_comm.trans hperm).subperm

end

namespace Registry

def shuffleNewCommittee (s : Registry) (size : Nat) (rng : CommitteeRng) : List Address :=
  let vs := validatorsForShuffle (s.getValidators .active) size rng
  ((fisherYates rng (vs.length - 1) vs).map validatorAddress).take size

/-- The new committee has no duplicates and the size of the old one where there are enough
validators, and one that is exiting is in it only if there are too few others, which then all are. -/
theorem shuffleNewCommittee_members (s : Registry) (size : Nat) (rng : CommitteeRng)
    (h : ((s.getValidators .active).map validatorAddress).Nodup) :
    let all := s.getValidators .active
    let others := all.filter (!exiting ·)
    let committee := s.shuffleNewCommittee size rng
    committee.Nodup ∧ committee ⊆ all.map validatorAddress ∧
      committee.length = min size all.length ∧
      ∀ v ∈ all, v.currentStatus = .pendingExit → v.validatorAddress ∈ committee →
        others.length < size ∧ others.map validatorAddress ⊆ committee := by
  intro all others committee
  obtain ⟨⟨l, hl, hsl⟩, hlen, hcase⟩ := validatorsForShuffle_spec all size rng
  generalize hvs : validatorsForShuffle all size rng = vs at hl hlen hcase
  have hperm := (fisherYates_perm rng (vs.length - 1) vs).map validatorAddress
  have hc : committee = ((fisherYates rng (vs.length - 1) vs).map validatorAddress).take size := by
    rw [← hvs]
    rfl
  have hmem : committee ⊆ vs.map validatorAddress := hc ▸ Subset.trans (take_subset ..) hperm.subset
  have hnodup := (hl.map validatorAddress).nodup_iff.mp ((hsl.map _).nodup h)
  refine ⟨hc ▸ (hperm.nodup_iff.mpr hnodup).sublist (take_sublist ..), ?_, ?_,
    fun v hv hexit hin => ?_⟩
  · exact Subset.trans hmem (map_subset _ (Subset.trans hl.symm.subset hsl.subset))
  · rw [hc, length_take, hperm.length_eq, length_map, hlen]
  · rcases hcase with hsub | ⟨hlt, hle, hsub⟩
    · obtain ⟨w, hw, heq⟩ := mem_map.mp (hmem hin)
      obtain ⟨hw, hno⟩ := mem_filter.mp (hsub hw)
      cases inj_on_of_nodup_map h hw hv heq
      simp [exiting, hexit] at hno
    · rw [hc, take_of_length_le (by rwa [hperm.length_eq, length_map])]
      exact ⟨hlt, Subset.trans (map_subset _ hsub) hperm.symm.subset⟩

end Registry

def fixedRng : CommitteeRng where
  chooseMultiple vs n := vs.take n
  randomRange _ := 0
  chosen vs n := ⟨(take_sublist n vs).subperm, length_take⟩
  range_le := Nat.zero_le

theorem Registry.shuffleNewCommittee_members_exiting :
    let s : Registry := { validatorsAddresses := [1, 2, 3], validators := fun a =>
      { validatorAddress := a, currentStatus := if a = 2 then .pendingExit else .active } }
    s.shuffleNewCommittee 3 fixedRng = [3, 2, 1] ∧ (s.shuffleNewCommittee 3 fixedRng).Nodup :=
  ⟨by decide, (shuffleNewCommittee_members _ 3 fixedRng (by decide)).1⟩

end Axyl.ConsensusRegistry
