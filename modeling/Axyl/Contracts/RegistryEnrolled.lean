import Axyl.Contracts.RegistryValidators
import Axyl.Lib.SwapRemove

/-! The list of validators: it holds exactly the live ones. -/

namespace Axyl
open Function List

namespace ConsensusRegistry
open Fallible (bind_eq_ok)
open ValidatorInfo

namespace Registry
variable {s s' : Registry} {bls : Bls} {a : Address}

/-! ### The list of validators -/

def Listing (s : Registry) : Prop := Indexed s.validatorsAddresses s.validatorIndex

theorem Listing.withoutValidator (h : s.Listing) (ha : s.validatorIndex a ≠ 0) :
    (s.withoutValidator a).Listing ∧
      ∀ b, (s.withoutValidator a).validatorIndex b ≠ 0 ↔ s.validatorIndex b ≠ 0 ∧ b ≠ a := by
  have hplace : s.validatorsAddresses[s.validatorIndex a - 1]? = some a := (h a _).mp (by omega)
  have hlt := (List.getElem?_eq_some_iff.mp hplace).1
  unfold Listing Registry.withoutValidator
  dsimp only
  split
  next hlast =>
    have hend : s.validatorsAddresses[s.validatorsAddresses.length - 1]?
        = some (s.validatorsAddresses.getD (s.validatorsAddresses.length - 1) 0) := by
      rw [getD_eq_getElem?_getD, List.getElem?_eq_getElem (by omega), Option.getD_some]
    refine ⟨Indexed.replaceByLast h ha hend hlast, fun b => ?_⟩
    have hendIndex := (h _ _).mpr hend
    dsimp only
    rw [update_apply]
    split
    next hb => simp [hb]
    next hb =>
      rw [update_apply]
      split
      next hbl =>
        have hidx : s.validatorIndex b ≠ 0 := by
          rw [hbl, hendIndex]
          omega
        exact ⟨fun _ => ⟨hidx, hb⟩, fun _ => ha⟩
      next => simp [hb]
  next hlast =>
    refine ⟨Indexed.dropLast h (not_not.mp hlast) ha, fun b => ?_⟩
    rw [update_apply]
    split
    next hb => simp [hb]
    next hb => simp [hb]

/-! ### The invariant -/

/-- What the registry keeps of an address, and whether it is in the list. -/
structure Record (listed : Prop) (a : Address) (v : ValidatorInfo) : Prop where
  own : v.Live → v.validatorAddress = a
  listed : listed ↔ v.Live
  retired : v.isRetired = true ↔ v.currentStatus = .any

/-- The list holds the live validators, and the retired ones are those with the last status. -/
structure Enrolled (s : Registry) : Prop where
  listing : s.Listing
  records : ∀ a, Record (s.validatorIndex a ≠ 0) a (s.validators a)

section
variable (h : s.Enrolled)
include h

theorem Enrolled.own : s.OwnAddresses := fun a => (h.records a).own

theorem Enrolled.mem_iff : a ∈ s.validatorsAddresses ↔ s.Live a := by
  rw [h.listing.mem_iff]
  exact (h.records a).listed

theorem Enrolled.live_of_status (hdef : (s.validators a).currentStatus ≠ .undefined)
    (hany : (s.validators a).currentStatus ≠ .any) : s.Live a := by
  refine ⟨hdef, ?_⟩
  cases hret : (s.validators a).isRetired with
  | false => rfl
  | true => exact absurd ((h.records a).retired.mp hret) hany

theorem Enrolled.live_of_eligible (ha : (s.validators a).currentStatus.eligible = true) :
    s.Live a := by
  apply h.live_of_status
  · intro hstat
    rw [hstat] at ha
    cases ha
  · intro hstat
    rw [hstat] at ha
    cases ha

theorem Enrolled.mem_filter_iff (p : ValidatorInfo → Bool) :
    a ∈ ((s.getValidators .active).filter p).map validatorAddress ↔
      (s.validators a).currentStatus.eligible = true ∧ p (s.validators a) = true := by
  constructor
  · intro ha
    obtain ⟨v, hv, rfl⟩ := mem_map.mp ha
    obtain ⟨hv, hp⟩ := mem_filter.mp hv
    obtain ⟨⟨b, -, rfl⟩, -, hmat⟩ := mem_getValidators.mp hv
    have helig : (s.validators b).currentStatus.eligible = true := hmat
    rw [h.own b (h.live_of_eligible helig)]
    exact ⟨helig, hp⟩
  · rintro ⟨helig, hp⟩
    have hlive := h.live_of_eligible helig
    refine mem_map.mpr ⟨s.validators a, mem_filter.mpr ⟨mem_getValidators.mpr ?_, hp⟩,
      h.own a hlive⟩
    exact ⟨⟨a, h.mem_iff.mpr hlive, rfl⟩, hlive.2, helig⟩

theorem Enrolled.mem_getValidators_iff :
    a ∈ (s.getValidators .active).map validatorAddress ↔
      (s.validators a).currentStatus.eligible = true := by
  simpa only [filter_true, and_true] using h.mem_filter_iff fun _ => true

theorem Enrolled.length_le {c : List Address} (hdist : c.Nodup)
    (helig : ∀ a ∈ c, (s.validators a).currentStatus.eligible = true) :
    c.length ≤ (s.getValidators .active).length := by
  have hsubset : c ⊆ (s.getValidators .active).map validatorAddress :=
    fun a ha => h.mem_getValidators_iff.mpr (helig a ha)
  have hle := (subperm_of_subset hdist hsubset).length_le
  rwa [length_map] at hle

end

/-! ### Effects -/

variable {v : ValidatorInfo}

theorem record_of_live {listed : Prop} (hlisted : listed) (haddr : v.validatorAddress = a)
    (hret : v.isRetired = false) (hdef : v.currentStatus ≠ .undefined)
    (hany : v.currentStatus ≠ .any) : Record listed a v :=
  ⟨fun _ => haddr, ⟨fun _ => ⟨hdef, hret⟩, fun _ => hlisted⟩, by simp [hret, hany]⟩

theorem Enrolled.setValidator (h : s.Enrolled) (hlive : s.Live a)
    (haddr : v.validatorAddress = (s.validators a).validatorAddress)
    (hret : v.isRetired = false) (hdef : v.currentStatus ≠ .undefined)
    (hany : v.currentStatus ≠ .any) : (s.setValidator a v).Enrolled := by
  refine ⟨h.listing, (forall_update_iff s.validators
    fun b w => Record (s.validatorIndex b ≠ 0) b w).mpr ⟨?_, fun b _ => h.records b⟩⟩
  exact record_of_live ((h.records a).listed.mpr hlive) (haddr.trans (h.own a hlive)) hret hdef hany

theorem Enrolled.leave (h : s.Enrolled) (hidx : s.validatorIndex a ≠ 0)
    (hany : v.currentStatus = .any) (hret : v.isRetired = true) (bal : Nat) : (({ s with
        validators := update s.validators a v
        balances := update s.balances a bal } : Registry).paidOut a).Enrolled := by
  have hlisting : ({ s with
      validators := update s.validators a v
      balances := update s.balances a bal } : Registry).Listing := h.listing
  obtain ⟨hlisting', hlisted⟩ := hlisting.withoutValidator hidx
  unfold Registry.paidOut
  rw [withoutValidator_eq] at hlisting' hlisted ⊢
  generalize (({ s with
    validators := update s.validators a v
    balances := update s.balances a bal } : Registry).withoutValidator a) = t
    at hlisting' hlisted ⊢
  have hdead : ¬ v.Live := fun hlive => nomatch hlive.2.symm.trans hret
  refine ⟨hlisting', (forall_update_iff s.validators
    fun b w => Record (t.validatorIndex b ≠ 0) b w).mpr ⟨?_, fun b hb => ?_⟩⟩
  · refine ⟨fun hlive => absurd hlive hdead, ⟨fun hin => ?_, fun hlive => absurd hlive hdead⟩, ?_⟩
    · exact absurd rfl ((hlisted a).mp hin).2
    · simp [hany, hret]
  · have hrec := h.records b
    refine { hrec with listed := (hlisted b).trans ?_ }
    rw [← hrec.listed]
    exact and_iff_left hb

theorem Enrolled.join (h : s.Enrolled) (hdead : ¬ s.Live a) (haddr : v.validatorAddress = a)
    (hdef : v.currentStatus ≠ .undefined) (hany : v.currentStatus ≠ .any)
    (hret : v.isRetired = false) (amt : Nat) :
    ((s.setValidator a v).recordStake a amt).Enrolled := by
  have hmem : a ∉ s.validatorsAddresses := fun ha => hdead (h.mem_iff.mp ha)
  refine ⟨h.listing.push hmem, (forall_update_iff s.validators fun b w =>
    Record (((s.setValidator a v).recordStake a amt).validatorIndex b ≠ 0) b w).mpr
    ⟨record_of_live ?_ haddr hret hdef hany, fun b hb => ?_⟩⟩
  · change update s.validatorIndex a _ a ≠ 0
    rw [update_self]
    omega
  · change Record (update s.validatorIndex a _ b ≠ 0) b (s.validators b)
    rw [update_of_ne hb]
    exact h.records b

theorem burnt_eq (s : Registry) (a : Address) : s.burnt a = ({ s.ejectedAll a with
      validators := update s.validators a
        { s.validators a with currentStatus := .any, isRetired := true, exitEpoch := s.currentEpoch }
      balances := update s.balances a 0 } : Registry).paidOut a := by
  unfold burnt retire exit
  simp only [setValidator, update_self, update_idem]
  rfl

theorem retire_eq (s : Registry) (a : Address) : s.retire a = { s with
      validators := update s.validators a
        { s.validators a with currentStatus := .any, isRetired := true }
      balances := update s.balances a (s.balances a) } := by
  rw [update_eq_self]
  rfl

theorem Effect.enrolled (h : s.Enrolled) (heff : Effect s s') : s'.Enrolled := by
  cases heff with
  | configured s' hcore =>
    rw [hcore]
    exact { h with }
  | activated a hstat =>
    have hlive : s.Live a := h.live_of_status (by rw [hstat]; decide) (by rw [hstat]; decide)
    exact h.setValidator hlive rfl hlive.2 nofun nofun
  | claimed a hidx hrews hfun => exact { h with }
  | exiting a hidx hstat hoths =>
    have hlive : s.Live a := (h.records a).listed.mp hidx
    exact h.setValidator hlive rfl hlive.2 nofun nofun
  | unstaked a helig hlen hidx hfun =>
    rw [retire_eq]
    apply h.leave hidx
    · rfl
    · rfl
  | withdrawn amt hslas hfun => exact { h with }

theorem SlashEffect.enrolled {slash : Slash} (h : s.Enrolled) (heff : SlashEffect slash s s') :
    s'.Enrolled := by
  cases heff with
  | skipped => exact h
  | slashed amt poolAmount hle hlt => exact { h with }
  | burned poolAmount hle hidx hsizes =>
    have hejected : ((s.withSlashed poolAmount).ejectedAll slash.validatorAddress).Enrolled :=
      { h with }
    rw [burnt_eq]
    apply hejected.leave hidx
    · rfl
    · rfl

theorem Staked.enrolled {key : List UInt8} {proof : ProofOfPossession} (h : s.Enrolled)
    (hstk : Staked bls s key a proof s') : s'.Enrolled := by
  have hdead : ¬ s.Live a := fun hlive => hlive.1 hstk.undefined
  obtain ⟨isDelegated, delegations, rfl⟩ := hstk.result
  have hjoin := h.join hdead
    (v := {
      blsPubkey := key
      validatorAddress := a
      activationEpoch := pendingEpoch
      currentStatus := .staked
      isDelegated
      stakeVersion := s.getCurrentEpochInfo.stakeVersion })
    rfl nofun nofun rfl (s.versions s.getCurrentEpochInfo.stakeVersion).stakeAmount
  exact { hjoin with }

variable {pfs : List ProofOfPossession} {inits : List ValidatorInfo} {inCommittee : Prop}
  {w : ValidatorInfo}

theorem Queued.record {ep : Nat} {listed : Prop}
    (h : Queued ep inCommittee v w) (hrec : Record listed a v) : Record listed a w := by
  have hlive : w.Live ↔ v.Live := by
    cases h with
    | same => exact Iff.rfl
    | activated hstat | exited hstat hout => simp [ValidatorInfo.Live, hstat]
  refine ⟨fun hw => ?_, hrec.listed.trans hlive.symm, ?_⟩
  · rw [h.advances.validatorAddress]
    exact hrec.own (hlive.mp hw)
  · cases h with
    | same => exact hrec.retired
    | activated hstat | exited hstat hout => simpa [hstat] using hrec.retired

theorem Queued.eligible {ep : Nat} (h : Queued ep inCommittee v w) (hin : inCommittee)
    (hv : v.currentStatus.eligible = true) : w.currentStatus.eligible = true := by
  cases h with
  | same => exact hv
  | activated hstat => rfl
  | exited hstat hout => exact absurd hin hout

theorem Enrolled.concluded (h : s.Enrolled) (future : List Address) :
    (s.concluded future).Enrolled := by
  obtain ⟨⟨vals, hfrm⟩, hqd⟩ := queued_concluded h.own future
  refine ⟨?_, fun x => (hqd x).record ?_⟩
  · rw [hfrm]
    exact h.listing
  · rw [hfrm]
    exact h.records x

theorem Enrolled.step (h : s.Enrolled) (c : RegistryCall) : (s.step bls c).Enrolled := by
  refine keep_step h fun s' houtc => ?_
  cases houtc with
  | effect _ _ _ heff => exact heff.enrolled h
  | slashes _ _ hok => exact keep_applySlashes (fun h heff => heff.enrolled h) h hok
  | staked _ _ _ _ _ _ hstk => exact hstk.enrolled h
  | concluded future _ _ _ => exact h.concluded future
  | upgraded _ _ => exact { h with }

/-! ### Genesis -/

theorem Enrolled.addInitial (h : s.Enrolled) (hdead : ¬ s.Live v.validatorAddress)
    (hstat : v.currentStatus = .active) (hret : v.isRetired = false) (stake : Nat) :
    (s.addInitial v stake).Enrolled := by
  have hjoin := h.join hdead rfl (by rw [hstat]; decide) (by rw [hstat]; decide) hret stake
  exact { hjoin with }

variable {stake : Nat} {initials : List (ValidatorInfo × ProofOfPossession)}

theorem not_live_addInitial (hdead : ¬ s.Live a) (hne : a ≠ v.validatorAddress)
    : ¬ (s.addInitial v stake).Live a := by
  intro hlive
  have hrec : (s.addInitial v stake).validators a = s.validators a := update_of_ne hne _ _
  unfold Live at hlive
  rw [hrec] at hlive
  exact hdead hlive

/-- The rule of the genesis loop: `I` is kept by every initial validator, and `J` holds after. -/
theorem keep_addInitials {I J : Registry → Prop} (hJ : ∀ s, J s → I s)
    (hstep : ∀ (s : Registry) (v : ValidatorInfo), I s → ¬ s.Live v.validatorAddress →
      v.currentStatus = .active → v.isRetired = false → v.stakeVersion = 0 →
        J (s.addInitial v stake)) (h : I s) (hdead : ∀ e ∈ initials, ¬ s.Live e.1.validatorAddress)
    (hdist : (initials.map fun e => e.1.validatorAddress).Nodup)
    (hok : addInitials bls stake s initials = .ok s') : I s' ∧ (initials ≠ [] → J s') := by
  induction initials generalizing s with
  | nil =>
    cases hok
    exact ⟨h, fun hne => absurd rfl hne⟩
  | cons head rest ih =>
    obtain ⟨_, hchk, hrest⟩ := bind_eq_ok.mp hok
    obtain ⟨hstat, hret, hvers⟩ := checkInitial_of_ok hchk
    obtain ⟨hhead, hdead⟩ := forall_mem_cons.mp hdead
    rw [map_cons, nodup_cons] at hdist
    have hstep := hstep s head.1 h hhead hstat hret hvers
    obtain ⟨hI, hJ⟩ := ih (hJ _ hstep) (fun e he => not_live_addInitial (hdead e he) fun heq =>
      hdist.1 (heq ▸ mem_map_of_mem he)) hdist.2 hrest
    refine ⟨hI, fun _ => ?_⟩
    cases rest with
    | nil =>
      cases hrest
      exact hstep
    | cons next rest => exact hJ (cons_ne_nil _ _)

theorem not_live_blank (gcfg : StakeConfig) (owner : Address) (rlsBalance : Nat)
    (a : Address) : ¬ (blank gcfg owner rlsBalance).Live a :=
  fun hlive => hlive.1 rfl

theorem enrolled_blank (gcfg : StakeConfig) (owner : Address) (rlsBalance : Nat) :
    (blank gcfg owner rlsBalance).Enrolled := by
  refine ⟨fun a i => by simp [blank], fun a => ⟨fun hlive => ?_, ⟨fun hidx => ?_, fun hlive => ?_⟩, ?_⟩⟩
  · exact absurd hlive (not_live_blank _ _ _ a)
  · exact absurd rfl hidx
  · exact absurd hlive (not_live_blank _ _ _ a)
  · simp [blank]

theorem map_address_zip (h : inits.length = pfs.length) :
    (inits.zip pfs).map (fun e => e.1.validatorAddress)
      = inits.map validatorAddress := by
  have hfst := map_fst_zip (le_of_eq h)
  conv_rhs => rw [← hfst, map_map]
  rfl

theorem zip_ne_nil (hne : inits ≠ []) (h : inits.length = pfs.length) : inits.zip pfs ≠ [] := by
  intro hnil
  have hfst := map_fst_zip (le_of_eq h)
  rw [hnil] at hfst
  exact hne hfst.symm

/-! ### The list is never empty -/

theorem length_withoutValidator (s : Registry) (a : Address) :
    (s.withoutValidator a).validatorsAddresses.length = s.validatorsAddresses.length - 1 := by
  unfold withoutValidator
  split <;> simp

theorem Enrolled.one_lt_length (h : s.Enrolled) (hidx : s.validatorIndex a ≠ 0)
    (hne : s.numEligibleWithout a ≠ 0) : 1 < s.validatorsAddresses.length := by
  have ha := h.listing.mem_iff.mpr hidx
  have hpos := length_pos_of_mem ha
  have hle : (s.getValidators .active).length ≤ s.validatorsAddresses.length := by
    unfold getValidators
    exact (length_filter_le _ _).trans (le_of_eq (length_map _))
  unfold numEligibleWithout at hne
  split at hne
  · omega
  next helig =>
    -- the eligible validator counted is another one than `a`
    obtain ⟨v, hv⟩ := exists_mem_of_length_pos (Nat.pos_of_ne_zero hne)
    obtain ⟨⟨b, hb, rfl⟩, -, hmat⟩ := mem_getValidators.mp hv
    by_contra hone
    obtain ⟨x, hx⟩ := length_eq_one_iff.mp (show s.validatorsAddresses.length = 1 by omega)
    rw [hx, mem_singleton] at ha hb
    rw [ha, ← hb] at helig
    exact helig hmat

/-- Enrolled, and with a validator in the list. -/
structure Populated (s : Registry) : Prop extends Enrolled s where
  populated : 0 < s.validatorsAddresses.length

theorem SlashEffect.populated {slash : Slash} (h : s.Populated) (heff : SlashEffect slash s s') :
    s'.Populated := by
  refine { heff.enrolled h.toEnrolled with populated := ?_ }
  cases heff with
  | skipped => exact h.populated
  | slashed amt poolAmount hle hlt => exact h.populated
  | burned poolAmount hle hidx hsizes =>
    have hsize := hsizes s.currentCommittee mem_cons_self
    have hlen := h.one_lt_length hidx (by omega)
    rw [burnt_eq]
    change 0 < (Registry.withoutValidator _ _).validatorsAddresses.length
    rw [length_withoutValidator]
    exact Nat.sub_pos_of_lt hlen

theorem Populated.step (h : s.Populated) (c : RegistryCall) : (s.step bls c).Populated := by
  refine keep_step h fun s' houtc => ?_
  cases houtc with
  | effect _ _ _ heff =>
    refine { heff.enrolled h.toEnrolled with populated := ?_ }
    cases heff with
    | configured s' hcore =>
      rw [hcore]
      exact h.populated
    | unstaked a helig hlen hidx hfun =>
      change 0 < (Registry.withoutValidator _ _).validatorsAddresses.length
      rw [length_withoutValidator]
      exact Nat.sub_pos_of_lt hlen
    | _ => exact h.populated
  | slashes _ _ hok => exact keep_applySlashes (fun h heff => heff.populated h) h hok
  | staked _ _ _ _ _ _ hstk =>
    refine { hstk.enrolled h.toEnrolled with populated := ?_ }
    obtain ⟨isDelegated, delegations, rfl⟩ := hstk.result
    exact length_pos_of_mem mem_concat_self
  | concluded future _ _ _ =>
    refine { h.concluded future with populated := ?_ }
    obtain ⟨⟨vals, hfrm⟩, -⟩ := queued_concluded h.own future
    rw [hfrm]
    exact h.populated
  | upgraded _ _ => exact { h with }

theorem populated_construct {gcfg : StakeConfig} {owner : Address} {rlsBalance : Nat}
    (h : construct bls gcfg inits pfs owner rlsBalance = .ok s)
    (hdist : (inits.map validatorAddress).Nodup) : s.Populated := by
  obtain ⟨hne, hlen, hinit⟩ := construct_of_ok h
  rw [← map_address_zip hlen] at hdist
  refine (keep_addInitials (I := Enrolled) (J := Populated) (fun _ h => h.toEnrolled)
    (fun _ _ h hdead hstat hret _ => ⟨h.addInitial hdead hstat hret _, ?_⟩)
    (enrolled_blank _ _ _) (fun e _ => not_live_blank _ _ _ _) hdist hinit).2 (zip_ne_nil hne hlen)
  exact length_pos_of_mem mem_concat_self

/-- From a genesis with different addresses: no address is listed twice, the index of an address is
one more than its place and zero for addresses not in the list, the list holds the validators that
have staked and are not retired, and it is not empty. -/
theorem run_listed {genesisConfig : StakeConfig} {initialValidators : List ValidatorInfo}
    {proofs : List ProofOfPossession} {owner : Address} {rlsBalance : Nat} {genesis : Registry}
    (hgenesis : construct bls genesisConfig initialValidators proofs owner rlsBalance = .ok genesis)
    (hdistinct : (initialValidators.map validatorAddress).Nodup) (calls : List RegistryCall) :
    let s := genesis.run bls calls
    s.validatorsAddresses.Nodup ∧
      (∀ a i, s.validatorIndex a = i + 1 ↔ s.validatorsAddresses[i]? = some a) ∧
      (∀ a, s.validatorIndex a = 0 ↔ a ∉ s.validatorsAddresses) ∧
      (∀ a, a ∈ s.validatorsAddresses ↔ s.Live a) ∧ s.validatorsAddresses ≠ [] := by
  have h : (genesis.run bls calls).Populated :=
    foldlRecOn _ _ (populated_construct hgenesis hdistinct) fun s hs c _ => hs.step c
  refine ⟨h.listing.nodup, h.listing, fun a => ?_, fun a => h.mem_iff, length_pos_iff.mp h.populated⟩
  rw [h.listing.mem_iff, not_not]

theorem run_listed_small :
    let s := (smallGenesis (twoInitial ++ [initialValidator 3 3])).run ownBls
      [.applySlashes [(⟨1, 10⟩, ⟨0, none⟩)]]
    s.validatorsAddresses = [3, 2] ∧ ∀ a, a ∈ s.validatorsAddresses ↔ s.Live a := by
  refine ⟨by decide +kernel, ?_⟩
  exact (run_listed (construct_smallGenesis (by decide +kernel)) (by decide +kernel) _).2.2.2.1

/-- An address given twice is listed twice, and stays in the list when it is burned. -/
theorem listed_twice :
    let s := smallGenesis [initialValidator 1 1, initialValidator 1 1, initialValidator 2 2]
    s.validatorsAddresses = [1, 1, 2] ∧
      (s.run ownBls [.applySlashes [(⟨1, 10⟩, ⟨0, none⟩)]]).validatorsAddresses = [1, 2] := by
  decide +kernel

end Registry

end ConsensusRegistry

end Axyl
