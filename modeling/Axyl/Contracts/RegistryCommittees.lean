import Axyl.Contracts.RegistryEnrolled
import Axyl.Lib.Fold

/-! The committees of the current and the next two epochs are made of validators with a stake at
risk. -/

namespace Axyl
open List Function

namespace ConsensusRegistry
open Fallible (bind_eq_ok)
open ValidatorInfo

namespace Registry
variable {s s' : Registry} {bls : Bls} {a : Address}

/-- Every live validator has a stake, and committees are made of eligible ones. -/
structure Bonded (s : Registry) : Prop extends Enrolled s where
  versioned : ∀ a, (s.validators a).stakeVersion ≤ s.stakeVersion
  epochs : ∀ j, (s.epochInfo j).stakeVersion ≤ s.stakeVersion
  staked : ∀ version ≤ s.stakeVersion, 0 < (s.versions version).stakeAmount
  funded : ∀ a, s.Live a → 0 < s.balances a
  distinct : ∀ c ∈ s.committees, c.Nodup
  eligible : ∀ c ∈ s.committees, ∀ a ∈ c, (s.validators a).currentStatus.eligible = true

def Seated (s : Registry) : Prop := ∀ c ∈ s.committees, c ≠ []

theorem not_eligible_of_unstake (h : s.eligibleForUnstake (s.validators a) = true) :
    (s.validators a).currentStatus.eligible = false := by
  unfold eligibleForUnstake at h
  simp only [Bool.or_eq_true, Bool.and_eq_true, beq_iff_eq] at h
  rcases h with h | ⟨h, -⟩
  · rw [h]
    rfl
  · rw [h]
    rfl

theorem Bonded.initialStake_pos (h : s.Bonded) (a : Address) : 0 < s.initialStake a :=
  h.staked _ (h.versioned a)

/-! ### Steps -/

variable {v : ValidatorInfo}

section
variable (h : s.Bonded)
include h

theorem Bonded.versioned_update (hvers : v.stakeVersion ≤ s.stakeVersion)
    (b : Address) : (update s.validators a v b).stakeVersion ≤ s.stakeVersion :=
  (forall_update_iff s.validators fun _ w => w.stakeVersion ≤ s.stakeVersion).mpr
    ⟨hvers, fun b _ => h.versioned b⟩ b

theorem Bonded.setValidator (hlive : s.Live a) (henr : (s.setValidator a v).Enrolled)
    (hvers : v.stakeVersion = (s.validators a).stakeVersion)
    (helig : v.currentStatus.eligible = true) : (s.setValidator a v).Bonded := by
  refine ⟨henr, h.versioned_update (hvers ▸ h.versioned a), h.epochs, h.staked, ?_,
    h.distinct, fun c hc => ?_⟩
  · exact (forall_update_iff s.validators fun b w => w.Live → 0 < s.balances b).mpr
      ⟨fun _ => h.funded a hlive, fun b _ => h.funded b⟩
  · exact (forall_update_iff s.validators fun b w => b ∈ c → w.currentStatus.eligible = true).mpr
      ⟨fun _ => helig, fun b _ => h.eligible c hc b⟩

theorem Bonded.leave (hout : ∀ c ∈ s.committees, a ∉ c) (hidx : s.validatorIndex a ≠ 0)
    (hany : v.currentStatus = .any) (hret : v.isRetired = true)
    (hvers : v.stakeVersion = (s.validators a).stakeVersion) (bal : Nat) : (({ s with
        validators := update s.validators a v
        balances := update s.balances a bal } : Registry).paidOut a).Bonded := by
  have henr := h.toEnrolled.leave hidx hany hret bal
  unfold Registry.paidOut at henr ⊢
  rw [withoutValidator_eq] at henr ⊢
  refine ⟨henr, h.versioned_update (hvers ▸ h.versioned a), h.epochs, h.staked, ?_,
    h.distinct, fun c hc => ?_⟩
  · refine (forall_update_iff s.validators fun b w => w.Live →
      0 < update (update s.balances a bal) a 0 b).mpr
      ⟨fun hlive => ?_, fun b hb hlive => ?_⟩
    · cases hlive.2.symm.trans hret
    · rw [update_of_ne hb, update_of_ne hb]
      exact h.funded b hlive
  · exact (forall_update_iff s.validators fun b w => b ∈ c → w.currentStatus.eligible = true).mpr
      ⟨fun ha => absurd ha (hout c hc), fun b _ => h.eligible c hc b⟩

theorem Bonded.ejectedAll (a : Address) :
    (s.ejectedAll a).Bonded ∧ ∀ c ∈ (s.ejectedAll a).committees, a ∉ c := by
  have hcoms := committees_ejectedAll s a
  refine ⟨{ h with epochs := ?_, distinct := ?_, eligible := ?_ }, ?_⟩
  · intro j
    change (update s.epochInfo s.epochPointer _ j).stakeVersion ≤ s.stakeVersion
    rw [update_apply]
    split
    · exact h.epochs s.epochPointer
    · exact h.epochs j
  all_goals rw [hcoms, forall_mem_map]
  · intro c hc
    exact (h.distinct c hc).erase a
  · intro c hc b hb
    exact h.eligible c hc b (mem_of_mem_erase hb)
  · intro c hc
    exact (h.distinct c hc).not_mem_erase

theorem Bonded.setBalance {bal : Nat} (hpos : 0 < bal) : (s.setBalance a bal).Bonded := by
  refine { h with funded := ?_ }
  intro b hb
  change 0 < update s.balances a bal b
  rw [update_apply]
  split
  · exact hpos
  · exact h.funded b hb

theorem Effect.bonded (heff : Effect s s') : s'.Bonded := by
  have henr := heff.enrolled h.toEnrolled
  cases heff with
  | configured s' hcore =>
    rw [hcore]
    exact { h with }
  | activated a hstat =>
    have hlive : s.Live a := h.live_of_status (by rw [hstat]; decide) (by rw [hstat]; decide)
    exact h.setValidator hlive henr rfl rfl
  | claimed a hidx hrews hfun =>
    exact { (h.setBalance (h.initialStake_pos a)) with }
  | exiting a hidx hstat hoths =>
    exact h.setValidator ((h.records a).listed.mp hidx) henr rfl rfl
  | unstaked a helig hlen hidx hfun =>
    have hout : ∀ c ∈ s.committees, a ∉ c := by
      intro c hc ha
      have := h.eligible c hc a ha
      rw [not_eligible_of_unstake helig] at this
      cases this
    rw [retire_eq]
    apply h.leave hout hidx
    · rfl
    · rfl
    · rfl
  | withdrawn amt hslas hfun => exact { h with }

theorem SlashEffect.bonded {slash : Slash} (heff : SlashEffect slash s s') : s'.Bonded := by
  cases heff with
  | skipped => exact h
  | slashed amt poolAmount hle hlt =>
    exact { (h.setBalance (by omega)) with }
  | burned poolAmount hle hidx hsizes =>
    have hfun : (s.withSlashed poolAmount).Bonded := { h with }
    obtain ⟨hejected, hout⟩ := hfun.ejectedAll slash.validatorAddress
    rw [burnt_eq]
    apply hejected.leave hout hidx
    · rfl
    · rfl
    · rfl

theorem Bonded.join (hdead : ¬ s.Live a) {amt : Nat}
    (henr : ((s.setValidator a v).recordStake a amt).Enrolled)
    (hvers : v.stakeVersion ≤ s.stakeVersion) (hpos : 0 < amt) :
    ((s.setValidator a v).recordStake a amt).Bonded := by
  refine ⟨henr, h.versioned_update hvers, h.epochs, h.staked, ?_, h.distinct, fun c hc => ?_⟩
  · refine (forall_update_iff s.validators fun b w => w.Live →
      0 < update s.balances a amt b).mpr ⟨fun _ => ?_, fun b hb hlive => ?_⟩
    · rw [update_self]
      exact hpos
    · rw [update_of_ne hb]
      exact h.funded b hlive
  · refine (forall_update_iff s.validators fun b w => b ∈ c → w.currentStatus.eligible = true).mpr
      ⟨fun ha => ?_, fun b _ => h.eligible c hc b⟩
    exact absurd (h.live_of_eligible (h.eligible c hc a ha)) hdead

theorem Staked.bonded {key : List UInt8} {proof : ProofOfPossession}
    (hstk : Staked bls s key a proof s') : s'.Bonded := by
  have hdead : ¬ s.Live a := fun hlive => hlive.1 hstk.undefined
  have hvers : s.getCurrentEpochInfo.stakeVersion ≤ s.stakeVersion := h.epochs s.epochPointer
  have hpos := h.staked _ hvers
  have henr := hstk.enrolled h.toEnrolled
  obtain ⟨isDelegated, delegations, rfl⟩ := hstk.result
  have hjoin := h.join hdead { henr with } hvers hpos
  exact { hjoin with }

theorem Bonded.length_le_eligible {c : List Address} (hc : c ∈ s.committees) :
    c.length ≤ (s.getValidators .active).length :=
  h.toEnrolled.length_le (h.distinct c hc) (h.eligible c hc)

theorem Bonded.concluded {future : List Address} (hsort : future.Pairwise (· < ·))
    (hmems : ∀ a ∈ future, a ∈ (s.getValidators .active).map validatorAddress) :
    (s.concluded future).Bonded := by
  have hcoms := committees_concluded h.own future
  have henr := h.toEnrolled.concluded future
  obtain ⟨⟨vals, hfrm⟩, hqd⟩ := queued_concluded h.own future
  -- two committees of the new epochs are old ones, and the third is the one given
  have hnext : s.nextCommittee ∈ s.committees := by simp [committees]
  have hsub : s.subsequentCommittee ∈ s.committees := by simp [committees]
  refine ⟨henr, ?_, ?_, ?_, ?_, ?_, ?_⟩
  · intro x
    rw [(hqd x).advances.stakeVersion, hfrm]
    exact h.versioned x
  · intro j
    rw [hfrm]
    change (update s.epochInfo (s.epochPointer + 1) _ j).stakeVersion ≤ s.stakeVersion
    rw [update_apply]
    split
    · exact le_refl _
    · exact h.epochs j
  · rw [hfrm]
    exact h.staked
  · intro x hx
    have hlive : s.Live x := (hqd x).advances.live hx
    rw [hfrm]
    exact h.funded x hlive
  · rw [hcoms]
    simp only [forall_mem_cons]
    exact ⟨h.distinct _ hnext, h.distinct _ hsub, hsort.imp fun hlt => ne_of_lt hlt,
      forall_mem_nil _⟩
  · rw [hcoms]
    simp only [forall_mem_cons]
    refine ⟨fun x hx => ?_, fun x hx => ?_, fun x hx => ?_, forall_mem_nil _⟩
    · exact (hqd x).eligible (.inl hx) (h.eligible _ hnext x hx)
    · exact (hqd x).eligible (.inr (.inl hx)) (h.eligible _ hsub x hx)
    · exact (hqd x).eligible (.inr (.inr hx)) (h.mem_getValidators_iff.mp (hmems x hx))

theorem Bonded.upgraded {config : StakeConfig} (hpos : config.stakeAmount ≠ 0) :
    (s.upgraded config).Bonded := by
  refine { h with versioned := ?_, epochs := ?_, staked := ?_ }
  · intro a
    exact (h.versioned a).trans (Nat.le_succ _)
  · intro j
    exact (h.epochs j).trans (Nat.le_succ _)
  · intro version hvers
    change 0 < (update s.versions (s.stakeVersion + 1) config version).stakeAmount
    rw [update_apply]
    split
    next => exact Nat.pos_of_ne_zero hpos
    next hne =>
      have hle : version ≤ s.stakeVersion + 1 := hvers
      exact h.staked version (by omega)

end

/-! ### Seats -/

theorem Effect.seated (h : s.Seated) (heff : Effect s s') : s'.Seated := by
  cases heff with
  | configured s' hcore =>
    rw [hcore]
    exact h
  | unstaked a helig hlen hidx hfun =>
    unfold paidOut
    rw [withoutValidator_eq]
    exact h
  | _ => exact h

theorem SlashEffect.seated {slash : Slash} (h : s.Seated) (heff : SlashEffect slash s s') :
    s'.Seated := by
  cases heff with
  | skipped => exact h
  | slashed amt poolAmount hle hlt => exact h
  | burned poolAmount hle hidx hsizes =>
    have hcoms := committees_ejectedAll (s.withSlashed poolAmount) slash.validatorAddress
    rw [burnt_eq]
    unfold paidOut
    rw [withoutValidator_eq]
    change ∀ c ∈ ((s.withSlashed poolAmount).ejectedAll slash.validatorAddress).committees, c ≠ []
    rw [hcoms, forall_mem_map]
    intro c hc hnil
    exact (hsizes c hc).1 (length_eq_zero_iff.mpr hnil)

/-! ### Runs -/

/-- A committee is chosen from the eligible validators, and a new stake version asks for a
stake. -/
def Regular (s : Registry) : RegistryCall → Prop
  | .concludeEpoch futureCommittee => ∀ a ∈ futureCommittee,
      a ∈ (s.getValidators .active).map validatorAddress
  | .upgradeStakeVersion _ config => config.stakeAmount ≠ 0
  | _ => True

theorem Bonded.step (h : s.Bonded ∧ s.Seated) (c : RegistryCall) (hc : s.Regular c) :
    (s.step bls c).Bonded ∧ (s.step bls c).Seated := by
  refine keep_step (I := fun s => s.Bonded ∧ s.Seated) h fun s' houtc => ?_
  cases houtc with
  | effect _ _ _ heff => exact ⟨heff.bonded h.1, heff.seated h.2⟩
  | slashes _ _ hok =>
    exact keep_applySlashes (I := fun s => s.Bonded ∧ s.Seated)
      (fun h heff => ⟨heff.bonded h.1, heff.seated h.2⟩) h hok
  | staked _ key a proof _ _ hstk =>
    refine ⟨hstk.bonded h.1, ?_⟩
    obtain ⟨isDelegated, delegations, rfl⟩ := hstk.result
    exact h.2
  | concluded future hsort hne _ =>
    refine ⟨h.1.concluded hsort hc, ?_⟩
    unfold Seated
    rw [committees_concluded h.1.own]
    intro c hc
    simp only [mem_cons, not_mem_nil, or_false] at hc
    rcases hc with rfl | rfl | rfl
    · exact h.2 _ (by simp [Registry.committees])
    · exact h.2 _ (by simp [Registry.committees])
    · exact fun hnil => hne (length_eq_zero_iff.mpr hnil)
  | upgraded caller config => exact ⟨h.1.upgraded hc, h.2⟩

theorem OwnAddresses.rank_le_step (hown : s.OwnAddresses) (c : RegistryCall) (x : Address) :
    (s.validators x).currentStatus.rank ≤ ((s.step bls c).validators x).currentStatus.rank := by
  refine keep_step (I := fun t => _ ≤ (t.validators x).currentStatus.rank) (le_refl _)
    fun s' houtc => ?_
  cases houtc with
  | effect _ _ _ heff => exact (heff.advances x).rank
  | slashes _ _ hok => exact (advances_applySlashes hok x).rank
  | staked _ key a proof _ _ hstk =>
    obtain ⟨v, hvals, -⟩ := hstk.validators
    rw [hvals, update_apply]
    split
    next hx =>
      rw [hx, hstk.undefined]
      exact Nat.zero_le _
    next => exact le_refl _
  | concluded future _ _ _ => exact ((queued_concluded hown _).2 x).advances.rank
  | upgraded _ _ => exact le_refl _

theorem Bonded.unstake_ne (h : s.Bonded) {c : List Address} (hc : c ∈ s.committees) (ha : a ∈ c)
    (caller : Address) (r : Nat × Registry) : s.unstake caller a ≠ .ok r := by
  intro hok
  unfold unstake at hok
  simp only [bind_eq_ok] at hok
  obtain ⟨-, -, -, -, hok⟩ := hok
  split at hok
  · cases hok
  next helig =>
    have hmember := h.eligible c hc a ha
    rw [not_eligible_of_unstake (by simpa using helig)] at hmember
    cases hmember

/-! ### Genesis -/

def seatedWith (s : Registry) (a : Address) : Registry :=
  { s with
    epochInfo := pushMembers s.epochInfo a
    futureEpochInfo := pushMembers s.futureEpochInfo a }

theorem committees_seatedWith (hptr : s.epochPointer = 0) (a : Address) :
    (s.seatedWith a).committees = s.committees.map fun c => c ++ [a] := by
  simp [committees, currentCommittee, nextCommittee, subsequentCommittee, seatedWith, pushMembers,
    pushMember, hptr]

theorem Bonded.seatedWith (h : s.Bonded) (hptr : s.epochPointer = 0)
    (hout : ∀ c ∈ s.committees, a ∉ c) (ha : (s.validators a).currentStatus.eligible = true) :
    (s.seatedWith a).Bonded := by
  refine { h with epochs := ?_, distinct := ?_, eligible := ?_ }
  · intro j
    change (pushMembers s.epochInfo a j).stakeVersion ≤ s.stakeVersion
    unfold pushMembers
    split
    · exact h.epochs j
    · exact h.epochs j
  all_goals rw [committees_seatedWith hptr a, forall_mem_map]
  · intro c hc
    refine nodup_append.mpr ⟨h.distinct c hc, nodup_singleton a, ?_⟩
    rintro b hb b' hb' rfl
    rw [mem_singleton.mp hb'] at hb
    exact hout c hc hb
  · intro c hc
    exact forall_mem_append.mpr ⟨h.eligible c hc, forall_mem_singleton.mpr ha⟩

theorem Bonded.addInitial (h : s.Bonded) (hptr : s.epochPointer = 0) {stake : Nat}
    (hdead : ¬ s.Live v.validatorAddress) (hstat : v.currentStatus = .active)
    (hret : v.isRetired = false) (hvers : v.stakeVersion = 0) (hpos : 0 < stake) :
    (s.addInitial v stake).Bonded ∧ (s.addInitial v stake).Seated := by
  have henr := h.toEnrolled.addInitial hdead hstat hret stake
  have hjoin := h.join hdead { henr with } (by rw [hvers]; exact Nat.zero_le _) hpos
  have hout : ∀ c ∈ s.committees, v.validatorAddress ∉ c :=
    fun c hc ha => hdead (h.live_of_eligible (h.eligible c hc _ ha))
  have helig : (((s.setValidator v.validatorAddress v).recordStake v.validatorAddress
      stake).validators v.validatorAddress).currentStatus.eligible = true := by
    change (update s.validators v.validatorAddress v _).currentStatus.eligible = true
    rw [update_self, hstat]
    rfl
  have hseated := hjoin.seatedWith hptr hout helig
  refine ⟨{ hseated with }, ?_⟩
  change ∀ c ∈ (s.seatedWith v.validatorAddress).committees, c ≠ []
  rw [committees_seatedWith hptr, forall_mem_map]
  exact fun c _ => append_ne_nil_of_right_ne_nil c (cons_ne_nil _ _)

variable {gcfg : StakeConfig}

theorem bonded_blank (hpos : gcfg.stakeAmount ≠ 0)
    (owner : Address) (rlsBalance : Nat) : (blank gcfg owner rlsBalance).Bonded := by
  have hemp : ∀ c ∈ (blank gcfg owner rlsBalance).committees, c = [] := by
    simp [committees, currentCommittee, nextCommittee, subsequentCommittee, blank]
  refine ⟨enrolled_blank _ _ _, fun a => le_refl 0, ?_, ?_, ?_, ?_, ?_⟩
  · intro j
    change (if j = 3 then ({} : EpochInfo) else _).stakeVersion ≤ 0
    split
    · exact le_refl 0
    · exact le_refl 0
  · intro version hvers
    obtain rfl : version = 0 := Nat.le_zero.mp hvers
    exact Nat.pos_of_ne_zero hpos
  · intro a ha
    exact absurd ha (not_live_blank _ _ _ a)
  · intro c hc
    rw [hemp c hc]
    exact nodup_nil
  · intro c hc a ha
    rw [hemp c hc] at ha
    cases ha

theorem bonded_construct {inits : List ValidatorInfo}
    {proofs : List ProofOfPossession} {owner : Address} {rlsBalance : Nat}
    (h : construct bls gcfg inits proofs owner rlsBalance = .ok s)
    (hdist : (inits.map validatorAddress).Nodup)
    (hpos : gcfg.stakeAmount ≠ 0) : s.Bonded ∧ s.Seated := by
  obtain ⟨hne, hlen, hinit⟩ := construct_of_ok h
  rw [← map_address_zip hlen] at hdist
  refine ((keep_addInitials (I := fun s => s.Bonded ∧ s.epochPointer = 0)
    (J := fun s => (s.Bonded ∧ s.Seated) ∧ s.epochPointer = 0) (fun _ h => ⟨h.1.1, h.2⟩)
    (fun _ _ h hdead hstat hret hvers => ⟨h.1.addInitial h.2 hdead hstat hret hvers ?_, h.2⟩)
    ⟨bonded_blank hpos owner rlsBalance, rfl⟩ (fun e _ => not_live_blank _ _ _ _)
    hdist hinit).2 (zip_ne_nil hne hlen)).1
  exact Nat.pos_of_ne_zero hpos

/-- From a genesis with different addresses and a stake, and with committees chosen from the
eligible validators: members of the committees of the current and the next two epochs are not
retired, are eligible, have a balance and cannot unstake; no committee is empty or larger than the
number of eligible validators; and statuses move forward. -/
theorem run_bonded {genesisConfig : StakeConfig} {initialValidators : List ValidatorInfo}
    {proofs : List ProofOfPossession} {owner : Address} {rlsBalance : Nat} {genesis : Registry}
    (hgenesis : construct bls genesisConfig initialValidators proofs owner rlsBalance = .ok genesis)
    (hdistinct : (initialValidators.map validatorAddress).Nodup)
    (hpos : genesisConfig.stakeAmount ≠ 0) {calls : List RegistryCall}
    (hcalls : Fold.Along (fun s c => s.step bls c) Regular genesis calls) :
    let s := genesis.run bls calls
    (∀ c ∈ s.committees, c ≠ [] ∧ c.length ≤ (s.getValidators .active).length ∧
        ∀ a ∈ c, s.isRetired a = false ∧ (s.validators a).currentStatus.eligible = true ∧
          s.balances a ≠ 0 ∧ ∀ caller r, s.unstake caller a ≠ .ok r) ∧
      ∀ c a, (s.validators a).currentStatus.rank
        ≤ ((s.step bls c).validators a).currentStatus.rank := by
  have hstart := bonded_construct hgenesis hdistinct hpos
  have h := Fold.foldl_of_along (I := fun s : Registry => s.Bonded ∧ s.Seated)
    (fun s c h hc => Bonded.step h c hc) hstart hcalls
  change (genesis.run bls calls).Bonded ∧ (genesis.run bls calls).Seated at h
  refine ⟨fun c hc => ⟨h.2 c hc, h.1.length_le_eligible hc, fun a ha => ?_⟩, h.1.own.rank_le_step⟩
  have heligible := h.1.eligible c hc a ha
  have hlive := h.1.live_of_eligible heligible
  refine ⟨?_, heligible, ne_of_gt (h.1.funded a hlive), h.1.unstake_ne hc ha⟩
  unfold isRetired
  rw [if_neg hlive.1]
  exact hlive.2

def smallCalls : List RegistryCall :=
  [.setAllowlisted 9 3 true, .stake 3 (someKey 3) (proofOf 3) true, .activate 3,
    .concludeEpoch [1, 2, 3], .beginExit 1, .applySlashes [(⟨2, 4⟩, ⟨0, none⟩)],
    .concludeEpoch [2, 3]]

theorem run_bonded_small :
    let s := (smallGenesis twoInitial).run ownBls smallCalls
    s.currentEpoch = 2 ∧ ∀ c ∈ s.committees,
      c ≠ [] ∧ c.length ≤ (s.getValidators .active).length := by
  intro s
  have hcalls : Fold.Along (fun s c => s.step ownBls c) Regular (smallGenesis twoInitial)
      smallCalls := by
    refine ⟨trivial, trivial, trivial, ?_, trivial, trivial, ?_, trivial⟩
    · exact forall_mem_cons.mpr ⟨by decide +kernel, forall_mem_cons.mpr
        ⟨by decide +kernel, forall_mem_singleton.mpr (by decide +kernel)⟩⟩
    · exact forall_mem_cons.mpr ⟨by decide +kernel, forall_mem_singleton.mpr (by decide +kernel)⟩
  refine ⟨by decide +kernel, fun c hc => ?_⟩
  have h := (run_bonded (construct_smallGenesis (by decide +kernel)) (by decide +kernel)
    (by decide) hcalls).1 c hc
  exact ⟨h.1, h.2.1⟩

/-- With an address given twice, a burn leaves a retired member in the committee; and with no stake
asked for, members have none. -/
theorem retired_member :
    (let s := (smallGenesis [initialValidator 1 1, initialValidator 1 1, initialValidator 2 2]).run
      ownBls [.applySlashes [(⟨1, 10⟩, ⟨0, none⟩)]]
    s.currentCommittee = [1, 2] ∧ s.isRetired 1 = true) ∧
    (construct ownBls {} [initialValidator 1 1] [proofOf 1] 9 0).toOption.map
      (fun s => (s.currentCommittee, s.balances 1)) = some ([1], 0) := by
  decide +kernel

end Registry

end ConsensusRegistry

end Axyl
