import Axyl.Contracts.RegistryEffects

/-! What a call does to the record of a validator: its key and its address stay, its status moves
forward, and a retired validator stays retired. -/

namespace Axyl
open Function

namespace ConsensusRegistry
open Fallible (bind_eq_ok)

/-- The later record of a validator. Only a burn defines a record that was not staked. -/
structure Advances (v v' : ValidatorInfo) : Prop where
  blsPubkey : v'.blsPubkey = v.blsPubkey
  validatorAddress : v'.validatorAddress = v.validatorAddress
  stakeVersion : v'.stakeVersion = v.stakeVersion
  rank : v.currentStatus.rank ≤ v'.currentStatus.rank
  retired : v.isRetired = true → v'.isRetired = true
  defined : v.currentStatus = .undefined → v'.currentStatus = .undefined ∨ v'.isRetired = true

theorem Advances.refl (v : ValidatorInfo) : Advances v v :=
  ⟨rfl, rfl, rfl, Nat.le_refl _, id, .inl⟩

theorem Advances.trans {u v w : ValidatorInfo} (h : Advances u v) (h' : Advances v w) :
    Advances u w := by
  refine ⟨h'.blsPubkey.trans h.blsPubkey, h'.validatorAddress.trans h.validatorAddress,
    h'.stakeVersion.trans h.stakeVersion, h.rank.trans h'.rank, fun hr => h'.retired (h.retired hr),
    fun hu => ?_⟩
  rcases h.defined hu with hv | hv
  · exact h'.defined hv
  · exact .inr (h'.retired hv)

theorem advances_withStatus {v : ValidatorInfo} {old new : ValidatorStatus}
    (hstat : v.currentStatus = old) (hdef : old ≠ .undefined) (hrank : old.rank ≤ new.rank)
    (activationEpoch exitEpoch : Nat) :
    Advances v { v with currentStatus := new, activationEpoch, exitEpoch } := by
  subst hstat
  exact ⟨rfl, rfl, rfl, hrank, id, fun h => absurd h hdef⟩

theorem rank_le_any (status : ValidatorStatus) : status.rank ≤ ValidatorStatus.any.rank := by
  cases status <;> decide

theorem advances_retired (v : ValidatorInfo) (exitEpoch : Nat) :
    Advances v { v with currentStatus := .any, isRetired := true, exitEpoch } :=
  ⟨rfl, rfl, rfl, rank_le_any _, fun _ => rfl, fun _ => .inr rfl⟩

def ValidatorInfo.Live (v : ValidatorInfo) : Prop :=
  v.currentStatus ≠ .undefined ∧ v.isRetired = false

theorem Advances.live {v v' : ValidatorInfo} (h : Advances v v') (hlive : v'.Live) : v.Live := by
  refine ⟨fun hundefined => ?_, ?_⟩
  · rcases h.defined hundefined with hstat | hret
    · exact hlive.1 hstat
    · rw [hlive.2] at hret
      cases hret
  · cases hret : v.isRetired with
    | false => rfl
    | true =>
      have := h.retired hret
      rw [hlive.2] at this
      cases this

namespace Registry
variable {s s' : Registry} {bls : Bls} {a x : Address}

def Live (s : Registry) (a : Address) : Prop := (s.validators a).Live

instance (s : Registry) (a : Address) : Decidable (s.Live a) :=
  inferInstanceAs (Decidable (_ ∧ _))

/-! ### Effects -/

variable {v : ValidatorInfo}

theorem advances_setValidator (h : Advances (s.validators a) v) (x : Address) :
    Advances (s.validators x) ((s.setValidator a v).validators x) := by
  change Advances _ (Function.update s.validators a v x)
  rw [update_apply]
  split
  next heq =>
    rw [heq]
    exact h
  next => exact .refl _

section
variable (s : Registry)

theorem validators_paidOut (a : Address) : (s.paidOut a).validators = s.validators := by
  unfold paidOut
  rw [withoutValidator_eq]

theorem advances_retire (a x : Address) : Advances (s.validators x) ((s.retire a).validators x) :=
  advances_setValidator (advances_retired (s.validators a) (s.validators a).exitEpoch) x

theorem validators_burnt (a : Address) :
    (s.burnt a).validators = Function.update s.validators a { s.validators a with
        currentStatus := .any
        isRetired := true
        exitEpoch := s.currentEpoch } := by
  unfold burnt retire exit
  rw [validators_paidOut]
  simp only [setValidator, update_self, update_idem]
  rfl

end

theorem Effect.advances (h : Effect s s') (x : Address) :
    Advances (s.validators x) (s'.validators x) := by
  cases h with
  | configured s' hcore =>
    rw [hcore]
    exact .refl _
  | activated a hstat =>
    exact advances_setValidator (advances_withStatus hstat (by decide) (by decide) _ _) x
  | claimed a hidx hrews hfun => exact .refl _
  | exiting a hidx hstat hoths =>
    exact advances_setValidator (advances_withStatus hstat (by decide) (by decide) _ _) x
  | unstaked a helig hlen hidx hfun =>
    rw [validators_paidOut]
    exact advances_retire s a x
  | withdrawn amt hslas hfun => exact .refl _

theorem SlashEffect.advances {slash : Slash} (h : SlashEffect slash s s') (x : Address) :
    Advances (s.validators x) (s'.validators x) := by
  cases h with
  | skipped | slashed amt poolAmount hle hlt => exact .refl _
  | burned poolAmount hle hidx hsizes =>
    rw [validators_burnt]
    exact advances_setValidator (s := s) (advances_retired (s.validators _) s.currentEpoch) x

theorem advances_applySlashes {slashes : List (Slash × PoolAnswer)}
    (hok : s.applySlashes slashes = .ok s') (x : Address) :
    Advances (s.validators x) (s'.validators x) :=
  keep_applySlashes (I := fun t => Advances (s.validators x) (t.validators x))
    (fun ht heff => ht.trans (heff.advances x)) (.refl _) hok

theorem Staked.validators {key : List UInt8} {proof : ProofOfPossession}
    (h : Staked bls s key a proof s') :
    ∃ v, s'.validators = Function.update s.validators a v ∧ v.blsPubkey = key ∧
      v.validatorAddress = a := by
  obtain ⟨isDelegated, delegations, rfl⟩ := h.result
  exact ⟨_, rfl, rfl, rfl⟩

/-! ### Queues -/

def OwnAddresses (s : Registry) : Prop :=
  ∀ a, s.Live a → (s.validators a).validatorAddress = a

variable {status : ValidatorStatus}

theorem mem_getValidators : v ∈ s.getValidators status ↔
      (∃ a ∈ s.validatorsAddresses, s.validators a = v) ∧ v.isRetired = false ∧
        status.queryMatches v.currentStatus = true := by
  unfold getValidators
  rw [List.mem_filter, List.mem_map, Bool.and_eq_true, Bool.not_eq_true']

theorem OwnAddresses.of_queued (hown : s.OwnAddresses) (hv : v ∈ s.getValidators status)
    (hany : status ≠ .any) (hact : status ≠ .active) (hdef : status ≠ .undefined) :
    s.validators v.validatorAddress = v ∧ v.currentStatus = status := by
  obtain ⟨⟨a, -, rfl⟩, hret, hmat⟩ := mem_getValidators.mp hv
  have hstat : (s.validators a).currentStatus = status := by
    unfold ValidatorStatus.queryMatches at hmat
    simpa [hany, hact] using hmat
  have haddr := hown a ⟨by rw [hstat]; exact hdef, hret⟩
  exact ⟨by rw [haddr], hstat⟩

def OnlyValidators (s s' : Registry) : Prop := ∃ validators, s' = { s with validators }

theorem OnlyValidators.refl (s : Registry) : s.OnlyValidators s := ⟨s.validators, rfl⟩

theorem OnlyValidators.trans {s'' : Registry} (h : s.OnlyValidators s')
    (h' : s'.OnlyValidators s'') : s.OnlyValidators s'' := by
  obtain ⟨vals, rfl⟩ := h
  obtain ⟨vals', rfl⟩ := h'
  exact ⟨vals', rfl⟩

theorem onlyValidators_setValidator (s : Registry) (a : Address) (v : ValidatorInfo) :
    s.OnlyValidators (s.setValidator a v) := ⟨_, rfl⟩

theorem foldl_records {R : Address → ValidatorInfo → Prop} (que : List ValidatorInfo)
    (process : Registry → ValidatorInfo → Registry) (hst : ∀ x, R x (s.validators x))
    (hstep : ∀ t, s.OnlyValidators t → ∀ v ∈ que, process t v = t ∨
      ∃ w, process t v = t.setValidator v.validatorAddress w ∧
        (R v.validatorAddress (t.validators v.validatorAddress) → R v.validatorAddress w)) :
    s.OnlyValidators (que.foldl process s) ∧ ∀ x, R x ((que.foldl process s).validators x) := by
  refine List.foldlRecOn
    (motive := fun (t : Registry) => s.OnlyValidators t ∧ ∀ x, R x (t.validators x))
    que process ⟨.refl s, hst⟩ ?_
  intro t ht v hv
  rcases hstep t ht.1 v hv with hsame | ⟨w, hset, hw⟩
  · rw [hsame]
    exact ht
  · rw [hset]
    refine ⟨ht.1.trans (onlyValidators_setValidator t _ w), fun x => ?_⟩
    change R x (Function.update t.validators v.validatorAddress w x)
    rw [update_apply]
    split
    next hx =>
      rw [hx]
      exact hw (ht.2 _)
    next => exact ht.2 x

/-- What both queues make of a record at the close of an epoch; a validator exits that is in none
of the committees. -/
inductive Queued (epoch : Nat) (inCommittee : Prop) (v : ValidatorInfo) : ValidatorInfo → Prop
  | same : Queued epoch inCommittee v v
  | activated (hstatus : v.currentStatus = .pendingActivation) :
      Queued epoch inCommittee v { v with currentStatus := .active }
  | exited (hstatus : v.currentStatus = .pendingExit) (hout : ¬ inCommittee) :
      Queued epoch inCommittee v { v with currentStatus := .exited, exitEpoch := epoch }

variable {w : ValidatorInfo}

theorem Queued.advances {ep : Nat} {inCommittee : Prop} (h : Queued ep inCommittee v w) :
    Advances v w := by
  cases h with
  | same => exact .refl _
  | activated hstat | exited hstat hout =>
    exact advances_withStatus hstat (by decide) (by decide) _ _

theorem activated_queue (hown : s.OwnAddresses) :
    s.OnlyValidators ((s.getValidators .pendingActivation).foldl activateQueued s) ∧
      ∀ x, Queued s.currentEpoch True (s.validators x)
        (((s.getValidators .pendingActivation).foldl activateQueued s).validators x) := by
  refine foldl_records (R := fun x w => Queued s.currentEpoch True (s.validators x) w) _ _
    (fun x => .same) ?_
  intro t _ v hv
  obtain ⟨hrec, hstat⟩ := hown.of_queued hv (by decide) (by decide) (by decide)
  refine .inr ⟨_, rfl, fun ht => ?_⟩
  rw [hrec] at ht ⊢
  generalize t.validators v.validatorAddress = w at ht
  cases ht with
  | same | activated _ => exact .activated hstat
  | exited _ hout => exact absurd trivial hout

theorem Queued.weaken {ep : Nat} (h : Queued ep True v w) (inCommittee : Prop) :
    Queued ep inCommittee v w := by
  cases h with
  | same => exact .same
  | activated hstat => exact .activated hstat
  | exited _ hout => exact absurd trivial hout

theorem OwnAddresses.of_advances (hown : s.OwnAddresses)
    (h : ∀ x, Advances (s.validators x) (s'.validators x)) : s'.OwnAddresses := by
  intro a ha
  rw [(h a).validatorAddress]
  exact hown a ((h a).live ha)

def InCommittees (s : Registry) (futureCommittee : List Address) (x : Address) : Prop :=
  x ∈ s.currentCommittee ∨ x ∈ s.nextCommittee ∨ x ∈ futureCommittee

theorem exitQueued_cases {t u : Registry} {future : List Address}
    (hactv : ∀ x, Queued s.currentEpoch True (s.validators x) (t.validators x)) (hown : t.OwnAddresses)
    (hu : s.OnlyValidators u) (hv : v ∈ t.getValidators .pendingExit) : exitQueued future u v = u ∨
      ∃ w, exitQueued future u v = u.setValidator v.validatorAddress w ∧
        (Queued s.currentEpoch (s.InCommittees future v.validatorAddress)
            (s.validators v.validatorAddress) (u.validators v.validatorAddress) →
          Queued s.currentEpoch (s.InCommittees future v.validatorAddress)
            (s.validators v.validatorAddress) w) := by
  obtain ⟨hrec, hstat⟩ := hown.of_queued hv (by decide) (by decide) (by decide)
  have hbef : s.validators v.validatorAddress = v := by
    have h := hactv v.validatorAddress
    rw [hrec] at h
    generalize s.validators v.validatorAddress = w at h
    cases h with
    | same => rfl
    | activated _ => cases hstat
    | exited _ hout => exact absurd trivial hout
  obtain ⟨vals, rfl⟩ := hu
  unfold exitQueued
  dsimp only
  split
  · exact .inl rfl
  next hout =>
    refine .inr ⟨_, rfl, fun h => ?_⟩
    rw [hbef] at h ⊢
    change Queued _ _ v { vals v.validatorAddress with
      currentStatus := .exited, exitEpoch := s.currentEpoch }
    generalize vals v.validatorAddress = w at h
    cases h with
    | same => exact .exited hstat hout
    | activated hpend =>
      rw [hstat] at hpend
      cases hpend
    | exited _ _ => exact .exited hstat hout

theorem queued_updateValidatorQueue (hown : s.OwnAddresses) (future : List Address) :
    s.OnlyValidators (s.updateValidatorQueue future) ∧
      ∀ x, Queued s.currentEpoch (s.InCommittees future x) (s.validators x)
        ((s.updateValidatorQueue future).validators x) := by
  obtain ⟨hfrm, hactv⟩ := activated_queue hown
  unfold updateValidatorQueue
  generalize (s.getValidators .pendingActivation).foldl activateQueued s = t at hfrm hactv
  have htown : t.OwnAddresses := hown.of_advances fun x => (hactv x).advances
  obtain ⟨hfrm', hqd⟩ := foldl_records (s := t)
    (R := fun x w => Queued s.currentEpoch (s.InCommittees future x) (s.validators x) w)
    (t.getValidators .pendingExit) (exitQueued future) (fun x => (hactv x).weaken _)
    fun u hu v hv => exitQueued_cases hactv htown (hfrm.trans hu) hv
  exact ⟨hfrm.trans hfrm', hqd⟩

theorem ring_succ (p : Fin 4) : p + 1 + 1 = p + 2 ∧ p + 2 ≠ p + 1 + 2 := by
  revert p
  decide

theorem committees_updateEpochInfo (s : Registry) (futureCommittee : List Address) :
    (s.updateEpochInfo futureCommittee).currentCommittee = s.nextCommittee ∧
      (s.updateEpochInfo futureCommittee).nextCommittee = s.subsequentCommittee ∧
      (s.updateEpochInfo futureCommittee).subsequentCommittee = futureCommittee := by
  obtain ⟨hsucc, hne⟩ := ring_succ s.epochPointer
  simp [updateEpochInfo, currentCommittee, nextCommittee, subsequentCommittee, hsucc, hne]

theorem queued_concluded (hown : s.OwnAddresses) (future : List Address) :
    (s.updateEpochInfo future).OnlyValidators (s.concluded future) ∧
      ∀ x, Queued (s.currentEpoch + 1)
        (x ∈ s.nextCommittee ∨ x ∈ s.subsequentCommittee ∨ x ∈ future)
        (s.validators x) ((s.concluded future).validators x) := by
  have hown' : (s.updateEpochInfo future).OwnAddresses := hown
  obtain ⟨hfrm, hqd⟩ := queued_updateValidatorQueue hown' future
  refine ⟨hfrm, fun x => ?_⟩
  have hx := hqd x
  obtain ⟨hcur, hnext, -⟩ := committees_updateEpochInfo s future
  unfold InCommittees at hx
  rw [hcur, hnext] at hx
  exact hx

theorem OnlyValidators.committees (h : s.OnlyValidators s') : s'.committees = s.committees := by
  obtain ⟨vals, rfl⟩ := h
  rfl

theorem committees_concluded (hown : s.OwnAddresses) (future : List Address) :
    (s.concluded future).committees = [s.nextCommittee, s.subsequentCommittee, future] := by
  obtain ⟨hcur, hnext, hsub⟩ := committees_updateEpochInfo s future
  rw [(queued_concluded hown future).1.committees, committees, hcur, hnext, hsub]

/-! ### The constructor -/

theorem validators_addInitials {stake : Nat} {initials : List (ValidatorInfo × ProofOfPossession)}
    (h : addInitials bls stake s initials = .ok s') (x : Address) :
    s'.validators x = s.validators x ∨
      ∃ e ∈ initials, e.1.validatorAddress = x ∧ s'.validators x = e.1 := by
  induction initials generalizing s with
  | nil =>
    cases h
    exact .inl rfl
  | cons head rest ih =>
    obtain ⟨-, -, hrest⟩ := bind_eq_ok.mp h
    rcases ih hrest with hsame | ⟨e, he, hx, hrec⟩
    · have hadd : (s.addInitial head.1 stake).validators
          = Function.update s.validators head.1.validatorAddress head.1 := rfl
      rw [hadd] at hsame
      by_cases hx : x = head.1.validatorAddress
      · right
        refine ⟨head, List.mem_cons_self, hx.symm, ?_⟩
        rw [hsame, hx, update_self]
      · left
        rw [hsame, update_of_ne hx]
    · exact .inr ⟨e, List.mem_cons_of_mem head he, hx, hrec⟩

theorem initial_of_live {gcfg : StakeConfig} {inits : List ValidatorInfo}
    {proofs : List ProofOfPossession} {owner : Address} {rlsBalance : Nat}
    (h : construct bls gcfg inits proofs owner rlsBalance = .ok s) (hlive : s.Live x) :
    s.validators x ∈ inits ∧ (s.validators x).validatorAddress = x := by
  obtain ⟨-, -, hinit⟩ := construct_of_ok h
  rcases validators_addInitials hinit x with hsame | ⟨e, he, hx, hrec⟩
  · rw [Live, hsame] at hlive
    exact absurd rfl hlive.1
  · rw [hrec]
    exact ⟨(List.of_mem_zip he).1, hx⟩

end Registry

end ConsensusRegistry

end Axyl
