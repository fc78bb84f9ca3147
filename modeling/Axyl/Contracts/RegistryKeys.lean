import Axyl.Contracts.RegistryValidators
import Axyl.Lib.Reactor

/-! Keys of validators. A key that a stake presents is marked as used, and the keys of the initial
validators are not; the proof of possession is of the uncompressed key that comes beside. -/

namespace Axyl
open List

namespace ConsensusRegistry
open Fallible (bind_eq_ok)
open ValidatorInfo

structure Accepted where
  blsPubkey : List UInt8
  validatorAddress : Address
  proof : ProofOfPossession
deriving DecidableEq, Repr

namespace Registry
variable {s s' : Registry} {bls : Bls} {a : Address} {c : RegistryCall}

def accepted (s : Registry) (bls : Bls) (c : RegistryCall) : List Accepted :=
  match s.call bls c, c.stakes with
  | .ok _, some (key, a, proof) => [⟨key, a, proof⟩]
  | _, _ => []

def react (bls : Bls) (s : Registry) (c : RegistryCall) : List Accepted × Registry :=
  (s.accepted bls c, s.step bls c)

structure KeyBook (bls : Bls) (genesisKeys : List (List UInt8)) (log : List Accepted)
    (s : Registry) : Prop where
  own : s.OwnAddresses
  origin : ∀ a, s.Live a → (s.validators a).blsPubkey ∈ genesisKeys ∨
    ∃ e ∈ log, e.validatorAddress = a ∧ e.blsPubkey = (s.validators a).blsPubkey
  distinct : ∀ a b, s.Live a → s.Live b →
    (s.validators a).blsPubkey = (s.validators b).blsPubkey → a = b
  used : ∀ e ∈ log, s.usedBLSPubkeys e.blsPubkey = true
  once : (log.map Accepted.blsPubkey).Nodup
  verified : ∀ e ∈ log, bls.verify e.proof e.validatorAddress = true

variable {genesisKeys : List (List UInt8)} {log : List Accepted}

/-! ### Steps -/

theorem KeyBook.of_advances (h : KeyBook bls genesisKeys log s)
    (hadv : ∀ x, Advances (s.validators x) (s'.validators x))
    (hused : s'.usedBLSPubkeys = s.usedBLSPubkeys) : KeyBook bls genesisKeys log s' := by
  refine ⟨h.own.of_advances hadv, ?_, ?_, ?_, h.once, h.verified⟩
  · intro a ha
    rw [(hadv a).blsPubkey]
    exact h.origin a ((hadv a).live ha)
  · intro a b ha hb heq
    rw [(hadv a).blsPubkey, (hadv b).blsPubkey] at heq
    exact h.distinct a b ((hadv a).live ha) ((hadv b).live hb) heq
  · rw [hused]
    exact h.used

theorem Effect.usedBLSPubkeys (h : Effect s s') : s'.usedBLSPubkeys = s.usedBLSPubkeys := by
  cases h with
  | configured s' hcore => rw [hcore]
  | unstaked a helig hlen hidx hfun =>
    unfold paidOut
    rw [withoutValidator_eq]
    rfl
  | _ => rfl

theorem usedBLSPubkeys_applySlashes {slashes : List (Slash × PoolAnswer)}
    (hok : s.applySlashes slashes = .ok s') : s'.usedBLSPubkeys = s.usedBLSPubkeys := by
  refine keep_applySlashes (I := fun t => t.usedBLSPubkeys = s.usedBLSPubkeys) ?_ rfl hok
  intro slash t t' ht heff
  cases heff with
  | burned poolAmount hle hidx hsizes =>
    unfold burnt paidOut
    rw [withoutValidator_eq]
    exact ht
  | _ => exact ht

variable {proof : ProofOfPossession} {key : List UInt8}

theorem KeyBook.staked (h : KeyBook bls genesisKeys log s) (hstk : Staked bls s key a proof s')
    (hkey : key ∉ genesisKeys) : KeyBook bls genesisKeys (log ++ [⟨key, a, proof⟩]) s' := by
  have hnew : ∀ e ∈ log, e.blsPubkey ≠ key := by
    intro e he heq
    have := h.used e he
    rw [heq, hstk.fresh] at this
    cases this
  have hoth : ∀ b, s.Live b → (s.validators b).blsPubkey ≠ key := by
    intro b hb heq
    rcases h.origin b hb with hgen | ⟨e, he, -, hkey'⟩
    · rw [heq] at hgen
      exact hkey hgen
    · exact hnew e he (hkey'.trans heq)
  obtain ⟨v, hvals, hv, haddr⟩ := hstk.validators
  have hused : s'.usedBLSPubkeys = Function.update s.usedBLSPubkeys key true := by
    obtain ⟨isDelegated, delegations, rfl⟩ := hstk.result
    rfl
  -- the record at the address is new, the others are as they were
  have hself : s'.validators a = v := by rw [hvals, Function.update_self]
  have hrest : ∀ b, b ≠ a → s'.validators b = s.validators b := by
    intro b hb
    rw [hvals, Function.update_of_ne hb]
  have hlive : ∀ b, b ≠ a → s'.Live b → s.Live b := by
    intro b hb hlive
    unfold Live at hlive
    rw [hrest b hb] at hlive
    exact hlive
  refine ⟨?_, ?_, ?_, ?_, ?_, ?_⟩
  · intro b hb
    by_cases hba : b = a
    · rw [hba, hself, haddr]
    · rw [hrest b hba]
      exact h.own b (hlive b hba hb)
  · intro b hb
    by_cases hba : b = a
    · right
      refine ⟨⟨key, a, proof⟩, by simp, hba.symm, ?_⟩
      rw [hba, hself, hv]
    · rw [hrest b hba]
      rcases h.origin b (hlive b hba hb) with hgen | ⟨e, he, hea, hek⟩
      · exact .inl hgen
      · exact .inr ⟨e, mem_append_left _ he, hea, hek⟩
  · intro b b' hb hb' heq
    by_cases hba : b = a <;> by_cases hba' : b' = a
    · rw [hba, hba']
    · rw [hba, hself, hv, hrest b' hba'] at heq
      exact absurd heq.symm (hoth b' (hlive b' hba' hb'))
    · rw [hba', hself, hv, hrest b hba] at heq
      exact absurd heq (hoth b (hlive b hba hb))
    · rw [hrest b hba, hrest b' hba'] at heq
      exact h.distinct b b' (hlive b hba hb) (hlive b' hba' hb') heq
  · intro e he
    rw [hused, Function.update_apply]
    split
    · rfl
    next hne =>
      rcases mem_append.mp he with he | he
      · exact h.used e he
      · rw [mem_singleton.mp he] at hne
        exact absurd rfl hne
  · rw [map_append]
    refine nodup_append.mpr ⟨h.once, nodup_singleton _, ?_⟩
    intro k hk k' hk' heq
    obtain ⟨e, he, rfl⟩ := mem_map.mp hk
    exact hnew e he (heq.trans (mem_singleton.mp hk'))
  · exact forall_mem_append.mpr ⟨h.verified, forall_mem_singleton.mpr hstk.verified⟩

theorem accepted_of_ok (hcall : s.call bls c = .ok s') (hstks : c.stakes = some (key, a, proof)) :
    s.accepted bls c = [⟨key, a, proof⟩] := by
  unfold accepted
  rw [hcall, hstks]

theorem accepted_eq_nil (h : (∀ s', s.call bls c ≠ .ok s') ∨ c.stakes = none) :
    s.accepted bls c = [] := by
  unfold accepted
  split
  next t key a proof hcall hstks =>
    rcases h with h | h
    · exact absurd hcall (h t)
    · rw [hstks] at h
      cases h
  next => rfl

theorem KeyBook.react (h : KeyBook bls genesisKeys log s)
    (hkey : ∀ key a proof, c.stakes = some (key, a, proof) → key ∉ genesisKeys) :
    KeyBook bls genesisKeys (log ++ (Registry.react bls s c).1) (Registry.react bls s c).2 := by
  change KeyBook bls genesisKeys (log ++ s.accepted bls c) (s.step bls c)
  rcases step_cases s bls c with ⟨hsame, hreverts⟩ | ⟨hcall, houtc⟩
  · rw [hsame, accepted_eq_nil (.inl hreverts), append_nil]
    exact h
  · generalize s.step bls c = s' at hcall houtc
    cases houtc with
    | effect _ _ hstks heff =>
      rw [accepted_eq_nil (.inr hstks), append_nil]
      exact h.of_advances heff.advances heff.usedBLSPubkeys
    | slashes _ _ hok =>
      rw [accepted_eq_nil (.inr rfl), append_nil]
      exact h.of_advances (advances_applySlashes hok) (usedBLSPubkeys_applySlashes hok)
    | staked _ key a proof _ hstks hstk =>
      rw [accepted_of_ok hcall hstks]
      exact h.staked hstk (hkey key a proof hstks)
    | concluded future _ _ _ =>
      rw [accepted_eq_nil (.inr rfl), append_nil]
      obtain ⟨⟨vals, hfrm⟩, hqd⟩ := queued_concluded h.own future
      refine h.of_advances (fun x => (hqd x).advances) ?_
      rw [hfrm]
      rfl
    | upgraded caller config =>
      rw [accepted_eq_nil (.inr rfl), append_nil]
      exact h.of_advances (fun x => .refl _) rfl

/-! ### Runs -/

theorem keyBook_construct {gcfg : StakeConfig} {inits : List ValidatorInfo}
    {proofs : List ProofOfPossession} {owner : Address} {rlsBalance : Nat}
    (h : construct bls gcfg inits proofs owner rlsBalance = .ok s)
    (hdist : (inits.map blsPubkey).Nodup) : KeyBook bls (inits.map blsPubkey) [] s := by
  refine ⟨fun a ha => (initial_of_live h ha).2, ?_, ?_, ?_, nodup_nil, ?_⟩
  · intro a ha
    exact .inl (mem_map_of_mem (initial_of_live h ha).1)
  · intro a b ha hb heq
    obtain ⟨hmem, haddr⟩ := initial_of_live h ha
    obtain ⟨hmem', haddr'⟩ := initial_of_live h hb
    have hrec := inj_on_of_nodup_map hdist hmem hmem' heq
    rw [← haddr, ← haddr', hrec]
  · intro e he
    cases he
  · intro e he
    cases he

/-- With distinct initial keys that no stake presents again, live validators have distinct keys,
no key is accepted twice, and each key comes from the genesis or from an accepted stake of its
validator, with a proof verified for that address. -/
theorem run_keys {genesisConfig : StakeConfig} {initialValidators : List ValidatorInfo}
    {proofs : List ProofOfPossession} {owner : Address} {rlsBalance : Nat} {genesis : Registry}
    (hgenesis : construct bls genesisConfig initialValidators proofs owner rlsBalance = .ok genesis)
    (hdistinct : (initialValidators.map blsPubkey).Nodup) {calls : List RegistryCall}
    (hfresh : ∀ c ∈ calls, ∀ key a proof, c.stakes = some (key, a, proof) →
      key ∉ initialValidators.map blsPubkey) :
    let r := Reactor.run (react bls) genesis calls
    let log := r.1
    let s := r.2
    (∀ a b, s.Live a → s.Live b →
        (s.validators a).blsPubkey = (s.validators b).blsPubkey → a = b) ∧
      (log.map Accepted.blsPubkey).Nodup ∧
      (∀ e ∈ log, bls.verify e.proof e.validatorAddress = true) ∧
      ∀ a, s.Live a → (s.validators a).blsPubkey ∈ initialValidators.map blsPubkey ∨
        ∃ e ∈ log, e.validatorAddress = a ∧ e.blsPubkey = (s.validators a).blsPubkey := by
  have hconstruct := keyBook_construct hgenesis hdistinct
  have h : KeyBook bls _ ([] ++ _) _ :=
    Reactor.run_history_of (fun log s c hlog hc => hlog.react hc) hconstruct
      (Reactor.always_of_forall (P := fun _ c => ∀ key a proof, c.stakes = some (key, a, proof) →
        key ∉ initialValidators.map blsPubkey) (fun c hc _ => hfresh c hc) genesis)
  exact ⟨h.distinct, h.once, h.verified, h.origin⟩

def oneStake : List RegistryCall :=
  [.setAllowlisted 9 3 true, .stake 3 (someKey 3) (proofOf 3) true]

theorem run_keys_staked :
    ((Reactor.run (react ownBls) (smallGenesis twoInitial) oneStake).1.map
      Accepted.blsPubkey).Nodup := by
  refine (run_keys (construct_smallGenesis (by decide +kernel)) (by decide +kernel) ?_).2.1
  intro c hc key a proof hstakes
  simp only [oneStake, mem_cons, not_mem_nil, or_false] at hc
  rcases hc with rfl | rfl
  · cases hstakes
  · cases hstakes
    decide +kernel

def stakedWith (key : List UInt8) : Registry :=
  (smallGenesis twoInitial).run ownBls
    [.setAllowlisted 9 3 true, .stake 3 key (proofOf 3) true]

def sharedGenesis : Registry := smallGenesis [initialValidator 1 1, initialValidator 2 1]

/-- The key of an initial validator is accepted again, by the constructor and by a stake, so that two
live validators have it; and the proof of one key lets any other be stored. -/
theorem stakedWith_same_key :
    ((stakedWith (someKey 1)).Live 1 ∧ (stakedWith (someKey 1)).Live 3 ∧
      ((stakedWith (someKey 1)).validators 1).blsPubkey =
        ((stakedWith (someKey 1)).validators 3).blsPubkey) ∧
    (sharedGenesis.Live 1 ∧ sharedGenesis.Live 2 ∧
      (sharedGenesis.validators 1).blsPubkey = (sharedGenesis.validators 2).blsPubkey) ∧
    ((stakedWith (someKey 3)).validators 3).blsPubkey = someKey 3 ∧
    ((stakedWith (someKey 4)).validators 3).blsPubkey = someKey 4 := by
  decide +kernel

end Registry

end ConsensusRegistry

end Axyl
