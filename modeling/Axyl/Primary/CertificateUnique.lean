import Axyl.Primary.Proposer
import Axyl.Primary.QuorumSigned

/-! Two certificates for one author, epoch and round. The bitmap is read against keys without
repetition, so a count of signers is the size of a set of members, and two quorums of one committee
share more members than may be faulty. A genesis certificate is accepted without signers. -/

namespace Axyl
open List Finset

theorem Committee.totalVotingPower_of_equal {c : Committee}
    (h : ∀ a ∈ c.authorities, a.votingPower = 1) : c.totalVotingPower = c.size := by
  unfold totalVotingPower size
  rw [map_congr_left h, map_const', sum_replicate_nat, mul_one]

namespace KeyedCommittee

variable (c : KeyedCommittee)

theorem length_blsKeys : c.blsKeys.length = c.size := by
  unfold blsKeys
  rw [length_insertionSort, length_map]
  rfl

theorem signers_subset (bitmap : Bitmap) : c.signers bitmap ⊆ c.blsKeys.toFinset :=
  filter_subset _ _

theorem card_blsKeys : c.blsKeys.toFinset.card = c.size := by
  rw [toFinset_card_of_nodup c.nodup_blsKeys, length_blsKeys]

theorem card_signers_add_le (a b : Bitmap) :
    (c.signers a).card + (c.signers b).card ≤ c.size + (c.signers a ∩ c.signers b).card := by
  have hunion : (c.signers a ∪ c.signers b).card ≤ c.size := by
    rw [← card_blsKeys]
    apply card_le_card
    exact union_subset (c.signers_subset a) (c.signers_subset b)
  have hsum := card_union_add_card_inter (c.signers a) (c.signers b)
  omega

end KeyedCommittee

/-- What is assumed of the votes behind the signatures of an epoch. At most `f` members are faulty.
Another member signs votes only, at most one for an author, epoch and round, and `slot` is what a
digest says of the header it belongs to: digests do not collide. -/
structure Electorate (cfg : SigningConfig) where
  faulty : Finset Nat
  card_faulty : faulty.card ≤ (cfg.committee.size - 1) / 3
  votes : Nat → Vote → Prop
  slot : Nat → Nat × Nat × Nat
  signed_votes : ∀ sig digest pks, cfg.verifySecure sig digest pks = true →
    ∀ key ∈ pks, key ∉ faulty → ∃ v, votes key v ∧ v.headerDigest = digest
  slot_votes : ∀ key v, key ∉ faulty → votes key v →
    slot v.headerDigest = (v.origin, v.epoch, v.round)
  one_vote : ∀ key v w, key ∉ faulty → votes key v → votes key w → v.origin = w.origin →
    v.epoch = w.epoch → v.round = w.round → v.headerDigest = w.headerDigest

def Electorate.RefusesRoundZero {cfg : SigningConfig} (e : Electorate cfg) : Prop :=
  ∀ key v, key ∉ e.faulty → e.votes key v → 1 ≤ v.round

namespace SignedCertificate

variable {cfg : SigningConfig} {c d : SignedCertificate}

def Accepted (cfg : SigningConfig) (c d : SignedCertificate) : Prop :=
  c.verifyCert cfg cfg.committee.blsKeys = .ok d ∨
    ∃ r, c.validateReceived = .ok r ∧ r.validateAndVerify cfg = .ok d

theorem IsGenesis.of_eq (h : c.IsGenesis cfg) (heq : d.toCertificate = c.toCertificate) :
    d.IsGenesis cfg := by
  unfold IsGenesis at *
  rw [heq]
  exact h

variable (e : Electorate cfg)

theorem QuorumSigned.voted (h : c.QuorumSigned cfg) {key : Nat}
    (hkey : key ∈ cfg.committee.signers c.signedAuthorities) (hhon : key ∉ e.faulty) :
    ∃ v, e.votes key v ∧ v.headerDigest = c.digest := by
  obtain ⟨-, sig, pks, -, -, hpks, hsecure⟩ := h
  apply e.signed_votes sig c.digest pks hsecure key _ hhon
  rw [← mem_toFinset, hpks]
  exact hkey

theorem exists_not_faulty {s : Finset Nat} (h : (cfg.committee.size - 1) / 3 < s.card) :
    ∃ key ∈ s, key ∉ e.faulty := by
  apply exists_mem_notMem_of_card_lt_card
  exact lt_of_le_of_lt e.card_faulty h

section
variable (heql : ∀ a ∈ cfg.committee.authorities, a.votingPower = 1)
include heql

theorem quorumSigned_of_verifyCert (h : c.verifyCert cfg cfg.committee.blsKeys = .ok d) :
    d.QuorumSigned cfg := by
  unfold verifyCert at h
  split at h
  · cases h
  · next r hrecv =>
    obtain ⟨hunv, -⟩ := validateReceived_spec hrecv
    dsimp only at h
    split at h
    · cases h
    · next hwt =>
      obtain ⟨sig, hsecure, rfl⟩ := verifySignature_of_unverified hunv h
      refine ⟨?_, signed_of_verifySecure hsecure⟩
      rw [KeyedCommittee.length_blsKeys] at hwt
      have hle : Axyl.quorumThreshold cfg.committee.size ≤
          (cfg.committee.signers r.signedAuthorities).card := by
        rw [← length_pick]
        exact Nat.le_of_not_lt hwt
      unfold Committee.quorumThreshold
      rw [Committee.totalVotingPower_of_equal heql]
      exact hle

theorem Accepted.quorumSigned (h : Accepted cfg c d) (hd : ¬ d.IsGenesis cfg) :
    d.QuorumSigned cfg := by
  rcases h with h | ⟨r, hrecv, h⟩
  · exact quorumSigned_of_verifyCert heql h
  · obtain ⟨hunv, -⟩ := validateReceived_spec hrecv
    apply quorumSigned_of_validateAndVerify h (Trusted.of_unverified hunv)
    intro hgen
    exact hd (hgen.of_eq (toCertificate_validateAndVerify h))

theorem QuorumSigned.size_lt (h : c.QuorumSigned cfg) :
    2 * cfg.committee.size < 3 * (cfg.committee.signers c.signedAuthorities).card := by
  have hquo := h.1
  unfold Committee.quorumThreshold at hquo
  rw [Committee.totalVotingPower_of_equal heql] at hquo
  omega

theorem QuorumSigned.inter (hc : c.QuorumSigned cfg) (hd : d.QuorumSigned cfg) :
    cfg.committee.validityThreshold ≤ (cfg.committee.signers c.signedAuthorities ∩
        cfg.committee.signers d.signedAuthorities).card ∧
      (cfg.committee.size - 1) / 3 < (cfg.committee.signers c.signedAuthorities ∩
        cfg.committee.signers d.signedAuthorities).card := by
  have hshared := cfg.committee.card_signers_add_le c.signedAuthorities d.signedAuthorities
  have hc' := hc.size_lt heql
  have hd' := hd.size_lt heql
  have htot := Committee.totalVotingPower_of_equal heql
  constructor
  · unfold Committee.validityThreshold
    split
    · omega
    · omega
  · omega

theorem QuorumSigned.digest_eq (hc : c.QuorumSigned cfg) (hd : d.QuorumSigned cfg)
    (hslot : e.slot c.digest = e.slot d.digest) : c.digest = d.digest := by
  obtain ⟨key, hkey, hhon⟩ := exists_not_faulty e (hc.inter heql hd).2
  obtain ⟨hkc, hkd⟩ := mem_inter.mp hkey
  obtain ⟨v, hv, hvc⟩ := hc.voted e hkc hhon
  obtain ⟨w, hw, hwd⟩ := hd.voted e hkd hhon
  have hsame : (v.origin, v.epoch, v.round) = (w.origin, w.epoch, w.round) := by
    rw [← e.slot_votes key v hhon hv, ← e.slot_votes key w hhon hw, hvc, hwd, hslot]
  simp only [Prod.mk.injEq] at hsame
  rw [← hvc, ← hwd]
  exact e.one_vote key v w hhon hv hw hsame.1 hsame.2.1 hsame.2.2

theorem QuorumSigned.round_pos (hc : c.QuorumSigned cfg)
    (hslot : e.slot c.digest = (c.origin, c.epoch, c.round)) (hzero : e.RefusesRoundZero) :
    1 ≤ c.round := by
  have hbig : (cfg.committee.size - 1) / 3 <
      (cfg.committee.signers c.signedAuthorities).card := by
    have hsize := hc.size_lt heql
    omega
  obtain ⟨key, hkey, hhon⟩ := exists_not_faulty e hbig
  obtain ⟨v, hv, hvc⟩ := hc.voted e hkey hhon
  have hrnd := e.slot_votes key v hhon hv
  rw [hvc, hslot] at hrnd
  simp only [Prod.mk.injEq] at hrnd
  rw [hrnd.2.2]
  exact hzero key v hhon hv

end

theorem IsGenesis.digest_eq (hc : c.IsGenesis cfg) (hd : d.IsGenesis cfg)
    (horig : c.origin = d.origin) : c.digest = d.digest := by
  have hdig : ∀ {x : SignedCertificate}, x.IsGenesis cfg →
      x.digest = cfg.genesisDigest x.origin := by
    rintro x ⟨-, hx⟩
    obtain ⟨g, hg, hsame⟩ := any_eq_true.mp hx
    obtain ⟨a, -, rfl⟩ := mem_map.mp hg
    obtain ⟨hx, -, -, ho⟩ := of_decide_eq_true hsame
    rw [hx, ho]
    rfl
  rw [hdig hc, hdig hd, horig]

/-- Accepted certificates for one author, epoch and round that are not genesis certificates share
at least as many signers as validity asks for, and are for one header as long as all but `f` members
give one vote. With members that refuse round zero that holds for genesis certificates as well. -/
theorem accepted_unique (hequal : ∀ a ∈ cfg.committee.authorities, a.votingPower = 1)
    {c' d' : SignedCertificate} (hc : Accepted cfg c c') (hd : Accepted cfg d d')
    (horigin : c'.origin = d'.origin) (hepoch : c'.epoch = d'.epoch)
    (hround : c'.round = d'.round) :
    (¬ c'.IsGenesis cfg → ¬ d'.IsGenesis cfg →
      cfg.committee.validityThreshold ≤ (cfg.committee.signers c'.signedAuthorities ∩
        cfg.committee.signers d'.signedAuthorities).card) ∧
    ∀ e : Electorate cfg, e.slot c'.digest = (c'.origin, c'.epoch, c'.round) →
      e.slot d'.digest = (d'.origin, d'.epoch, d'.round) →
      (¬ c'.IsGenesis cfg ∧ ¬ d'.IsGenesis cfg ∨ e.RefusesRoundZero) →
      c'.digest = d'.digest := by
  constructor
  · intro hgc hgd
    exact ((hc.quorumSigned hequal hgc).inter hequal (hd.quorumSigned hequal hgd)).1
  · intro e hsc hsd hrule
    have hslot : e.slot c'.digest = e.slot d'.digest := by
      rw [hsc, hsd, horigin, hepoch, hround]
    by_cases hgc : c'.IsGenesis cfg
    · have hzero : e.RefusesRoundZero := hrule.resolve_left fun h => h.1 hgc
      by_cases hgd : d'.IsGenesis cfg
      · exact hgc.digest_eq hgd horigin
      · have hpos := (hd.quorumSigned hequal hgd).round_pos e hequal hsd hzero
        rw [← hround, hgc.1] at hpos
        omega
    · by_cases hgd : d'.IsGenesis cfg
      · have hzero : e.RefusesRoundZero := hrule.resolve_left fun h => h.2 hgd
        have hpos := (hc.quorumSigned hequal hgc).round_pos e hequal hsc hzero
        rw [hround, hgd.1] at hpos
        omega
      · exact (hc.quorumSigned hequal hgc).digest_eq e hequal (hd.quorumSigned hequal hgd) hslot

/-! Four members. A signature is the sum of the digest and the keys, and a digest is the round of
its header, a header of the first member. -/

def fourMembers : SigningConfig where
  committee :=
    { Proposer.fourProposers with
      protocolKey := fun id => 10 - id
      keys_nodup := by decide }
  genesisDigest author := author
  verifySecure sig digest pks := sig = digest + pks.sum

def onePerRound : Electorate fourMembers where
  faulty := {9}
  card_faulty := by decide
  votes _ v := v.origin = 1 ∧ v.epoch = 1 ∧ v.headerDigest = v.round
  slot digest := (1, 1, digest)
  signed_votes _ digest _ _ _ _ _ := ⟨⟨digest, digest, 1, 1, 0⟩, ⟨rfl, rfl, rfl⟩, rfl⟩
  slot_votes _ v _ hv := by rw [hv.1, hv.2.1, hv.2.2]
  one_vote _ v w _ hv hw _ _ hround := by rw [hv.2.2, hw.2.2, hround]

def headerOfRound (round : Nat) : Certificate := ⟨⟨1, round, 1, 0, [], [], round⟩⟩

/-- One header with two sets of three signers. -/
theorem accepted_unique_fourMembers :
    let committee := fourMembers.committee
    let c : SignedCertificate := ⟨headerOfRound 5, .unverified 26, ⟨[0, 1, 2], by decide⟩⟩
    let d : SignedCertificate := ⟨headerOfRound 5, .unverified 29, ⟨[1, 2, 3], by decide⟩⟩
    ∃ c' d', Accepted fourMembers c c' ∧ Accepted fourMembers d d' ∧
      committee.validityThreshold = 2 ∧
      2 ≤ (committee.signers c'.signedAuthorities ∩ committee.signers d'.signedAuthorities).card ∧
      c'.digest = d'.digest := by
  intro committee c d
  have hc : Accepted fourMembers c { c with signatureVerificationState := .verifiedDirectly 26 } :=
    .inl (by decide +kernel)
  have hd : Accepted fourMembers d { d with signatureVerificationState := .verifiedDirectly 29 } :=
    .inr ⟨d, by decide +kernel, by decide +kernel⟩
  have hgenesis : ∀ x : SignedCertificate, x.round = 5 → ¬ x.IsGenesis fourMembers := by
    intro x hx hgenesis
    have hzero := hgenesis.1
    omega
  obtain ⟨hshared, hdigest⟩ := accepted_unique (by decide) hc hd rfl rfl rfl
  refine ⟨_, _, hc, hd, by decide, hshared (hgenesis _ rfl) (hgenesis _ rfl), ?_⟩
  exact hdigest onePerRound rfl rfl (.inl ⟨hgenesis _ rfl, hgenesis _ rfl⟩)

/-- In round zero the genesis certificate of a member is accepted without a signer, next to another
header of the member that the whole committee signed. -/
theorem accepted_genesis_unsigned :
    let committee := fourMembers.committee
    let c : SignedCertificate := ⟨⟨⟨1, 0, 1, 0, [], [], 1⟩⟩, .unverified 0, ⟨[], by decide⟩⟩
    let d : SignedCertificate := ⟨⟨⟨1, 0, 1, 0, [], [], 50⟩⟩, .unverified 80,
      ⟨[0, 1, 2, 3], by decide⟩⟩
    ∃ c' d', Accepted fourMembers c c' ∧ Accepted fourMembers d d' ∧ c'.origin = d'.origin ∧
      c'.epoch = d'.epoch ∧ c'.round = d'.round ∧ c'.digest ≠ d'.digest ∧
      (committee.signers c'.signedAuthorities ∩ committee.signers d'.signedAuthorities).card <
        committee.validityThreshold := by
  intro committee c d
  have hc : Accepted fourMembers c c := .inr ⟨c, by decide +kernel, by decide +kernel⟩
  have hd : Accepted fourMembers d { d with signatureVerificationState := .verifiedDirectly 80 } :=
    .inr ⟨d, by decide +kernel, by decide +kernel⟩
  exact ⟨_, _, hc, hd, rfl, rfl, rfl, by decide, by decide +kernel⟩

end SignedCertificate

end Axyl
