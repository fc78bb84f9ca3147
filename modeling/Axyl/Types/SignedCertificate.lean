import Axyl.Lib.Bitmap
import Axyl.Types.Certificate

/-! Certificates with their signer bitmap and aggregate signature, and the checks of both. Keys and
signatures are byte strings read as numbers. -/

namespace Axyl

inductive CertificateError where
  | storage (e : String)
  | header (e : HeaderError)
  | inquorate (stake threshold : Nat)
  | invalidSignature
  | tooOld (digest round gcRound : Nat)
  | recoverBlsAggregateSignatureBytes
  | unsigned
deriving Repr, DecidableEq

/-- A committee with the key of every member. The identifier of a member is the hash of its key. -/
structure KeyedCommittee extends Committee where
  protocolKey : Nat → Nat
  keys_nodup : (authorities.map fun a => protocolKey a.id).Nodup

namespace KeyedCommittee

variable (c : KeyedCommittee)

def blsKeys : List Nat := (c.authorities.map fun a => c.protocolKey a.id).insertionSort (· ≤ ·)

theorem nodup_blsKeys : c.blsKeys.Nodup :=
  (List.perm_insertionSort (· ≤ ·) _).nodup_iff.mpr c.keys_nodup

def signers (bitmap : Bitmap) : Finset Nat :=
  c.blsKeys.toFinset.filter fun key => ∃ i ∈ bitmap.indexes, c.blsKeys[i]? = some key

theorem mem_signers {bitmap : Bitmap} {key : Nat} :
    key ∈ c.signers bitmap ↔ ∃ i ∈ bitmap.indexes, c.blsKeys[i]? = some key := by
  rw [signers, Finset.mem_filter, List.mem_toFinset]
  constructor
  · exact And.right
  · rintro ⟨i, hi, hkey⟩
    exact ⟨List.mem_of_getElem? hkey, i, hi, hkey⟩

end KeyedCommittee

def quorumThreshold (committeeMembers : Nat) : Nat := 2 * committeeMembers / 3 + 1

/-- The state carries the signature. `verifiedIndirectly` is not assigned any more. -/
inductive SignatureVerificationState where
  | unsigned (sig : Nat)
  | unverified (sig : Nat)
  | verifiedDirectly (sig : Nat)
  | verifiedIndirectly (sig : Nat)
  | genesis
deriving Repr, DecidableEq

structure SignedCertificate extends Certificate where
  signatureVerificationState : SignatureVerificationState
  signedAuthorities : Bitmap
deriving Repr, DecidableEq

/-- The committee of the epoch, the digests of its genesis headers and the check of an aggregate
signature over a digest. -/
structure SigningConfig where
  committee : KeyedCommittee
  genesisDigest : Nat → Nat
  verifySecure : (sig digest : Nat) → List Nat → Bool

namespace SigningConfig

variable (cfg : SigningConfig)

def genesis : List Certificate :=
  cfg.committee.authorities.map fun a =>
    ⟨⟨a.id, 0, cfg.committee.epoch, 0, [], [], cfg.genesisDigest a.id⟩⟩

end SigningConfig

def Certificate.same (c d : Certificate) : Bool :=
  c.digest = d.digest ∧ c.round = d.round ∧ c.epoch = d.epoch ∧ c.origin = d.origin

namespace SignedCertificate

variable (cfg : SigningConfig) (c : SignedCertificate)

def aggregatedSignature : Option Nat :=
  match c.signatureVerificationState with
  | .verifiedDirectly sig | .verifiedIndirectly sig | .unverified sig | .unsigned sig => some sig
  | .genesis => none

def isVerified : Bool :=
  match c.signatureVerificationState with
  | .verifiedDirectly _ | .verifiedIndirectly _ | .genesis => true
  | .unverified _ | .unsigned _ => false

def validateReceived : Except CertificateError SignedCertificate :=
  match c.aggregatedSignature with
  | some sig => .ok { c with signatureVerificationState := .unverified sig }
  | none => .error .recoverBlsAggregateSignatureBytes

def signedBy (keys : List Nat) : Nat × List Nat :=
  let pks := c.signedAuthorities.pick keys
  (pks.length, pks)

def verifySignature (pks : List Nat) : Except CertificateError SignedCertificate :=
  match c.signatureVerificationState with
  | .verifiedDirectly _ | .verifiedIndirectly _ | .genesis => .ok c
  | .unsigned _ => .error .unsigned
  | .unverified sig =>
    if cfg.verifySecure sig c.digest pks then
      .ok { c with signatureVerificationState := .verifiedDirectly sig }
    else .error .invalidSignature

def verifyCert (keys : List Nat) : Except CertificateError SignedCertificate :=
  match c.validateReceived with
  | .error e => .error e
  | .ok c =>
    let (weight, pks) := c.signedBy keys
    if weight < quorumThreshold keys.length then
      .error (.inquorate weight (quorumThreshold keys.length))
    else c.verifySignature cfg pks

def validateAndVerify : Except CertificateError SignedCertificate :=
  let committee := cfg.committee
  if c.epoch ≠ committee.epoch then .error (.header (.invalidEpoch c.epoch committee.epoch))
  else if c.round = 0 ∧ cfg.genesis.any c.same then .ok c
  else
    match c.header.validate committee.toCommittee with
    | .error e => .error (.header e)
    | .ok () =>
      let (weight, pks) := c.signedBy committee.blsKeys
      if weight < committee.quorumThreshold then
        .error (.inquorate weight committee.quorumThreshold)
      else c.verifySignature cfg pks

def Signed : Prop :=
  ∃ sig pks, c.aggregatedSignature = some sig ∧ pks.Nodup ∧
    pks.toFinset = cfg.committee.signers c.signedAuthorities ∧ cfg.verifySecure sig c.digest pks

def QuorumSigned : Prop :=
  cfg.committee.quorumThreshold ≤ (cfg.committee.signers c.signedAuthorities).card ∧ c.Signed cfg

variable {cfg c} {d : SignedCertificate} {keys : List Nat}

theorem toFinset_pick (bitmap : Bitmap) :
    (bitmap.pick cfg.committee.blsKeys).toFinset = cfg.committee.signers bitmap := by
  ext key
  rw [List.mem_toFinset, Bitmap.mem_pick, KeyedCommittee.mem_signers]

theorem nodup_pick_blsKeys (bitmap : Bitmap) : (bitmap.pick cfg.committee.blsKeys).Nodup :=
  Bitmap.nodup_pick cfg.committee.nodup_blsKeys

theorem length_pick (bitmap : Bitmap) :
    (bitmap.pick cfg.committee.blsKeys).length = (cfg.committee.signers bitmap).card := by
  rw [← toFinset_pick, List.toFinset_card_of_nodup (nodup_pick_blsKeys bitmap)]

def Trusted (cfg : SigningConfig) (c : SignedCertificate) : Prop :=
  c.isVerified = true → c.epoch = cfg.committee.epoch → c.Signed cfg

theorem Trusted.of_unverified (h : c.isVerified = false) : c.Trusted cfg := by
  intro hver
  rw [h] at hver
  cases hver

theorem validateReceived_spec (h : c.validateReceived = .ok d) :
    d.isVerified = false ∧ d.toCertificate = c.toCertificate := by
  unfold validateReceived at h
  split at h
  · cases h
    exact ⟨rfl, rfl⟩
  · cases h

theorem verifySignature_of_verified (h : c.isVerified = true) (pks : List Nat) :
    c.verifySignature cfg pks = .ok c := by
  unfold isVerified at h
  unfold verifySignature
  split at h
  · next heq => rw [heq]
  · next heq => rw [heq]
  · next heq => rw [heq]
  · cases h
  · cases h

theorem verifySignature_of_unverified {pks : List Nat} (hc : c.isVerified = false)
    (h : c.verifySignature cfg pks = .ok d) : ∃ sig, cfg.verifySecure sig c.digest pks = true ∧
      d = { c with signatureVerificationState := .verifiedDirectly sig } := by
  unfold isVerified at hc
  unfold verifySignature at h
  split at h
  · next heq =>
    rw [heq] at hc
    cases hc
  · next heq =>
    rw [heq] at hc
    cases hc
  · next heq =>
    rw [heq] at hc
    cases hc
  · cases h
  · next sig _ =>
    split at h
    · next hsecure => exact ⟨sig, hsecure, (Except.ok.inj h).symm⟩
    · cases h

theorem signed_of_verifySecure {sig : Nat}
    (h : cfg.verifySecure sig c.digest (c.signedAuthorities.pick cfg.committee.blsKeys) = true) :
    Signed cfg { c with signatureVerificationState := .verifiedDirectly sig } :=
  ⟨sig, _, rfl, nodup_pick_blsKeys _, toFinset_pick _, h⟩

theorem verifyCert_spec (h : c.verifyCert cfg keys = .ok d)
    (hkeys : c.epoch = cfg.committee.epoch → keys = cfg.committee.blsKeys) :
    d.toCertificate = c.toCertificate ∧ d.Trusted cfg := by
  unfold verifyCert at h
  split at h
  · cases h
  · next e hrecv =>
    obtain ⟨hunv, hcert⟩ := validateReceived_spec hrecv
    dsimp only at h
    split at h
    · cases h
    · obtain ⟨sig, hsecure, rfl⟩ := verifySignature_of_unverified hunv h
      refine ⟨hcert, fun _ hep => signed_of_verifySecure ?_⟩
      have hep' : c.epoch = cfg.committee.epoch := by
        rw [← hep]
        exact congrArg Certificate.epoch hcert.symm
      rw [← hkeys hep']
      exact hsecure

def IsGenesis (cfg : SigningConfig) (c : SignedCertificate) : Prop :=
  c.round = 0 ∧ cfg.genesis.any c.same

section
variable (h : c.validateAndVerify cfg = .ok d)
include h

theorem quorumSigned_of_validateAndVerify (hc : c.Trusted cfg) (hgen : ¬ c.IsGenesis cfg) :
    d.QuorumSigned cfg := by
  unfold IsGenesis at hgen
  unfold validateAndVerify at h
  dsimp only at h
  split at h
  · cases h
  · next hep =>
    split at h
    · cases h
    · split at h
      · cases h
      · next hwt =>
        have hquo : cfg.committee.quorumThreshold ≤
            (cfg.committee.signers c.signedAuthorities).card := by
          rw [← length_pick]
          exact Nat.le_of_not_lt hwt
        cases hver : c.isVerified with
        | true =>
          rw [verifySignature_of_verified hver] at h
          cases h
          exact ⟨hquo, hc hver (not_not.mp hep)⟩
        | false =>
          obtain ⟨sig, hsecure, rfl⟩ := verifySignature_of_unverified hver h
          exact ⟨hquo, signed_of_verifySecure hsecure⟩

omit h in
theorem toCertificate_verifySignature {pks : List Nat} (h : c.verifySignature cfg pks = .ok d) :
    d.toCertificate = c.toCertificate := by
  unfold verifySignature at h
  split at h
  · cases h
    rfl
  · cases h
    rfl
  · cases h
    rfl
  · cases h
  · split at h
    · cases h
      rfl
    · cases h

theorem toCertificate_validateAndVerify : d.toCertificate = c.toCertificate := by
  unfold validateAndVerify at h
  dsimp only at h
  split at h
  · cases h
  · split at h
    · cases h
      rfl
    · split at h
      · cases h
      · split at h
        · cases h
        · exact toCertificate_verifySignature h

theorem validateAndVerify_spec (hc : c.Trusted cfg) (hrnd : 1 ≤ d.round) : d.QuorumSigned cfg := by
  apply quorumSigned_of_validateAndVerify h hc
  intro hgen
  have hcert : d.round = c.round := congrArg Certificate.round (toCertificate_validateAndVerify h)
  rw [hcert, hgen.1] at hrnd
  omega

end

end SignedCertificate

end Axyl
