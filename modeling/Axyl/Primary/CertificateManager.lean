import Axyl.Primary.PendingCertificates

/-! The certificate manager: verified certificates are stored and forwarded to consensus, or wait for
their parents. What the channels and the store answer is an input. The aggregators of parents for
the proposer are left out. -/

namespace Axyl
open List
open Std (ExtTreeMap ExtTreeSet)

structure CertConfig extends SigningConfig where
  order : SetOrder
  gcDepth : Nat
  /-- The keys of committees of other epochs. -/
  otherCommitteeKeys : Nat → Option (List Nat)
  certificateVerificationChunkSize : Nat
  chunkSize_pos : 0 < certificateVerificationChunkSize
  maxDiff : Nat

inductive IntakeError where
  | invalidTopic
  | certManager (e : CertManagerError)
  | header (e : HeaderError)
deriving Repr, DecidableEq

inductive CertEffect where
  /-- The certificates go to the certificate manager; the task waits for its answer. -/
  | handed (task : Nat) (certs : List SignedCertificate)
  | stored (certs : List SignedCertificate)
  /-- On the channel of new certificates. -/
  | forwarded (cert : SignedCertificate)
  /-- The fetcher is asked for the parents. -/
  | ancestors (cert : SignedCertificate)
  | parents (round : Nat)
  | answered (task : Nat) (result : CertManagerResult Unit)
  | missingParents (digests : List Nat)
  | refused (e : IntakeError)
deriving DecidableEq

def CertEffect.certificates : CertEffect → List SignedCertificate
  | .handed _ certs => certs
  | .stored certs => certs
  | .forwarded cert => [cert]
  | _ => []

/-- A certificate on its way to consensus: it is sent, it is skipped since the node shuts down, or a
channel is closed; `raced` says that the shutdown is noticed after the failure. -/
inductive ForwardOutcome where
  | sent
  | skipped
  | appendFailed (raced : Bool)
  | sendFailed (raced : Bool)
deriving DecidableEq, Repr

/-- The answers of the store and of the channels, by the digests of the certificates. -/
structure ManagerEnv where
  readFailure : Nat → Option String
  fetcherFailure : Nat → Option String
  writeFailure : List Nat → Option String
  outcome : Nat → ForwardOutcome

def ManagerEnv.good : ManagerEnv := ⟨fun _ => none, fun _ => none, fun _ => none, fun _ => .sent⟩

def ManagerEnv.unaware (env : ManagerEnv) : ManagerEnv :=
  { env with outcome := fun digest =>
      match env.outcome digest with
      | .sent | .skipped => .sent
      | .appendFailed _ => .appendFailed false
      | .sendFailed _ => .sendFailed false }

/-- `gcRound` and `highestProcessedRound` are shared with the validator, which only reads the first
and only raises the second. -/
structure CertificateManager where
  pending : PendingCertificateManager
  store : CertificateStore
  gcRound : Nat
  highestProcessedRound : Nat
  certsAccepted : Nat
  certStoreRound : Nat
  running : Bool

abbrev ManagerResult := List CertEffect × CertManagerResult Unit × CertificateManager

namespace CertificateManager

variable (cfg : CertConfig) (env : ManagerEnv) (m : CertificateManager)

/-- The parents that are not in the store. A parent of a certificate of round one is a genesis
certificate. -/
def getMissingParents (cert : SignedCertificate) :
    List CertEffect × CertManagerResult (ExtTreeSet Nat) :=
  if cert.round = 1 then
    match cert.parents.find? fun digest => digest ∉ cfg.genesis.map Certificate.digest with
    | some digest => ([], .error (.certificate (.header (.invalidGenesisParent digest))))
    | none => ([], .ok ∅)
  else
    match env.readFailure cert.digest with
    | some e => ([], .error (.storage e))
    | none =>
      let missing := ExtTreeSet.ofList
        (cert.parents.filter fun digest => ¬ m.store.certificates.contains digest)
      if missing.isEmpty then ([], .ok missing)
      else
        match env.fetcherFailure cert.digest with
        | some e => ([], .error (.raylsSend e))
        | none => ([.ancestors cert], .ok missing)

def persist (certs : List SignedCertificate) : CertManagerResult Unit × CertificateManager :=
  match env.writeFailure (certs.map (·.digest)) with
  | some e => (.error (.storage e), m)
  | none =>
    let store := certs.foldl (fun store c => store.write c.toCertificate) m.store
    let certsAccepted := min (m.certsAccepted + certs.length % 2 ^ 32) (2 ^ 32 - 1)
    let maxRound := (certs.map (·.round)).foldr max 0
    let certStoreRound :=
      if cfg.gcDepth ≤ certsAccepted then max m.certStoreRound maxRound else m.certStoreRound
    (.ok (), { m with store, certsAccepted, certStoreRound })

def recordAccepted (cert : SignedCertificate) : CertificateManager :=
  { m with highestProcessedRound := max m.highestProcessedRound cert.round }

def forwardAll : List SignedCertificate → CertificateManager → ManagerResult
  | [], m => ([], .ok (), m)
  | cert :: certs, m =>
    match env.outcome cert.digest with
    | .sent =>
      let r := forwardAll certs (m.recordAccepted cert)
      (.forwarded cert :: r.1, r.2)
    | .skipped => forwardAll certs (m.recordAccepted cert)
    | .appendFailed raced =>
      ([], if raced then .ok () else .error .fatalAppendParent, m.recordAccepted cert)
    | .sendFailed raced =>
      ([], if raced then .ok () else .error .fatalForwardAcceptedCertificate, m.recordAccepted cert)

def acceptVerifiedCertificates (certs : List SignedCertificate) : ManagerResult :=
  match m.persist cfg env certs with
  | (.error e, m) => ([], .error e, m)
  | (.ok (), m) =>
    let r := forwardAll env certs m
    (.stored certs :: r.1, r.2)

def processAll : List SignedCertificate → CertManagerResult Unit → CertificateManager →
    ManagerResult
  | [], result, m => ([], result, m)
  | cert :: certs, result, m =>
    let digest := cert.digest
    if cert.isVerified = false then ([], .error (.unverifiedSignature digest), m)
    else if m.pending.isPending digest then processAll certs (.error (.pending digest)) m
    else
      match if m.gcRound + 1 < cert.round then m.getMissingParents cfg env cert else ([], .ok ∅) with
      | (fx, .error e) => (fx, .error e, m)
      | (fx, .ok missing) =>
        if missing.isEmpty then
          match m.pending.updatePending cfg.order cert.round digest with
          | (.error e, pending) => (fx, .error e, { m with pending })
          | (.ok unlocked, pending) =>
            match { m with pending }.acceptVerifiedCertificates cfg env (cert :: unlocked) with
            | (fx', .error e, m) => (fx ++ fx', .error e, m)
            | (fx', .ok (), m) =>
              let r := processAll certs result m
              (fx ++ fx' ++ r.1, r.2)
        else
          match m.pending.insertPending cfg.order cert missing with
          | (.error e, pending) => (fx, .error e, { m with pending })
          | (.ok (), pending) =>
            let r := processAll certs (.error (.pending digest)) { m with pending }
            (fx ++ r.1, r.2)

def processVerifiedCertificates (certs : List SignedCertificate) : ManagerResult :=
  processAll cfg env (certs.insertionSort fun c d => c.round ≤ d.round) (.ok ()) m

def release (accept : List SignedCertificate → CertificateManager → ManagerResult)
    (effectiveGc : Nat) : Nat → CertificateManager → ManagerResult
  | 0, m => ([], .ok (), m)
  | fuel + 1, m =>
    match m.pending.nextForGcRound effectiveGc with
    | (none, pending) => ([], .ok (), { m with pending })
    | (some (round, digest), pending) =>
      match pending.updatePending cfg.order round digest with
      | (.error e, pending) => ([], .error e, { m with pending })
      | (.ok unlocked, pending) =>
        match accept unlocked { m with pending } with
        | (fx, .error e, m) => (fx, .error e, m)
        | (fx, .ok (), m) =>
          let r := release accept effectiveGc fuel m
          (fx ++ r.1, r.2)

def processGcRound (committed : Nat) (activeCvv : Bool) : ManagerResult :=
  let gcStale := cfg.gcDepth < committed - m.gcRound
  let effectiveGc := if activeCvv = false ∨ gcStale then max m.gcRound committed else m.gcRound
  release cfg (fun certs m => m.acceptVerifiedCertificates cfg env certs) effectiveGc
    m.pending.missingForPending.size m

def drainPending (committed steps : Nat) : ManagerResult :=
  let accept (certs : List SignedCertificate) (m : CertificateManager) : ManagerResult :=
    if certs.isEmpty then ([], .ok (), m) else m.acceptVerifiedCertificates cfg env.unaware certs
  release cfg accept (max m.gcRound committed) steps m

def Sound (P : SignedCertificate → Prop) (r : ManagerResult) : Prop :=
  (∀ x ∈ r.1, ∀ c ∈ x.certificates, P c) ∧ r.2.2.pending.All P

variable {cfg env m} {P : SignedCertificate → Prop} {cs : List SignedCertificate}
    {r : ManagerResult}

theorem Sound.append {fx : List CertEffect}
    (hfx : ∀ x ∈ fx, ∀ c ∈ x.certificates, P c) (h : Sound P r) : Sound P (fx ++ r.1, r.2) := by
  refine ⟨fun x hx => ?_, h.2⟩
  rcases mem_append.mp hx with hx | hx
  · exact hfx x hx
  · exact h.1 x hx

theorem Sound.cons {x : CertEffect} (hx : ∀ c ∈ x.certificates, P c)
    (h : Sound P r) : Sound P (x :: r.1, r.2) := by
  refine ⟨fun y hy => ?_, h.2⟩
  rcases mem_cons.mp hy with rfl | hy
  · exact hx
  · exact h.1 y hy

theorem Sound.of_pending {res : CertManagerResult Unit} (h : m.pending.All P) :
    Sound P ([], res, m) := ⟨nofun, h⟩

section
variable (hm : m.pending.All P)
include hm

theorem sound_forwardAll (hcs : ∀ c ∈ cs, P c) : Sound P (forwardAll env cs m) := by
  induction cs generalizing m with
  | nil => exact .of_pending hm
  | cons cert cs ih =>
    obtain ⟨hcert, hcs⟩ := forall_mem_cons.mp hcs
    have hm' : (m.recordAccepted cert).pending.All P := hm
    rw [forwardAll]
    split
    · refine (ih hm' hcs).cons fun c hc => ?_
      cases mem_singleton.mp hc
      exact hcert
    · exact ih hm' hcs
    · exact .of_pending hm'
    · exact .of_pending hm'

omit hm in
theorem pending_persist : (m.persist cfg env cs).2.pending = m.pending := by
  unfold persist
  split <;> rfl

theorem sound_accept (hcs : ∀ c ∈ cs, P c) : Sound P (m.acceptVerifiedCertificates cfg env cs) := by
  have hpers : (m.persist cfg env cs).2.pending.All P := by
    rw [pending_persist]
    exact hm
  unfold acceptVerifiedCertificates
  split
  · next heq =>
    rw [heq] at hpers
    exact .of_pending hpers
  · next heq =>
    rw [heq] at hpers
    exact (sound_forwardAll hpers hcs).cons hcs

omit hm in
theorem certificates_getMissingParents (cert : SignedCertificate) :
    ∀ x ∈ (m.getMissingParents cfg env cert).1, ∀ c ∈ x.certificates, P c := by
  unfold getMissingParents
  intro x hx c hc
  split at hx
  · split at hx <;> cases hx
  · split at hx
    · cases hx
    · dsimp only at hx
      split at hx
      · cases hx
      · split at hx
        · cases hx
        · cases mem_singleton.mp hx
          cases hc

theorem sound_processAll {result : CertManagerResult Unit} (hcs : ∀ c ∈ cs, P c) :
    Sound P (processAll cfg env cs result m) := by
  induction cs generalizing m result with
  | nil => exact .of_pending hm
  | cons cert cs ih =>
    obtain ⟨hcert, hcs⟩ := forall_mem_cons.mp hcs
    rw [processAll]
    dsimp only
    split
    · exact .of_pending hm
    · split
      · exact ih hm hcs
      · have hfx : ∀ x ∈ (if m.gcRound + 1 < cert.round then m.getMissingParents cfg env cert
            else ([], .ok ∅)).1, ∀ c ∈ x.certificates, P c := by
          split
          · exact certificates_getMissingParents cert
          · exact nofun
        split
        · next heq =>
          rw [heq] at hfx
          exact ⟨hfx, hm⟩
        · next heq =>
          rw [heq] at hfx
          split
          · split
            · next hupd => exact ⟨hfx, (hm.updatePending hupd).1⟩
            · next unlocked pending hupd =>
              obtain ⟨hpend, hrdy⟩ := hm.updatePending hupd
              have hacc : Sound P ({ m with pending }.acceptVerifiedCertificates cfg env
                  (cert :: unlocked)) :=
                sound_accept hpend (forall_mem_cons.mpr ⟨hcert, hrdy unlocked rfl⟩)
              split
              · next heq' =>
                rw [heq'] at hacc
                exact hacc.append hfx
              · next heq' =>
                rw [heq'] at hacc
                rw [append_assoc]
                exact ((ih hacc.2 hcs).append hacc.1).append hfx
          · split
            · next hins => exact ⟨hfx, hm.insertPending hcert hins⟩
            · next hins => exact (ih (hm.insertPending hcert hins) hcs).append hfx

theorem sound_processVerifiedCertificates (hcs : ∀ c ∈ cs, P c) :
    Sound P (m.processVerifiedCertificates cfg env cs) :=
  sound_processAll hm fun c hc => hcs c ((mem_insertionSort _).mp hc)

theorem sound_release {accept : List SignedCertificate → CertificateManager → ManagerResult}
    (hacc : ∀ cs m, m.pending.All P → (∀ c ∈ cs, P c) → Sound P (accept cs m))
    {effectiveGc fuel : Nat} : Sound P (release cfg accept effectiveGc fuel m) := by
  induction fuel generalizing m with
  | zero => exact .of_pending hm
  | succ fuel ih =>
    rw [release]
    split
    · next hnext =>
      have hpend := hm.nextForGcRound hnext
      exact .of_pending hpend
    · next hnext =>
      have hpend := hm.nextForGcRound hnext
      split
      · next hupd =>
        have hpend' := (hpend.updatePending hupd).1
        exact .of_pending hpend'
      · next unlocked pending hupd =>
        obtain ⟨hpend', hrdy⟩ := hpend.updatePending hupd
        have hsnd := hacc unlocked { m with pending } hpend' (hrdy unlocked rfl)
        split
        · next heq =>
          rw [heq] at hsnd
          exact hsnd
        · next heq =>
          rw [heq] at hsnd
          exact (ih hsnd.2).append hsnd.1

theorem sound_processGcRound {comm : Nat} {activeCvv : Bool} :
    Sound P (m.processGcRound cfg env comm activeCvv) :=
  sound_release hm fun _ _ => sound_accept

theorem sound_drainPending {comm steps : Nat} : Sound P (m.drainPending cfg env comm steps) := by
  refine sound_release hm fun cs m hm hcs => ?_
  split
  · exact .of_pending hm
  · exact sound_accept hm hcs

end

end CertificateManager

end Axyl
