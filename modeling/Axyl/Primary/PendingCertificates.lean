import Axyl.Storage.CertificateStore
import Axyl.Types.SignedCertificate
import Std.Data.ExtTreeSet

/-! Certificates that wait for their parents. -/

namespace Axyl
open Std (ExtTreeMap ExtTreeSet)

inductive CertManagerError where
  | certificate (e : CertificateError)
  | unverifiedSignature (digest : Nat)
  | certificateManagerOneshot
  | pendingCertificateNotFound (digest : Nat)
  | fatalAppendParent
  | fatalForwardAcceptedCertificate
  | pending (digest : Nat)
  | storage (e : String)
  | pendingParentsMismatch (digest : Nat)
  | raylsSend (e : String)
  | futureEpoch (ours theirs count : Nat)
deriving Repr, DecidableEq

abbrev CertManagerResult := Except CertManagerError

structure PendingCertificate where
  certificate : SignedCertificate
  missingParentDigests : ExtTreeSet Nat

/-- The order in which the source goes through a hash set is not specified. -/
structure SetOrder where
  iter : ExtTreeSet Nat → List Nat
  perm : ∀ set, (iter set).Perm set.toList

/-- `missingForPending` has the digests that wait for a certificate under its round and digest, in
the order of the rounds. -/
structure PendingCertificateManager where
  pending : ExtTreeMap Nat PendingCertificate
  missingForPending : ExtTreeMap (Nat × Nat) (ExtTreeSet Nat) compareRoundOrigin
  suspendedCertCount : Nat

namespace PendingCertificateManager

def new : PendingCertificateManager := ⟨∅, ∅, 0⟩

variable (order : SetOrder) (m : PendingCertificateManager)

def publishCount : PendingCertificateManager := { m with suspendedCertCount := m.pending.size }

def isPending (digest : Nat) : Bool := m.pending.contains digest

def insertPending (certificate : SignedCertificate) (missingParents : ExtTreeSet Nat) :
    CertManagerResult Unit × PendingCertificateManager :=
  let digest := certificate.digest
  let pending := m.pending.insert digest ⟨certificate, missingParents⟩
  if m.pending[digest]?.any fun existing => existing.missingParentDigests ≠ missingParents then
    (.error (.pendingParentsMismatch digest), { m with pending })
  else
    let wait (missing : ExtTreeMap (Nat × Nat) (ExtTreeSet Nat) compareRoundOrigin) (parent : Nat) :=
      let key := (certificate.round - 1, parent)
      missing.insert key ((missing[key]?.getD ∅).insert digest)
    let missingForPending := (order.iter missingParents).foldl wait m.missingForPending
    (.ok (), { m with pending, missingForPending }.publishCount)

/-- The loop of `update_pending`: the digests that are still to be looked at and the certificates
that are ready. -/
structure Cascade where
  manager : PendingCertificateManager
  queue : List (Nat × Nat)
  ready : List SignedCertificate

def resolve (parent : Nat) : List Nat → Cascade → CertManagerResult Unit × Cascade
  | [], s => (.ok (), s)
  | digest :: digests, s =>
    match s.manager.pending[digest]? with
    | none => (.error (.pendingCertificateNotFound digest), s)
    | some waiting =>
      let missing := waiting.missingParentDigests.erase parent
      if missing.isEmpty then
        resolve parent digests
          { manager := { s.manager with pending := s.manager.pending.erase digest }
            queue := s.queue ++ [(waiting.certificate.round, digest)]
            ready := s.ready ++ [waiting.certificate] }
      else
        resolve parent digests
          { s with manager := { s.manager with
              pending := s.manager.pending.insert digest ⟨waiting.certificate, missing⟩ } }

/-- The queue gets one digest for every certificate that leaves `pending`, so that the number of
pending certificates and one more are steps enough. -/
def cascade : Nat → Cascade → CertManagerResult Unit × Cascade
  | 0, s => (.ok (), s)
  | fuel + 1, s =>
    match s.queue with
    | [] => (.ok (), s)
    | (round, digest) :: queue =>
      match s.manager.missingForPending[(round, digest)]? with
      | none => cascade fuel { s with queue }
      | some digests =>
        let missingForPending := s.manager.missingForPending.erase (round, digest)
        match resolve digest (order.iter digests)
          { s with manager := { s.manager with missingForPending }, queue } with
        | (.error e, s) => (.error e, s)
        | (.ok (), s) => cascade fuel s

def updatePending (round digest : Nat) :
    CertManagerResult (List SignedCertificate) × PendingCertificateManager :=
  match cascade order (m.pending.size + 1) ⟨m, [(round, digest)], []⟩ with
  | (.error e, s) => (.error e, s.manager)
  | (.ok (), s) => (.ok s.ready, s.manager.publishCount)

def nextForGcRound (gcRound : Nat) : Option (Nat × Nat) × PendingCertificateManager :=
  match m.missingForPending.minKey? with
  | none => (none, m)
  | some (round, digest) =>
    if gcRound < round then (none, m)
    else
      match m.pending[digest]? with
      | none => (some (round, digest), m)
      | some waiting =>
        (some (round, digest),
          { m with pending := m.pending.insert digest ⟨waiting.certificate, ∅⟩ })

def All (P : SignedCertificate → Prop) (m : PendingCertificateManager) : Prop :=
  ∀ (digest : Nat) waiting, m.pending[digest]? = some waiting → P waiting.certificate

variable {order m} {P : SignedCertificate → Prop} {s : Cascade}

theorem all_new : new.All P := by
  intro dig waiting h
  have hemp : (∅ : ExtTreeMap Nat PendingCertificate)[dig]? = some waiting := h
  cases hemp

theorem All.insert (h : m.All P) {dig : Nat} {waiting : PendingCertificate}
    (hw : P waiting.certificate) : All P { m with pending := m.pending.insert dig waiting } := by
  intro dig' waiting' hget
  have hget' : (m.pending.insert dig waiting)[dig']? = some waiting' := hget
  rw [ExtTreeMap.getElem?_insert] at hget'
  split at hget'
  · cases hget'
    exact hw
  · exact h dig' waiting' hget'

theorem All.erase (h : m.All P) (dig : Nat) : All P { m with pending := m.pending.erase dig } := by
  intro dig' waiting' hget
  have hget' : (m.pending.erase dig)[dig']? = some waiting' := hget
  rw [ExtTreeMap.getElem?_erase] at hget'
  split at hget'
  · cases hget'
  · exact h dig' waiting' hget'

variable {res : CertManagerResult Unit} {m' : PendingCertificateManager}

theorem All.insertPending (h : m.All P) {cert : SignedCertificate} (hc : P cert)
    {miss : ExtTreeSet Nat} (hins : m.insertPending order cert miss = (res, m')) : m'.All P := by
  have hall : All P { m with
      pending := m.pending.insert cert.digest ⟨cert, miss⟩ } := h.insert hc
  unfold PendingCertificateManager.insertPending at hins
  dsimp only at hins
  split at hins
  · cases hins
    exact hall
  · cases hins
    exact hall

theorem all_resolve {parent : Nat} {digs : List Nat} {s' : Cascade}
    (h : resolve parent digs s = (res, s')) (hm : s.manager.All P)
    (hrdy : ∀ c ∈ s.ready, P c) : s'.manager.All P ∧ ∀ c ∈ s'.ready, P c := by
  induction digs generalizing s with
  | nil =>
    cases h
    exact ⟨hm, hrdy⟩
  | cons dig digs ih =>
    rw [resolve] at h
    split at h
    · cases h
      exact ⟨hm, hrdy⟩
    · next waiting hget =>
      have hw := hm dig waiting hget
      dsimp only at h
      split at h
      · refine ih h (hm.erase dig) fun c hc => ?_
        rcases List.mem_append.mp hc with hc | hc
        · exact hrdy c hc
        · cases List.mem_singleton.mp hc
          exact hw
      · exact ih h (hm.insert hw) hrdy

theorem all_cascade {fuel : Nat} {s' : Cascade} (h : cascade order fuel s = (res, s'))
    (hm : s.manager.All P) (hrdy : ∀ c ∈ s.ready, P c) :
    s'.manager.All P ∧ ∀ c ∈ s'.ready, P c := by
  induction fuel generalizing s with
  | zero =>
    cases h
    exact ⟨hm, hrdy⟩
  | succ fuel ih =>
    rw [cascade] at h
    split at h
    · cases h
      exact ⟨hm, hrdy⟩
    · split at h
      · exact ih h hm hrdy
      · dsimp only at h
        split at h
        · next hresolve =>
          cases h
          exact all_resolve hresolve hm hrdy
        · next hresolve =>
          obtain ⟨hm', hrdy'⟩ := all_resolve hresolve hm hrdy
          exact ih h hm' hrdy'

theorem All.updatePending (h : m.All P) {round dig : Nat}
    {res : CertManagerResult (List SignedCertificate)}
    (hupd : m.updatePending order round dig = (res, m')) :
    m'.All P ∧ ∀ ready, res = .ok ready → ∀ c ∈ ready, P c := by
  unfold PendingCertificateManager.updatePending at hupd
  split at hupd
  · next hcascade =>
    cases hupd
    exact ⟨(all_cascade hcascade h nofun).1, nofun⟩
  · next hcascade =>
    obtain ⟨hm, hrdy⟩ := all_cascade hcascade h nofun
    cases hupd
    refine ⟨hm, fun ready heq => ?_⟩
    cases heq
    exact hrdy

theorem All.nextForGcRound (h : m.All P) {gcRound : Nat} {next : Option (Nat × Nat)}
    (hnext : m.nextForGcRound gcRound = (next, m')) : m'.All P := by
  unfold PendingCertificateManager.nextForGcRound at hnext
  split at hnext
  · cases hnext
    exact h
  · split at hnext
    · cases hnext
      exact h
    · split at hnext
      · cases hnext
        exact h
      · next waiting hget =>
        cases hnext
        exact h.insert (h _ waiting hget)

end PendingCertificateManager

end Axyl
