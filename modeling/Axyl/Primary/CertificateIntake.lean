import Axyl.Lib.Reactor
import Axyl.Primary.CertificateManager

/-! How certificates reach the certificate manager: from gossip, as parents of a vote request, from
the fetcher and from this node's own certifier. Every message is a task. A task looks the
certificate up in the store, verifies it and hands it to the manager, and waits for the answer. -/

namespace Axyl
open Std (ExtTreeMap ExtTreeSet)

inductive CertSource where
  | own
  | gossip
  /-- The author of the header of the vote request. -/
  | parents (author : Nat)
  | fetched
deriving DecidableEq, Repr

inductive CertStage where
  | check
  | verify
  | waiting
  | done
deriving DecidableEq, Repr

/-- The certificates that are left; the first is the one at the stage. A fetched collection is
verified as a whole. -/
structure CertTask where
  source : CertSource
  remaining : List SignedCertificate
  stage : CertStage

/-- What the other parts of the node say while certificates are handed over. -/
structure ForwardEnv where
  activeCvv : Bool
  committedRound : Nat
  parentsFailure : Option String
  managerFailure : Option String

inductive CertEvent where
  | own (cert : SignedCertificate)
  /-- `inMemory` is the answer of the memory tier, `behind` the one of `behind_consensus`. -/
  | gossip (cert : SignedCertificate) (topicValid inMemory behind : Bool)
  /-- `unknown` are the parents that are not stored and not pending. -/
  | requestParents (header : Header) (unknown : List Nat) (limit : Nat)
  | parents (author : Nat) (parents : List SignedCertificate)
  | fetched (certs : List SignedCertificate)
  | check (task : Nat) (failure : Option String)
  /-- `gcRound` is the round that the verification of each certificate of a collection reads. -/
  | verify (task : Nat) (gcRound : Nat → Nat) (env : ForwardEnv)
  | manage (env : ManagerEnv)
  | gc (round committed : Nat) (activeCvv : Bool) (env : ManagerEnv)
  | drain (committed steps : Nat) (env : ManagerEnv)
  | stop

/-- `queue` is the channel to the manager, with the task that waits for the answer. -/
structure CertIntake where
  manager : CertificateManager
  queue : List (Nat × List SignedCertificate)
  highestReceivedRound : Nat
  primaryRound : Nat
  requestedParents : ExtTreeMap (Nat × Nat) Nat compareRoundOrigin
  tasks : List CertTask

namespace CertIntake

def new (store : CertificateStore) (gcRound highestProcessedRound primaryRound : Nat) :
    CertIntake where
  manager := ⟨.new, store, gcRound, highestProcessedRound, 0, 0, true⟩
  queue := []
  highestReceivedRound := primaryRound
  primaryRound := primaryRound
  requestedParents := ∅
  tasks := []

abbrev IntakeResult := List CertEffect × CertIntake

variable (cfg : CertConfig) (s : CertIntake)

def getCommittee (epoch : Nat) : Option (List Nat) :=
  if epoch = cfg.committee.epoch then some cfg.committee.blsKeys else cfg.otherCommitteeKeys epoch

def spawn (source : CertSource) (remaining : List SignedCertificate) (stage : CertStage) :
    CertIntake :=
  { s with tasks := s.tasks ++ [⟨source, remaining, stage⟩] }

def setTask (i : Nat) (task : CertTask) : CertIntake := { s with tasks := s.tasks.set i task }

/-- The certificate branch of `process_gossip`. A certificate that does not verify is only logged. -/
def processGossip (cert : SignedCertificate) (topicValid inMemory behind : Bool) : IntakeResult :=
  if topicValid = false then ([.refused .invalidTopic], s)
  else if inMemory then ([], s)
  else
    match cert.validateReceived with
    | .error e => ([.refused (.certManager (.certificate e))], s)
    | .ok unverified =>
      match getCommittee cfg unverified.epoch with
      | none => ([], s)
      | some keys =>
        match unverified.verifyCert cfg.toSigningConfig keys with
        | .error _ => ([], s)
        | .ok cert => ([], if behind then s else s.spawn .gossip [cert] .check)

def checkForMissingParents (header : Header) (unknown : List Nat) (limit : Nat) : IntakeResult :=
  if unknown ≠ [] ∧ header.round < limit then
    ([.refused (.header (.tooOld header.digest header.round limit))], s)
  else
    let ask (acc : ExtTreeMap (Nat × Nat) Nat compareRoundOrigin × List Nat) (digest : Nat) :=
      let key := (header.round - 1, digest)
      if acc.1.contains key then acc else (acc.1.insert key header.author, acc.2 ++ [digest])
    let (requestedParents, missing) :=
      unknown.foldl ask (s.requestedParents.filter fun key _ => limit - 1 ≤ key.1, [])
    ([.missingParents missing], { s with requestedParents })

/-- The parents of a vote request get their signature verified again, and only those that were asked
for from this author are looked at. -/
def tryAcceptUnknownCerts (author : Nat) (parents : List SignedCertificate) : IntakeResult :=
  match parents.mapM SignedCertificate.validateReceived with
  | .error _ => ([.refused (.header .parentMissingSignature)], s)
  | .ok parents =>
    let requested := parents.filter fun cert =>
      s.requestedParents[(cert.round, cert.digest)]? = some author
    ([], if requested.isEmpty then s else s.spawn (.parents author) requested .check)

def processFetched (certs : List SignedCertificate) : IntakeResult :=
  let ours := cfg.committee.epoch
  let current := certs.filter fun cert => cert.epoch = ours
  if current.isEmpty then
    let theirs := ((certs.filter fun cert => cert.epoch ≠ ours).map (·.epoch)).foldr max 0
    ([.refused (.certManager (.futureEpoch ours theirs certs.length))], s)
  else
    match current.mapM SignedCertificate.validateReceived with
    | .error e => ([.refused (.certManager (.certificate e))], s)
    | .ok certs => ([], s.spawn .fetched certs .verify)

def validateAndVerify (gcRound : Nat) (cert : SignedCertificate) :
    CertManagerResult SignedCertificate :=
  if cert.round < gcRound then .error (.certificate (.tooOld cert.digest cert.round gcRound))
  else
    match cert.validateAndVerify cfg.toSigningConfig with
    | .error e => .error (.certificate e)
    | .ok cert => .ok cert

def verifyChunk (gcRound : Nat → Nat) :
    List (SignedCertificate × Nat) → CertManagerResult (List SignedCertificate)
  | [] => .ok []
  | (cert, i) :: certs =>
    match validateAndVerify cfg (gcRound i) cert with
    | .ok verified => (verified :: ·) <$> verifyChunk gcRound certs
    | .error (.certificate (.tooOld ..)) => verifyChunk gcRound certs
    | .error e => .error e

def chunks {α : Type} (n : Nat) : Nat → List α → List (List α)
  | 0, _ => []
  | _ + 1, [] => []
  | fuel + 1, x :: xs => (x :: xs).take n :: chunks n fuel ((x :: xs).drop n)

def verifyCollection (gcRound : Nat → Nat) (certs : List SignedCertificate) :
    CertManagerResult (List SignedCertificate) :=
  List.flatten <$>
    (chunks cfg.certificateVerificationChunkSize certs.length certs.zipIdx).mapM
      (verifyChunk cfg gcRound)

def noteReceived (highestRound : Nat) (activeCvv : Bool) : CertIntake :=
  let highestReceivedRound := max s.highestReceivedRound highestRound
  let primaryRound := if activeCvv then s.primaryRound else max s.primaryRound highestReceivedRound
  { s with highestReceivedRound, primaryRound }

def slideWindow (committedRound : Nat) (certs : List SignedCertificate) : CertIntake :=
  let slide (processed : Nat) (cert : SignedCertificate) :=
    if processed + cfg.maxDiff < cert.round then max processed (cert.round - cfg.maxDiff)
    else processed
  let highestProcessedRound := certs.foldl slide (max s.manager.highestProcessedRound committedRound)
  { s with manager := { s.manager with highestProcessedRound } }

/-- `forward_verified_certs`, up to the answer of the manager. The tasks that fetch the batches of
the headers are left out. -/
def forwardVerifiedCerts (i highestRound : Nat) (certs : List SignedCertificate)
    (env : ForwardEnv) : List CertEffect × CertManagerResult Unit × CertIntake :=
  let s := s.noteReceived highestRound env.activeCvv
  match if env.activeCvv then none else env.parentsFailure with
  | some e => ([], .error (.raylsSend e), s)
  | none =>
    let fx := if env.activeCvv then [] else [CertEffect.parents (s.highestReceivedRound - 1)]
    let s := s.slideWindow cfg env.committedRound certs
    match env.managerFailure with
    | some e => (fx, .error (.raylsSend e), s)
    | none => (fx ++ [.handed i certs], .ok (), { s with queue := s.queue ++ [(i, certs)] })

def finish (i : Nat) (task : CertTask) (result : CertManagerResult Unit) : IntakeResult :=
  ([.answered i result], s.setTask i { task with stage := .done })

def nextParent (i : Nat) (task : CertTask) (rest : List SignedCertificate) : IntakeResult :=
  if rest.isEmpty then s.finish i task (.ok ())
  else ([], s.setTask i { task with remaining := rest, stage := .check })

/-- The result for the certificate at hand. A vote request goes on with its next parent unless there
is an error other than pending. -/
def afterCert (i : Nat) (task : CertTask) (result : CertManagerResult Unit) : IntakeResult :=
  match task.source, task.remaining with
  | .parents _, cert :: rest =>
    match result with
    | .ok () =>
      { s with requestedParents := s.requestedParents.erase (cert.round, cert.digest) }.nextParent
        i task rest
    | .error (.pending _) => s.nextParent i task rest
    | .error e => s.finish i task (.error e)
  | _, _ => s.finish i task result

def checkCert (i : Nat) (task : CertTask) (cert : SignedCertificate) (failure : Option String) :
    IntakeResult :=
  if cert.epoch ≠ cfg.committee.epoch then
    s.afterCert i task
      (.error (.certificate (.header (.invalidEpoch cert.epoch cfg.committee.epoch))))
  else
    match failure with
    | some e => s.afterCert i task (.error (.storage e))
    | none =>
      if s.manager.store.certificates.contains cert.digest then s.afterCert i task (.ok ())
      else ([], s.setTask i { task with stage := .verify })

def verified (gcRound : Nat → Nat) (task : CertTask) : CertManagerResult (List SignedCertificate) :=
  match task.source, task.remaining with
  | .fetched, certs => verifyCollection cfg gcRound certs
  | .own, cert :: _ => .ok [cert]
  | _, cert :: _ => (fun cert => [cert]) <$> validateAndVerify cfg s.manager.gcRound cert
  | _, [] => .ok []

def verifyCerts (i : Nat) (task : CertTask) (gcRound : Nat → Nat) (env : ForwardEnv) :
    IntakeResult :=
  match s.verified cfg gcRound task with
  | .error e => s.afterCert i task (.error e)
  | .ok certs =>
    match s.forwardVerifiedCerts cfg i ((certs.map (·.round)).foldr max 0) certs env with
    | (fx, .error e, s) =>
      let r := s.afterCert i task (.error e)
      (fx ++ r.1, r.2)
    | (fx, .ok (), s) => (fx, s.setTask i { task with stage := .waiting })

def reply (i : Nat) (result : CertManagerResult Unit) : IntakeResult :=
  match s.tasks[i]? with
  | none => ([], s)
  | some task => s.afterCert i task result

def fatal : CertManagerResult Unit → Bool
  | .error .fatalAppendParent | .error .fatalForwardAcceptedCertificate => true
  | _ => false

def manage (env : ManagerEnv) : IntakeResult :=
  match s.queue with
  | [] => ([], s)
  | (i, certs) :: queue =>
    if s.manager.running then
      let (fx, result, manager) := s.manager.processVerifiedCertificates cfg env certs
      if fatal result then
        let r := { s with queue, manager := { manager with running := false } }.reply i
          (.error .certificateManagerOneshot)
        (fx ++ r.1, r.2)
      else
        let r := { s with queue, manager }.reply i result
        (fx ++ r.1, r.2)
    else { s with queue }.reply i (.error .certificateManagerOneshot)

def collect (round committed : Nat) (activeCvv : Bool) (env : ManagerEnv) : IntakeResult :=
  if s.manager.running then
    let (fx, result, manager) :=
      { s.manager with gcRound := round }.processGcRound cfg env committed activeCvv
    match result with
    | .ok () => (fx, { s with manager })
    | .error _ => (fx, { s with manager := { manager with running := false } })
  else ([], s)

def taskAt (i : Nat) (stage : CertStage) : Option CertTask :=
  s.tasks[i]?.filter fun task => task.stage = stage

def step : CertEvent → IntakeResult
  | .own cert => ([], s.spawn .own [cert] .check)
  | .gossip cert topicValid inMemory behind => s.processGossip cfg cert topicValid inMemory behind
  | .requestParents header unknown limit => s.checkForMissingParents header unknown limit
  | .parents author parents => s.tryAcceptUnknownCerts author parents
  | .fetched certs => s.processFetched cfg certs
  | .check i failure =>
    match s.taskAt i .check with
    | some ⟨source, cert :: certs, stage⟩ =>
      s.checkCert cfg i ⟨source, cert :: certs, stage⟩ cert failure
    | _ => ([], s)
  | .verify i gcRound env =>
    match s.taskAt i .verify with
    | some task => s.verifyCerts cfg i task gcRound env
    | none => ([], s)
  | .manage env => s.manage cfg env
  | .gc round committed activeCvv env => s.collect cfg round committed activeCvv env
  | .drain committed steps env =>
    if s.manager.running then
      let r := s.manager.drainPending cfg env committed steps
      (r.1, { s with manager := r.2.2 })
    else ([], s)
  | .stop => ([], { s with manager := { s.manager with running := false } })

def run (events : List CertEvent) : IntakeResult :=
  Reactor.run (step cfg) s events

end CertIntake

end Axyl
