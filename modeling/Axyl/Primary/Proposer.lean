import Axyl.Lib.Reactor
import Axyl.Types.Certificate

/-! The proposer of a primary: it queues the digests of the worker's batches, proposes headers that
carry them and puts the digests of headers that missed their commit back into the queue. The timers
tick at any time; how they are reset, the metrics and the latest header, which nothing reads, are
left out. -/

namespace Axyl

def pendingBackpressureThreshold : Nat := 5000
def backpressureDelay : Nat := 1000
def executionLagThreshold : Nat := 100
def executionBackpressureDelay : Nat := 500
def fallbackRequeueGraceRounds : Nat := 4

inductive ProposerError where
  | oneshotChannelClosed
  | certifierSender
  | storeError
  | oldTimestamp (now last : Nat)
deriving DecidableEq, Repr

abbrev ProposerDigest := Nat × Nat

structure ProposerConfig where
  authorityId : Nat
  committee : Committee
  genesis : List Certificate
  headerNumOfBatchesThreshold : Nat
  maxHeaderNumOfBatches : Nat
  gcDepth : Nat

/-- The task that makes, stores and sends a header. A header that is proposed again starts at
`storing`. A task that failed keeps the digests it was given. -/
inductive HeaderTask where
  | building (round : Nat) (parents : List Certificate) (digests : List ProposerDigest)
  | storing (header : Header)
  | sending (header : Header)
  | done (header : Header)
  | failed (e : ProposerError) (digests : List ProposerDigest)

def HeaderTask.digests : HeaderTask → List ProposerDigest
  | .building _ _ digests => digests
  | .storing header | .sending header | .done header => header.payload
  | .failed _ digests => digests

inductive ProposerEnd where
  | returned
  | failed (e : ProposerError)
  /-- The round overflowed, which aborts the node. -/
  | overflow
deriving DecidableEq, Repr

/-- The proposer with the locals of its loop, the row of the last proposed header and the watch of
the committed round. -/
structure Proposer where
  round : Nat
  lastRoundTimestamp : Option Nat
  lastParents : List Certificate
  lastLeader : Option Certificate
  digests : List ProposerDigest
  proposedHeaders : Std.ExtTreeMap Nat Header
  advanceRound : Bool
  pendingHeader : Option HeaderTask
  maxDelayTimedOut : Bool
  minDelayTimedOut : Bool
  throttleUntil : Option Nat
  lastProposed : Option Header
  committedRound : Nat
  ended : Option ProposerEnd

structure LoopEnv where
  instant : Nat
  nowInMillis : Nat
  suspendedCertCount : Nat
  executedRound : Nat
  /-- The read of the last proposed header succeeds. -/
  storeRead : Bool
  shutdownNoticed : Bool
  /-- The leader schedule. -/
  leader : Nat → Nat

inductive ProposerArm where
  | shutdown
  | digest (d : ProposerDigest)
  | parents (certs : List Certificate) (round : Nat)
  | committed (commitRound : Nat) (committedHeaders : List Nat)
  | result
  | maxTick
  | minTick

inductive ProposerEvent where
  | select (arm : ProposerArm) (env : LoopEnv)
  /-- The header of the task is made. -/
  | built (createdAt digest : Nat)
  | stored (ok : Bool)
  | sent (ok : Bool)
  /-- The task is gone without a result. -/
  | dropped
  | committedRound (round : Nat)
  | restart (committedRound : Nat)

inductive RequeueReason where
  | gcEvict
  /-- `own` says that the notice named an own header. -/
  | commitLag (own : Bool)
deriving DecidableEq, Repr

inductive ProposerEffect where
  | acked (digest : Nat)
  | sent (header : Header)
  /-- A tracked header leaves because its round is reported committed. -/
  | committed (header : Header)
  | requeued (reason : RequeueReason) (header : Header)
deriving DecidableEq, Repr

def indexMapInsert (m : List (Nat × Nat)) (e : Nat × Nat) : List (Nat × Nat) :=
  if e.1 ∈ m.map Prod.fst then m.map fun x => if x.1 = e.1 then e else x else m ++ [e]

def indexMap (entries : List (Nat × Nat)) : List (Nat × Nat) := entries.foldl indexMapInsert []

def lastProposedIsStale (selfRound selfEpoch headerRound headerEpoch : Nat) : Bool :=
  headerEpoch ≠ selfEpoch || headerRound < selfRound

namespace Proposer

def new (cfg : ProposerConfig) (committedRound : Nat) (lastProposed : Option Header) : Proposer where
  round := committedRound
  lastRoundTimestamp := none
  lastParents := if 0 < committedRound then [] else cfg.genesis
  lastLeader := none
  digests := []
  proposedHeaders := ∅
  advanceRound := true
  pendingHeader := none
  maxDelayTimedOut := false
  minDelayTimedOut := false
  throttleUntil := none
  lastProposed := lastProposed
  committedRound := committedRound
  ended := none

variable (cfg : ProposerConfig) (p : Proposer)

def pushDigest (d : ProposerDigest) : Proposer := { p with digests := p.digests ++ [d] }

def requeueFront (headers : List Header) : Proposer :=
  { p with digests := headers.flatMap Header.payload ++ p.digests }

def requeueBelow (reason : RequeueReason) (round : Nat) : List ProposerEffect × Proposer :=
  let below := (p.proposedHeaders.filter fun r _ => r < round).toList.map Prod.snd
  (below.map (.requeued reason),
    { p with proposedHeaders := p.proposedHeaders.filter fun r _ => round ≤ r }.requeueFront below)

def evictOldProposedHeaders : List ProposerEffect × Proposer :=
  if p.committedRound < cfg.gcDepth then ([], p)
  else
    let gcRound := p.committedRound - cfg.gcDepth
    if gcRound = 0 then ([], p) else p.requeueBelow .gcEvict (gcRound + 1)

def removeCommitted : Proposer → List Nat → List ProposerEffect × Proposer
  | p, [] => ([], p)
  | p, round :: rounds =>
    let r :=
      removeCommitted { p with proposedHeaders := p.proposedHeaders.erase round } rounds
    ((p.proposedHeaders[round]?.map .committed).toList ++ r.1, r.2)

def processCommittedHeaders (commitRound : Nat) (committedHeaders : List Nat) :
    List ProposerEffect × Proposer :=
  let r := p.removeCommitted committedHeaders
  let highestCommitted := committedHeaders.max?.getD (commitRound - fallbackRequeueGraceRounds)
  let q := r.2.requeueBelow (.commitLag (!committedHeaders.isEmpty)) highestCommitted
  (r.1 ++ q.1, q.2)

def updateLeader (leader : Nat → Nat) : Bool × Proposer :=
  let lastLeader := p.lastParents.find? fun cert => cert.origin = leader p.round
  (lastLeader.isSome, { p with lastLeader })

def enoughVotes (leader : Nat → Nat) : Bool :=
  if leader (p.round + 1) = cfg.authorityId then true
  else
    match p.lastLeader with
    | none => true
    | some last =>
      let (votes, others) := p.lastParents.partition fun cert => last.digest ∈ cert.parents
      let stake (certs : List Certificate) :=
        (certs.map fun cert => cfg.committee.votingPowerById cert.origin).sum
      cfg.committee.validityThreshold ≤ stake votes || cfg.committee.quorumThreshold ≤ stake others

def ready (leader : Nat → Nat) : Bool × Proposer :=
  if p.round % 2 = 0 then p.updateLeader leader else (p.enoughVotes cfg leader, p)

def takeParents (parents : List Certificate) (round : Nat) : Proposer :=
  if p.round < round then
    let totalStake := (parents.map fun cert => cfg.committee.votingPowerById cert.origin).sum
    if cfg.committee.quorumThreshold ≤ totalStake then
      { p with round, lastParents := parents, advanceRound := false }
    else p
  else if round < p.round then p
  else { p with lastParents := p.lastParents ++ parents }

def processParents (leader : Nat → Nat) (parents : List Certificate) (round : Nat) : Proposer :=
  let r := (p.takeParents cfg parents round).ready cfg leader
  { r.2 with advanceRound := r.1 }

def finish (e : ProposerEnd) : Proposer := { p with ended := some e }

/-- The row is proposed again if it is of this round. Otherwise the first digests of the queue and
the parents become a new header. -/
def proposeNextHeader (env : LoopEnv) : Proposer :=
  if 2 ^ 32 ≤ p.round + 1 then p.finish .overflow
  else
    let p := { p with round := p.round + 1 }
    match p.lastRoundTimestamp.filter fun t => env.nowInMillis < t with
    | some t => p.finish (.failed (.oldTimestamp env.nowInMillis t))
    | none =>
      let p := { p with lastRoundTimestamp := some env.nowInMillis }
      if env.storeRead = false then p.finish (.failed .storeError)
      else
        match p.lastProposed.filter fun h => h.round = p.round ∧ h.epoch = cfg.committee.epoch with
        | some header => { p with lastParents := [], pendingHeader := some (.storing header) }
        | none =>
          let digests := p.digests.take cfg.maxHeaderNumOfBatches
          { p with
            digests := p.digests.drop cfg.maxHeaderNumOfBatches
            lastParents := []
            pendingHeader := some (.building p.round p.lastParents digests) }

def handleProposalResult (shutdownNoticed : Bool) :
    Except ProposerError Header → List ProposerEffect × Proposer
  | .error e => ([], p.finish (if shutdownNoticed then .returned else .failed e))
  | .ok header =>
    { p with
      advanceRound := false
      proposedHeaders := p.proposedHeaders.insert header.round header }.evictOldProposedHeaders cfg

def resetTimers : Proposer := { p with maxDelayTimedOut := false, minDelayTimedOut := false }

def reproposeLast (env : LoopEnv) : Proposer :=
  if env.storeRead = false then p
  else
    match p.lastProposed with
    | none => p
    | some last =>
      if lastProposedIsStale p.round cfg.committee.epoch last.round last.epoch then p.resetTimers
      else { p.resetTimers with pendingHeader := some (.storing last) }

def shouldCreateHeader : Bool :=
  let enoughDigests := decide (cfg.headerNumOfBatchesThreshold ≤ p.digests.length)
  !p.lastParents.isEmpty &&
    (p.maxDelayTimedOut || (p.advanceRound && (enoughDigests || p.minDelayTimedOut)))

def tryPropose (env : LoopEnv) : Proposer :=
  if p.pendingHeader.isSome then p
  else if p.shouldCreateHeader cfg then (p.proposeNextHeader cfg env).resetTimers
  else if p.maxDelayTimedOut then p.reproposeLast cfg env
  else p

def afterSelect (env : LoopEnv) : Proposer :=
  if p.throttleUntil.any fun deadline => env.instant < deadline then p
  else
    let p := { p with throttleUntil := none }
    if pendingBackpressureThreshold < env.suspendedCertCount then
      { p with throttleUntil := some (env.instant + backpressureDelay) }
    else if env.executedRound + executionLagThreshold < p.round then
      { p with throttleUntil := some (env.instant + executionBackpressureDelay) }
    else p.tryPropose cfg env

def selectArm (env : LoopEnv) : ProposerArm → List ProposerEffect × Proposer
  | .shutdown => ([], p.finish .returned)
  | .digest d => ([.acked d.1], p.pushDigest d)
  | .parents certs round => ([], p.processParents cfg env.leader certs round)
  | .committed commitRound committedHeaders => p.processCommittedHeaders commitRound committedHeaders
  | .result =>
    match p.pendingHeader with
    | some (.done header) =>
      { p with pendingHeader := none }.handleProposalResult cfg env.shutdownNoticed (.ok header)
    | some (.failed e _) =>
      { p with pendingHeader := none }.handleProposalResult cfg env.shutdownNoticed (.error e)
    | _ => ([], p)
  | .maxTick => ([], { p with maxDelayTimedOut := true })
  | .minTick => ([], { p with minDelayTimedOut := true })

def newHeader (round : Nat) (parents : List Certificate) (digests : List ProposerDigest)
    (createdAt digest : Nat) : Header where
  author := cfg.authorityId
  round := round
  epoch := cfg.committee.epoch
  createdAt := createdAt
  payload := indexMap digests
  parents := ((parents.map Certificate.digest).insertionSort (· ≤ ·)).dedup
  digest := digest

def failTask (task : HeaderTask) (e : ProposerError) : Proposer :=
  { p with pendingHeader := some (.failed e task.digests) }

def taskStep (task : HeaderTask) (event : ProposerEvent) : List ProposerEffect × Proposer :=
  match task, event with
  | .done _, _ | .failed _ _, _ => ([], p)
  | .building round parents digests, .built createdAt digest =>
    let header := newHeader cfg round parents digests createdAt digest
    ([], { p with pendingHeader := some (.storing header) })
  | .storing header, .stored true =>
    ([], { p with lastProposed := some header, pendingHeader := some (.sending header) })
  | .storing _, .stored false => ([], p.failTask task .storeError)
  | .sending header, .sent true => ([.sent header], { p with pendingHeader := some (.done header) })
  | .sending _, .sent false => ([], p.failTask task .certifierSender)
  | _, .dropped => ([], p.failTask task .oneshotChannelClosed)
  | _, _ => ([], p)

def step : ProposerEvent → List ProposerEffect × Proposer
  | .restart committedRound => ([], .new cfg committedRound p.lastProposed)
  | .committedRound round => ([], { p with committedRound := round })
  | .select arm env =>
    if p.ended.isSome then ([], p)
    else
      let r := p.selectArm cfg env arm
      if r.2.ended.isSome then r else (r.1, r.2.afterSelect cfg env)
  | event =>
    match p.pendingHeader with
    | none => ([], p)
    | some task => p.taskStep cfg task event

def run (events : List ProposerEvent) : List ProposerEffect × Proposer :=
  Reactor.run (step cfg) p events

def fourProposers : Committee where
  authorities := [⟨1, 1⟩, ⟨2, 1⟩, ⟨3, 1⟩, ⟨4, 1⟩]
  epoch := 1
  sorted := by decide
  nonempty := by decide

def certsOf (round : Nat) : List Certificate :=
  [1, 2, 3, 4].map fun author => ⟨⟨author, round, 1, 0, [], [], 10 * round + author⟩⟩

def firstProposer : ProposerConfig := ⟨1, fourProposers, certsOf 0, 1, 10, 50⟩

def calm : LoopEnv := ⟨0, 0, 0, 0, true, false, fun round => round % 4 + 1⟩

def proposal (digest : Nat) : List ProposerEvent :=
  [.select .maxTick calm, .built digest digest, .stored true, .sent true, .select .result calm]

end Proposer

end Axyl
