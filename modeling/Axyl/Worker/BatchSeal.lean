import Axyl.Worker.Pipeline
import Axyl.Worker.SeqRecovery

/-! The seal loop of a worker next to its batch builder, what of both survives a restart, and the
sequence number that the next builder starts from. -/

namespace Axyl

inductive QuorumWaiterError where
  | quorumRejected
  | antiQuorum
  | timeout
  | network
  | rpc
  | droppedReceiver
deriving DecidableEq, Repr

inductive BlockSealError where
  | fatalDBFailure
  | quorumRejected
  | antiQuorum
  | timeout
  | failedQuorum
deriving DecidableEq, Repr

namespace BlockSealError

def ofQuorumWaiter : QuorumWaiterError → BlockSealError
  | .quorumRejected => .quorumRejected
  | .antiQuorum => .antiQuorum
  | .timeout => .timeout
  | .network | .droppedReceiver | .rpc => .failedQuorum

def outcome : BlockSealError → Except BatchBuilderError TaskOutcome
  | .fatalDBFailure => .error .fatalDBFailure
  | _ => .ok .quorumFailed

end BlockSealError

structure BuiltBatch where
  digest : Nat
  atCapacity : Bool
deriving DecidableEq, Repr

/-- Where a batch is between its build and the answer to the builder. It is `sealed` once `seal` has
returned without error. -/
inductive SealStage where
  | building
  | submitted (batch : BuiltBatch)
  | attesting (batch : BuiltBatch)
  | quorate (batch : BuiltBatch)
  | stored (batch : BuiltBatch)
  | sealed (batch : BuiltBatch)
  | finished (outcome : Except BatchBuilderError TaskOutcome)

structure BuildTask where
  seq : Nat
  stage : SealStage

inductive ReplayWaitOutcome where
  | ready
  | defer
  | shutdown
deriving DecidableEq, Repr

inductive InitialBatchSeq where
  | use (seq : Nat)
  | defer
  | shutdown
deriving DecidableEq, Repr

structure BatchStart where
  watermark : Option Nat
  /-- The read of the counter succeeds. -/
  counterRead : Bool
  replay : ReplayWaitOutcome
  epochBoundary : Nat
  canonicalTimestamp : Nat
deriving DecidableEq, Repr

inductive WorkerEvent where
  /-- Any event of the builder except an outcome, which is that of the task. -/
  | builder (event : BuilderEvent)
  /-- The blocking build ends with an error, without transactions or with a batch. -/
  | built (result : Except Unit (Option BuiltBatch))
  | received
  | workerGone
  | attested (result : Except QuorumWaiterError Unit)
  | inserted (ok : Bool)
  | reported (ok : Bool)
  | persisted (ok : Bool)
  | resolved
  | committed (block : ConsensusHeader)
  | synced (digest seq : Nat)
  | restart (env : BatchStart)

inductive WorkerEffect where
  | reached (seq digest : Nat)
  | sealed (seq digest : Nat)
  | recorded (seq digest : Nat)
deriving DecidableEq, Repr

/-- A worker with its builder and its task. The counter, the batches, here with their sequence
numbers only, and the consensus blocks are tables. -/
structure BatchWorker where
  id : Nat
  authorityId : Option Nat
  epoch : Nat
  /-- A validator has a quorum waiter. -/
  quorumWaiter : Bool
  builder : Option BatchBuilder
  task : Option BuildTask
  batchSeqCounter : Option Nat
  batches : Std.ExtTreeMap Nat Nat
  consensusBlocks : List ConsensusHeader

def startedSeq (fx : List BuilderEffect) : Option Nat :=
  fx.findSome? fun
    | .started seq _ => some seq
    | .sealed _ => none

namespace BatchWorker

variable (w : BatchWorker)

def getPersistedBatchSeq (read : Bool) : Option Nat := if read then w.batchSeqCounter else none

def seqQuery (authorityId : Nat) : SeqQuery := ⟨(w.batches[·]?), w.id, authorityId, w.epoch⟩

def recoverBatchSeqFromHistory : Nat :=
  match w.authorityId with
  | none => 0
  | some authorityId =>
    match (w.seqQuery authorityId).walk none (w.consensusBlocks.reverse.map (·.subDag)) with
    | some seq => min (seq + 1) (2 ^ 64 - 1)
    | none => 0

def resolveInitialBatchSeq (observer : Bool) (env : BatchStart) : InitialBatchSeq :=
  if observer then .use 0
  else
    match w.getPersistedBatchSeq env.counterRead with
    | some seq => .use seq
    | none =>
      match env.replay with
      | .ready => .use w.recoverBatchSeqFromHistory
      | .defer => .defer
      | .shutdown => .shutdown

def onBuilder (r : BuilderResult) : BatchWorker :=
  { w with
    builder := some r.2
    task := (startedSeq r.1).elim w.task fun seq => some ⟨seq, .building⟩ }

def withStage (seq : Nat) (stage : SealStage) : BatchWorker :=
  { w with task := some ⟨seq, stage⟩ }

def stop : BatchWorker := { w with builder := none, task := none }

def restart (env : BatchStart) : BatchWorker :=
  match w.resolveInitialBatchSeq false env with
  | .use seq =>
    w.stop.onBuilder
      (BatchBuilder.start env.watermark seq env.epochBoundary env.canonicalTimestamp)
  | .defer | .shutdown => w.stop

def onBuilt (seq : Nat) : Except Unit (Option BuiltBatch) → BatchWorker
  | .error _ => w.withStage seq (.finished (.error .buildTask))
  | .ok none => w.withStage seq (.finished (.ok .nothingToSeal))
  | .ok (some batch) =>
    if w.builder.all fun b => b.ended.isSome then { w with task := none }
    else w.withStage seq (.submitted batch)

/-- The counter's next value is computed first, and its addition is checked. A worker without
quorum waiter sends the transactions out and is done. -/
def onReceived (seq : Nat) (batch : BuiltBatch) : List WorkerEffect × BatchWorker :=
  if 2 ^ 64 ≤ seq + 1 then ([], w.stop)
  else if w.quorumWaiter then ([], w.withStage seq (.attesting batch))
  else ([.sealed seq batch.digest], w.withStage seq (.sealed batch))

def fail (seq : Nat) (e : BlockSealError) : BatchWorker := w.withStage seq (.finished e.outcome)

def onResolved (outcome : Except BatchBuilderError TaskOutcome) : BatchWorker :=
  match w.builder with
  | none => { w with task := none }
  | some b =>
    if b.ended.isSome then { w with task := none }
    else { w with task := none }.onBuilder (b.step (.quorum outcome))

def sealStep (seq : Nat) : SealStage → WorkerEvent → List WorkerEffect × BatchWorker
  | .building, .built result => ([], w.onBuilt seq result)
  | .submitted batch, .received => w.onReceived seq batch
  | .submitted _, .workerGone => ([], w.withStage seq (.finished (.error .workerGone)))
  | .attesting batch, .attested (.ok ()) =>
    ([.reached seq batch.digest], w.withStage seq (.quorate batch))
  | .attesting _, .attested (.error e) => ([], w.fail seq (.ofQuorumWaiter e))
  | .quorate batch, .inserted true =>
    ([], { w with batches := w.batches.insert batch.digest seq }.withStage seq (.stored batch))
  | .quorate _, .inserted false => ([], w.fail seq .fatalDBFailure)
  | .stored batch, .reported true =>
    ([.sealed seq batch.digest], w.withStage seq (.sealed batch))
  | .stored _, .reported false => ([], w.fail seq .failedQuorum)
  | .sealed batch, .persisted true =>
    ([.recorded seq batch.digest],
      { w with batchSeqCounter := some (seq + 1) }.withStage seq
        (.finished (.ok (.quorumSucceeded batch.atCapacity))))
  | .sealed batch, .persisted false =>
    ([], w.withStage seq (.finished (.ok (.quorumSucceeded batch.atCapacity))))
  | .finished outcome, .resolved => ([], w.onResolved outcome)
  | _, _ => ([], w)

def step : WorkerEvent → List WorkerEffect × BatchWorker
  | .builder (.quorum _) => ([], w)
  | .builder event =>
    match w.builder with
    | none => ([], w)
    | some b => ([], w.onBuilder (b.step event))
  | .committed block => ([], { w with consensusBlocks := w.consensusBlocks ++ [block] })
  | .synced digest seq => ([], { w with batches := w.batches.insert digest seq })
  | .restart env => ([], w.restart env)
  | event =>
    match w.task with
    | none => ([], w)
    | some t => w.sealStep t.seq t.stage event

def run (events : List WorkerEvent) : List WorkerEffect × BatchWorker := Reactor.run step w events

end BatchWorker

end Axyl
