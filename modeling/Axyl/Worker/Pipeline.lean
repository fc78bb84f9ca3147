import Axyl.Lib.Reactor
import Mathlib.Algebra.GroupWithZero.Nat

/-! The batch builder of a worker: a build starts when the budget of batches sealed ahead of
execution allows it, and its outcome moves the phase and the sequence number. The transactions that
are selected and marked in flight are left out. -/

namespace Axyl

def maxSealAhead : Nat := 4

def boundaryQuiesceWindowSecs : Nat := 5

inductive EpochPhase where
  | active
  | quiescing
  | closed
deriving DecidableEq, Repr

namespace EpochPhase

def evaluate (epochBoundary canonicalTip : Nat) : EpochPhase :=
  if epochBoundary ≤ canonicalTip then .closed
  else if epochBoundary - canonicalTip ≤ boundaryQuiesceWindowSecs then .quiescing
  else .active

def maxAllowedAhead : EpochPhase → Nat
  | .active => maxSealAhead
  | .quiescing => 1
  | .closed => 0

end EpochPhase

inductive GateRejectionReason where
  | epochBoundaryReached
  | budgetExhausted
  | epochStartThrottled
deriving DecidableEq, Repr

structure PipelineData where
  startSeq : Nat
  highestDurableSealedSeq : Option Nat
  currentSeq : Nat
  lastCanonicalTimestamp : Nat
deriving DecidableEq, Repr

def calculateInFlightDepth (highestSealedSeq : Option Nat) (startSeq : Nat)
    (ownExecutedSeq : Option Nat) : Nat :=
  match highestSealedSeq with
  | none => 0
  | some highest => highest - ownExecutedSeq.getD (startSeq - 1)

def checkBuildBudget (data : PipelineData) (ownExecutedSeq : Option Nat) (epochBoundary : Nat) :
    Except GateRejectionReason Unit :=
  let phase := EpochPhase.evaluate epochBoundary data.lastCanonicalTimestamp
  if phase = .closed then .error .epochBoundaryReached
  else
    let inFlight :=
      calculateInFlightDepth data.highestDurableSealedSeq data.startSeq ownExecutedSeq
    let firstOfEpochExecuted := ownExecutedSeq.any fun executed => data.startSeq ≤ executed
    if firstOfEpochExecuted = false ∧ 1 ≤ inFlight then .error .epochStartThrottled
    else if phase.maxAllowedAhead ≤ inFlight then .error .budgetExhausted
    else .ok ()

inductive PipelinePhase where
  | clean
  | accumulating
  | backlogDraining
  | awaitingQuorum (eventArrivedWhileWaiting : Bool)
  | quorumRetry
deriving DecidableEq, Repr

structure PipelineState where
  phase : PipelinePhase
  data : PipelineData
deriving DecidableEq, Repr

namespace PipelineState

def new (persistedHighestSealedSeq : Option Nat) (startSeq canonicalTimestamp : Nat) :
    PipelineState :=
  ⟨.clean, startSeq, persistedHighestSealedSeq, startSeq, canonicalTimestamp⟩

variable (p : PipelineState)

def isAwaitingQuorum : Bool :=
  match p.phase with
  | .awaitingQuorum _ => true
  | _ => false

def onEvent : PipelineState :=
  match p.phase with
  | .clean => { p with phase := .accumulating }
  | .awaitingQuorum _ => { p with phase := .awaitingQuorum true }
  | _ => p

def onWindow : PipelineState :=
  match p.phase with
  | .quorumRetry => { p with phase := .accumulating }
  | _ => p

def onCanonicalUpdate (timestamp : Nat) : PipelineState :=
  { p with data := { p.data with lastCanonicalTimestamp := timestamp } }

def isClosed (epochBoundary : Nat) : Bool := epochBoundary ≤ p.data.lastCanonicalTimestamp

def markInFlightAndAdvance (eventArrived atCapacity : Bool) : Option PipelineState :=
  let sealedSeq := p.data.currentSeq
  if 2 ^ 64 ≤ sealedSeq + 1 then none
  else
    let highest := p.data.highestDurableSealedSeq.elim sealedSeq fun prev => max prev sealedSeq
    let data := { p.data with highestDurableSealedSeq := some highest, currentSeq := sealedSeq + 1 }
    if atCapacity then some ⟨.backlogDraining, data⟩
    else if eventArrived then some ⟨.accumulating, data⟩
    else some ⟨.clean, data⟩

end PipelineState

inductive BatchBuilderError where
  | workerGone
  | fatalDBFailure
  | buildTask
deriving DecidableEq, Repr

inductive TaskOutcome where
  | nothingToSeal
  | quorumFailed
  | quorumSucceeded (atCapacity : Bool)
deriving DecidableEq, Repr

inductive BuilderEnd where
  | returned
  | failed (e : BatchBuilderError)
  /-- The sequence number overflowed, which aborts the node. -/
  | overflow
deriving DecidableEq, Repr

structure BatchBuilder where
  epochBoundary : Nat
  pipeline : PipelineState
  /-- The watch of this authority's executed sequence number. -/
  ownExecutedWatermark : Option Nat
  ended : Option BuilderEnd
deriving DecidableEq

inductive BuilderEvent where
  /-- The canonical tip and the further ones that are there at once. -/
  | canonical (tip : Nat) (more : List Nat)
  | quorum (outcome : Except BatchBuilderError TaskOutcome)
  /-- The processor moves the watch. -/
  | executed (seq : Nat)
  /-- The builder sees that the watch has changed. -/
  | watermark
  | candidate
  | release
  | window

inductive BuilderEffect where
  | started (seq tip : Nat)
  | sealed (seq : Nat)
deriving DecidableEq, Repr

abbrev BuilderResult := List BuilderEffect × BatchBuilder

namespace BatchBuilder

def resumeSeq (watermark : Option Nat) (persistedNext : Nat) : Nat :=
  watermark.elim persistedNext fun executed => min (executed + 1) (2 ^ 64 - 1)

variable (b : BatchBuilder)

def finish (e : BuilderEnd) : BatchBuilder := { b with ended := some e }

def withPipeline (p : PipelineState) : BatchBuilder := { b with pipeline := p }

def tryStartBuild : BuilderResult :=
  match b.pipeline.phase with
  | .accumulating | .backlogDraining =>
    match checkBuildBudget b.pipeline.data b.ownExecutedWatermark b.epochBoundary with
    | .error _ => ([], b)
    | .ok () =>
      ([.started b.pipeline.data.currentSeq b.pipeline.data.lastCanonicalTimestamp],
        b.withPipeline { b.pipeline with phase := .awaitingQuorum false })
  | _ => ([], b)

/-- The head of the loop: the boundary ends the builder, and a backlog is drained before the next
event is awaited. -/
def loopHead : BuilderResult :=
  if b.ended.isSome then ([], b)
  else if b.pipeline.isClosed b.epochBoundary then ([], b.finish .returned)
  else b.tryStartBuild

def handleQuorumResolution (outcome : Except BatchBuilderError TaskOutcome) : BuilderResult :=
  match b.pipeline.phase with
  | .awaitingQuorum eventArrived =>
    match outcome with
    | .error .workerGone => ([], b.finish .returned)
    | .error e => ([], b.finish (.failed e))
    | .ok .nothingToSeal => ([], b.withPipeline { b.pipeline with phase := .clean })
    | .ok .quorumFailed => ([], b.withPipeline { b.pipeline with phase := .quorumRetry })
    | .ok (.quorumSucceeded atCapacity) =>
      match b.pipeline.markInFlightAndAdvance eventArrived atCapacity with
      | none => ([.sealed b.pipeline.data.currentSeq], b.finish .overflow)
      | some pipeline => ([.sealed b.pipeline.data.currentSeq], b.withPipeline pipeline)
  | _ => ([], b)

def select : BuilderEvent → BuilderResult
  | .canonical tip more =>
    let b' := b.withPipeline ((tip :: more).foldl .onCanonicalUpdate b.pipeline)
    if b.pipeline.isAwaitingQuorum then ([], b')
    else if b.epochBoundary ≤ tip then ([], b'.finish .returned)
    else (b'.withPipeline b'.pipeline.onEvent).tryStartBuild
  | .quorum outcome => b.handleQuorumResolution outcome
  | .executed seq => ([], { b with ownExecutedWatermark := some seq })
  | .watermark => if b.pipeline.isAwaitingQuorum then ([], b) else b.tryStartBuild
  | .candidate | .release => (b.withPipeline b.pipeline.onEvent).tryStartBuild
  | .window =>
    if b.pipeline.isAwaitingQuorum then ([], b)
    else (b.withPipeline b.pipeline.onWindow).tryStartBuild

def step (event : BuilderEvent) : BuilderResult :=
  match event with
  | .executed seq => b.select (.executed seq)
  | event =>
    if b.ended.isSome then ([], b)
    else
      let r := b.select event
      let h := r.2.loopHead
      (r.1 ++ h.1, h.2)

def start (watermark : Option Nat) (persistedNext epochBoundary canonicalTimestamp : Nat) :
    BuilderResult :=
  let startSeq := resumeSeq watermark persistedNext
  let persistedHighestSealedSeq := if startSeq = 0 then none else some (startSeq - 1)
  let pipeline := (PipelineState.new persistedHighestSealedSeq startSeq canonicalTimestamp).onEvent
  let r := tryStartBuild ⟨epochBoundary, pipeline, watermark, none⟩
  let h := r.2.loopHead
  (r.1 ++ h.1, h.2)

def run (events : List BuilderEvent) : BuilderResult :=
  Reactor.run step b events

end BatchBuilder

end Axyl
