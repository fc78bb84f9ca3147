import Axyl.StateSync.Replay

/-! The catch-up subscriber `stream_and_follow`: it takes headers from a channel, verifies them,
fetches their batches and commits them in order up to the end of the epoch. The attempts to rejoin
the committee only end it and are left out. -/

namespace Axyl

def CommittedSubDag.reachesEpochBoundary (d : CommittedSubDag) (epochBoundary : Nat) : Bool :=
  epochBoundary ≤ d.committedAt

inductive CutAction where
  | keep
  | close
  | drop
deriving DecidableEq, Repr

structure EpochCut where
  crossed : Bool
deriving DecidableEq, Repr

def EpochCut.default : EpochCut := ⟨false⟩

def EpochCut.classify (cut : EpochCut) (d : CommittedSubDag) (epochBoundary : Nat) :
    CutAction × EpochCut :=
  if cut.crossed then (.drop, cut)
  else if d.reachesEpochBoundary epochBoundary then (.close, ⟨true⟩)
  else (.keep, cut)

def shouldProcessConsensusHeader (number lastProcessed : Nat) : Bool :=
  if number ≤ lastProcessed then false
  else if number ≠ lastProcessed + 1 then false
  else true

def Position.advance (p : Position) (d : CommittedSubDag) : Bool × Position :=
  if p < d.position then (true, d.position) else (false, p)

structure SubscriberConfig where
  epoch : Nat
  epochBoundary : Nat
  /-- The verification of the certificates with the keys of the epoch. -/
  verifies : ConsensusHeader → Bool
  certifiedCheckpoint : Option Nat

inductive SubscriberEffect where
  /-- The header is written to the table of consensus blocks. -/
  | saved (header : ConsensusHeader)
  /-- The output goes to the engine, over the channel of outputs or directly. -/
  | sent (header : ConsensusHeader)
deriving DecidableEq

def SubscriberEffect.header : SubscriberEffect → ConsensusHeader
  | .saved header | .sent header => header

def EpochCut.commit (cut : EpochCut) (epochBoundary : Nat) (sends : Bool)
    (header : ConsensusHeader) : List SubscriberEffect × EpochCut :=
  let (action, cut) := cut.classify header.subDag epochBoundary
  match action with
  | .keep | .close => (.saved header :: if sends then [.sent header] else [], cut)
  | .drop => ([], cut)

theorem EpochCut.header_of_mem_commit (cut : EpochCut) {epochBoundary : Nat} {sends : Bool}
    {header : ConsensusHeader} {e : SubscriberEffect}
    (he : e ∈ (cut.commit epochBoundary sends header).1) : e.header = header := by
  have hkept : e ∈ SubscriberEffect.saved header :: (if sends then [.sent header] else []) →
      e.header = header := by
    intro he
    rcases List.mem_cons.mp he with rfl | he
    · rfl
    · split at he
      · rw [List.mem_singleton.mp he]
        rfl
      · cases he
  unfold commit at he
  split at he
  split at he
  · exact hkept he
  · exact hkept he
  · cases he

def maxCatchupPipeline : Nat := 16

structure Follower where
  lastProcessedNumber : Nat
  acceptedPosition : Position
  waiting : List ConsensusHeader
  epochCut : EpochCut
deriving DecidableEq

namespace Follower

variable (cfg : SubscriberConfig)

def start (blocks cache : ConsensusBlocks) (executedAnchor : ConsensusHeader) : Follower where
  lastProcessedNumber :=
    if executedAnchor.number = 0 then lastStreamedNumber blocks cache cfg.epoch executedAnchor
    else executedAnchor.number
  acceptedPosition := executedAnchor.position
  waiting := []
  epochCut := .default

variable (f : Follower)

/-- A header is taken if it is of this epoch, the next one, verified and above the last position.
The keys may not arrive in time. -/
def receive (keys : Bool) (header : ConsensusHeader) : Follower :=
  if header.subDag.leaderEpoch ≠ cfg.epoch then f
  else if shouldProcessConsensusHeader header.number f.lastProcessedNumber = false then f
  else if keys = false ∨ cfg.verifies header = false then f
  else
    let (advanced, acceptedPosition) := f.acceptedPosition.advance header.subDag
    if advanced then
      { f with
        acceptedPosition
        lastProcessedNumber := header.number
        waiting := f.waiting ++ [header] }
    else f

def deliver (sends : Bool) : List SubscriberEffect × Follower :=
  match f.waiting with
  | [] => ([], f)
  | header :: waiting =>
    let (effects, epochCut) := f.epochCut.commit cfg.epochBoundary sends header
    (effects, { f with waiting, epochCut })

theorem receive_cases (keys : Bool) (hdr : ConsensusHeader) : f.receive cfg keys hdr = f ∨
      (hdr.subDag.leaderEpoch = cfg.epoch ∧ hdr.number = f.lastProcessedNumber + 1 ∧
        cfg.verifies hdr = true ∧ f.acceptedPosition < hdr.position ∧
        f.receive cfg keys hdr = { f with
          acceptedPosition := hdr.position
          lastProcessedNumber := hdr.number
          waiting := f.waiting ++ [hdr] }) := by
  unfold receive
  split
  · exact .inl rfl
  next hep =>
  split
  · exact .inl rfl
  next hproc =>
  split
  · exact .inl rfl
  next hver =>
  have hnum : hdr.number = f.lastProcessedNumber + 1 := by
    unfold shouldProcessConsensusHeader at hproc
    split at hproc
    · exact absurd rfl hproc
    · split at hproc
      · exact absurd rfl hproc
      · next hne => exact Decidable.not_not.mp hne
  have hverifies : cfg.verifies hdr = true := Bool.eq_true_of_not_eq_false fun h => hver (.inr h)
  unfold Position.advance
  by_cases hlt : f.acceptedPosition < hdr.subDag.position
  · rw [if_pos hlt]
    exact .inr ⟨Decidable.not_not.mp hep, hnum, hverifies, hlt, rfl⟩
  · rw [if_neg hlt]
    exact .inl rfl

theorem deliver_cases (sends : Bool) : (∀ e ∈ (f.deliver cfg sends).1, e.header ∈ f.waiting) ∧
      (∀ x ∈ (f.deliver cfg sends).2.waiting, x ∈ f.waiting) ∧
      (f.deliver cfg sends).2.lastProcessedNumber = f.lastProcessedNumber ∧
      (f.deliver cfg sends).2.acceptedPosition = f.acceptedPosition := by
  unfold deliver
  split
  · exact ⟨nofun, fun x hx => hx, rfl, rfl⟩
  · next hdr waiting hwait =>
    refine ⟨fun e he => ?_, fun x hx => ?_, rfl, rfl⟩
    · rw [hwait, f.epochCut.header_of_mem_commit he]
      exact List.mem_cons_self
    · rw [hwait]
      exact List.mem_cons_of_mem hdr hx

end Follower

end Axyl
