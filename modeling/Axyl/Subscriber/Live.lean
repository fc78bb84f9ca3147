import Axyl.Lib.Reactor
import Axyl.StateSync.Chain
import Axyl.Subscriber.Follow

/-! The live subscriber `run`, and a node that starts either subscriber again and again inside one
epoch. Consensus goes on behind the saved chain at every start. The cache of headers for peers is
left out. -/

namespace Axyl

variable [HashFunction]

def maxPendingPayloads : Nat := 1000

/-- The live subscriber after the replay, with the number of sub-dags of the epoch that consensus
has committed. -/
structure LiveSubscriber where
  lastParent : Nat
  lastNumber : Nat
  waiting : List ConsensusHeader
  epochCut : EpochCut
  draining : Bool
  sequenced : Nat

namespace LiveSubscriber

def start (tip : ConsensusHeader) (sequenced : Nat) : LiveSubscriber where
  lastParent := tip.digest
  lastNumber := tip.number
  waiting := []
  epochCut := .default
  draining := false
  sequenced := sequenced

variable (l : LiveSubscriber)

def receive (subDag : CommittedSubDag) : LiveSubscriber :=
  let header : ConsensusHeader := ⟨l.lastParent, subDag, l.lastNumber + 1⟩
  { l with
    lastParent := header.digest
    lastNumber := header.number
    waiting := l.waiting ++ [header]
    sequenced := l.sequenced + 1 }

def deliver (cfg : SubscriberConfig) (sends : Bool) : List SubscriberEffect × LiveSubscriber :=
  match l.waiting with
  | [] => ([], l)
  | header :: waiting =>
    let (effects, epochCut) := l.epochCut.commit cfg.epochBoundary sends header
    (effects, { l with waiting, epochCut })

end LiveSubscriber

inductive Subscriber where
  | stopped
  /-- The live subscriber replays what was not executed. -/
  | replaying (missing : List ConsensusHeader)
  | live (l : LiveSubscriber)
  | following (f : Follower)

structure EpochHistory where
  base : ConsensusHeader
  subDags : List CommittedSubDag

def EpochHistory.chain (history : EpochHistory) : List ConsensusHeader :=
  chainFrom history.base history.subDags

structure EpochNode where
  blocks : ConsensusBlocks
  subscriber : Subscriber

inductive EpochEvent where
  /-- A subscriber starts with the header of the number as executed anchor. -/
  | start (follow : Bool) (executedNumber : Nat)
  | replay
  | subDag
  | header (number : Nat) (keys : Bool)
  | deliver (sends : Bool)
  | drain
  /-- Shutdown, a switch of the mode or a crash. -/
  | stop
deriving DecidableEq, Repr

namespace EpochNode

variable (cfg : SubscriberConfig) (history : EpochHistory) (n : EpochNode)

def executedAnchor (number : Nat) : ConsensusHeader :=
  if number ≤ history.base.number then history.base else n.blocks[number]?.getD history.base

def save (effects : List SubscriberEffect) : ConsensusBlocks :=
  effects.foldl (fun blocks e =>
    match e with
    | .saved header => blocks.insert header.number header
    | .sent _ => blocks) n.blocks

def startLive : Subscriber :=
  let tip := (consensusChainTip n.blocks cfg.epoch cfg.certifiedCheckpoint).getD .default
  .live (.start tip (tip.number - history.base.number))

/-- What is left after a commit: a subscriber whose send failed is gone, and one that drains ends
with its last output. -/
def afterDeliver (effects : List SubscriberEffect) (sends ended : Bool) (s : Subscriber) :
    List SubscriberEffect × EpochNode :=
  (effects, ⟨n.save effects, if (effects ≠ [] ∧ sends = false) ∨ ended then .stopped else s⟩)

def deliver (sends : Bool) : List SubscriberEffect × EpochNode :=
  match n.subscriber with
  | .live l =>
    let r := l.deliver cfg sends
    n.afterDeliver r.1 sends (r.2.draining && r.2.waiting.isEmpty) (.live r.2)
  | .following f =>
    let r := f.deliver cfg sends
    n.afterDeliver r.1 sends false (.following r.2)
  | _ => ([], n)

def replay : List SubscriberEffect × EpochNode :=
  match n.subscriber with
  | .replaying [] => ([], { n with subscriber := n.startLive cfg history })
  | .replaying (header :: missing) =>
    if header.subDag.reachesEpochBoundary cfg.epochBoundary then
      ([.sent header], { n with subscriber := n.startLive cfg history })
    else ([.sent header], { n with subscriber := .replaying missing })
  | _ => ([], n)

def receive : EpochEvent → Subscriber
  | .subDag =>
    match n.subscriber with
    | .live l =>
      if l.draining ∨ maxPendingPayloads ≤ l.waiting.length then .live l
      else
        match history.subDags[l.sequenced]? with
        | some d => .live (l.receive d)
        | none => .live l
    | s => s
  | .header number keys =>
    match n.subscriber with
    | .following f =>
      if maxCatchupPipeline ≤ f.waiting.length then .following f
      else
        match history.chain.find? fun header => header.number = number with
        | some header => .following (f.receive cfg keys header)
        | none => .following f
    | s => s
  | .drain =>
    match n.subscriber with
    | .live l => if l.waiting.isEmpty then .stopped else .live { l with draining := true }
    | s => s
  | _ => n.subscriber

def step : EpochEvent → List SubscriberEffect × EpochNode
  | .start follow executedNumber =>
    let anchor := n.executedAnchor history executedNumber
    let subscriber :=
      if follow then .following (.start cfg n.blocks ∅ anchor)
      else .replaying (getMissingConsensus n.blocks ∅ cfg.epoch anchor)
    ([], { n with subscriber })
  | .replay => n.replay cfg history
  | .deliver sends => n.deliver cfg sends
  | .stop => ([], { n with subscriber := .stopped })
  | event => ([], { n with subscriber := n.receive cfg history event })

def run (n : EpochNode) (events : List EpochEvent) : List SubscriberEffect × EpochNode :=
  Reactor.run (step cfg history) n events

end EpochNode

end Axyl
