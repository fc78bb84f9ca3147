import Axyl.Consensus.Watermark
import Axyl.Primary.ProposedHeaders

/-! One authority: consensus, the state handler and the proposer, joined by the channels for
committed certificates and own headers and by the watch of the committed round. Execution keeps up,
so every commit is reported. -/

namespace Axyl

/-- `committed` and `noticed` are the history that no part of the node reads: the certificates
committed so far, and the own rounds whose commits reached the proposer. -/
structure PrimaryNode where
  consensus : Except Failure Consensus
  highestSeenRound : Nat
  committedCertificates : List (Nat × List Certificate)
  committedOwnHeaders : List (Nat × List Nat)
  proposer : Proposer
  committed : List Certificate
  noticed : List Nat

inductive PrimaryEvent where
  | certificate (c : Certificate)
  | gcTick
  | updateConsensusRounds
  | handleSequenced
  /-- The proposer takes the next notice. -/
  | notice (env : LoopEnv)
  | proposer (event : ProposerEvent)

def ProposerEvent.isLocal : ProposerEvent → Bool
  | .select (.committed _ _) _ | .committedRound _ | .restart _ => false
  | _ => true

def ownRounds (authorityId : Nat) (certs : List Certificate) : List Nat :=
  (certs.filter fun c => c.origin = authorityId).map Certificate.round

theorem mem_ownRounds {authorityId r : Nat} {certs : List Certificate} :
    r ∈ ownRounds authorityId certs ↔ ∃ c ∈ certs, c.origin = authorityId ∧ c.round = r := by
  simp [ownRounds, and_assoc]

namespace PrimaryNode

variable [StdRng] (cfg : ProposerConfig)

def start (n : Consensus) (committedRound : Nat) (row : Option Header)
    (history : List Certificate) : PrimaryNode where
  consensus := .ok n
  highestSeenRound := 0
  committedCertificates := []
  committedOwnHeaders := []
  proposer := .new cfg committedRound row
  committed := history
  noticed := ownRounds cfg.authorityId history

variable (a : PrimaryNode)

def reportCommit (n : Consensus) (certs : List Certificate) : PrimaryNode :=
  { a with
    consensus := .ok n
    committed := a.committed ++ certs
    committedCertificates := a.committedCertificates ++
      ((certs.map Certificate.round).max?.map fun round => (round, certs)).toList }

def newCertificate (n : Consensus) (c : Certificate) : PrimaryNode :=
  match n.newCertificate c with
  | .error e => { a with consensus := .error (.abort e) }
  | .ok (.error e, _) => { a with consensus := .error (.error e) }
  | .ok (.ok (_, subDags), n) => a.reportCommit n (sequenceOf subDags)

def handleSequenced : PrimaryNode :=
  match a.committedCertificates with
  | [] => a
  | (round, certs) :: rest =>
    { a with
      committedCertificates := rest
      committedOwnHeaders := a.committedOwnHeaders ++ [(round, ownRounds cfg.authorityId certs)] }

def stepProposer (event : ProposerEvent) : List ProposerEffect × PrimaryNode :=
  let r := a.proposer.step cfg event
  (r.1, { a with proposer := r.2 })

def step : PrimaryEvent → List ProposerEffect × PrimaryNode
  | .certificate c =>
    match a.consensus with
    | .error _ => ([], a)
    | .ok n =>
      ([], { a with highestSeenRound := max a.highestSeenRound c.round }.newCertificate n c)
  | .gcTick =>
    match a.consensus with
    | .error _ => ([], a)
    | .ok n => ([], a.reportCommit (n.proactiveGc a.highestSeenRound) [])
  | .updateConsensusRounds =>
    match a.consensus with
    | .error _ => ([], a)
    | .ok n => a.stepProposer cfg (.committedRound n.state.lastRound.committedRound)
  | .handleSequenced => ([], a.handleSequenced cfg)
  | .notice env =>
    match a.proposer.ended, a.committedOwnHeaders with
    | none, (round, own) :: rest =>
      { a with
        committedOwnHeaders := rest
        noticed := a.noticed ++ own }.stepProposer cfg (.select (.committed round own) env)
    | _, _ => ([], a)
  | .proposer event => if event.isLocal then a.stepProposer cfg event else ([], a)

def run (events : List PrimaryEvent) : List ProposerEffect × PrimaryNode :=
  Reactor.run (step cfg) a events

def pendingNotices : List (List Nat) :=
  a.committedOwnHeaders.map Prod.snd ++
    a.committedCertificates.map fun e => ownRounds cfg.authorityId e.2

def resultHeader : Option Header :=
  match a.proposer.pendingHeader with
  | some (.done header) => some header
  | _ => none

/-- A proposal result is handled before the commit of its header reaches the proposer, and no
commit on its way covers a round that is evicted with it. -/
def Timely : PrimaryEvent → Prop
  | .proposer (.select .result _) => ∀ header ∈ a.resultHeader,
    header.round ∉ a.noticed ∧ ∀ own ∈ a.pendingNotices cfg, ∀ r ∈ own,
      r = header.round ∨ r ∈ a.proposer.proposedHeaders →
        a.proposer.committedRound - cfg.gcDepth < r
  | _ => True

instance decidableTimely : (event : PrimaryEvent) → Decidable (a.Timely cfg event)
  | .proposer (.select .result _) =>
    inferInstanceAs (Decidable (∀ _ ∈ a.resultHeader, _ ∧ ∀ _ ∈ _, ∀ _ ∈ _, _))
  | .proposer (.select .shutdown _) | .proposer (.select (.digest _) _)
  | .proposer (.select (.parents _ _) _) | .proposer (.select (.committed _ _) _)
  | .proposer (.select .maxTick _) | .proposer (.select .minTick _) | .proposer (.built _ _)
  | .proposer (.stored _) | .proposer (.sent _) | .proposer .dropped
  | .proposer (.committedRound _) | .proposer (.restart _) | .certificate _ | .gcTick
  | .updateConsensusRounds | .handleSequenced | .notice _ => isTrue trivial

end PrimaryNode

end Axyl
