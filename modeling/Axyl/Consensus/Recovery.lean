import Axyl.Storage.CertificateStore
import Axyl.Storage.ConsensusStore
import Axyl.Consensus.Bullshark

/-! Consensus rebuilt from the node storage at the start of a session. -/

namespace Axyl
open Std (ExtTreeMap)

structure NodeStorage where
  certificateStore : CertificateStore
  consensusBlocks : ConsensusBlocks

def NodeStorage.ofChain (certs : List Certificate) (subDags : List CommittedSubDag) :
    NodeStorage where
  certificateStore := certs.foldl CertificateStore.write .empty
  consensusBlocks := ExtTreeMap.ofList (subDags.zipIdx.map fun e =>
    (e.2, ({ parentHash := 0, subDag := e.1, number := e.2 } : ConsensusHeader)))

namespace LeaderSchedule

def ofFinalScores (committee : Committee) (badNodesPercentThreshold : Nat) :
    Option CommittedSubDag → Except Abort LeaderSchedule
  | none => .ok ⟨committee, .default⟩
  | some subDag => do
    let table ← LeaderSwapTable.new committee subDag.leaderRound subDag.reputationScore
      badNodesPercentThreshold
    return ⟨committee, table⟩

def fromStore (committee : Committee) (blocks : ConsensusBlocks)
    (badNodesPercentThreshold : Nat) : Except Abort LeaderSchedule :=
  ofFinalScores committee badNodesPercentThreshold
    (blocks.readLatestCommitWithFinalReputationScores committee.epoch)

theorem ofFinalScores_committee {committee : Committee} {threshold : Nat}
    {final : Option CommittedSubDag} {s : LeaderSchedule}
    (h : ofFinalScores committee threshold final = .ok s) : s.committee = committee := by
  cases final with
  | none =>
    cases h
    rfl
  | some d =>
    rw [ofFinalScores] at h
    cases hnew : LeaderSwapTable.new committee d.leaderRound d.reputationScore threshold with
    | error e => simp [hnew, bind, Except.bind] at h
    | ok table =>
      rw [hnew] at h
      cases h
      rfl

end LeaderSchedule

namespace ConsensusState

/-- The loop of `construct_dag_from_cert_store`. Certificates of other epochs and those
without their parents are passed over. -/
def constructDag (lastCommitted : ExtTreeMap Nat Nat) (gcRound currentEpoch : Nat) :
    List Certificate → Dag → Except ConsensusError Dag
  | [], dag => .ok dag
  | cert :: certificates, dag =>
    if cert.epoch ≠ currentEpoch then
      constructDag lastCommitted gcRound currentEpoch certificates dag
    else
      match tryInsertInDag dag lastCommitted gcRound cert with
      | (.ok _, dag) => constructDag lastCommitted gcRound currentEpoch certificates dag
      | (.error (.missingParent _ _), dag) =>
        constructDag lastCommitted gcRound currentEpoch certificates dag
      | (.error (.missingParentRound _), dag) =>
        constructDag lastCommitted gcRound currentEpoch certificates dag
      | (.error e, _) => .error e

def constructDagFromCertStore (certStore : CertificateStore) (lastCommitted : ExtTreeMap Nat Nat)
    (gcRound currentEpoch : Nat) : Except Abort Dag :=
  match certStore.afterRound (gcRound + 1) with
  | .error _ => .error .databaseUnavailable
  | .ok certificates =>
    match constructDag lastCommitted gcRound currentEpoch
      (certificates.insertionSort fun a b => a.round ≤ b.round) ∅ with
    | .ok dag => .ok dag
    | .error _ => .error .recoveredEquivocation

def newFromStore (lastCommittedRound gcDepth : Nat) (recoveredLastCommitted : ExtTreeMap Nat Nat)
    (latestSubDag : Option CommittedSubDag) (certStore : CertificateStore) (currentEpoch : Nat) :
    Except Abort ConsensusState := do
  let lastRound := ConsensusRound.newWithGcDepth lastCommittedRound gcDepth
  let dag ← constructDagFromCertStore certStore recoveredLastCommitted lastRound.gcRound
    currentEpoch
  return { lastRound, gcDepth, dag
           lastCommitted := recoveredLastCommitted
           lastCommittedSubDag := latestSubDag }

end ConsensusState

def primeConsensus (epoch : Nat) (lastExecutedBlock : ConsensusHeader) : Nat :=
  if lastExecutedBlock.subDag.leaderEpoch < epoch then 0
  else if 0 < lastExecutedBlock.subDag.leaderRound then lastExecutedBlock.subDag.leaderRound
  else min lastExecutedBlock.number (2 ^ 32 - 1)

def Consensus.spawn (committee : Committee) (gcDepth numSubDagsPerSchedule threshold : Nat)
    (storage : NodeStorage) (executedAnchor : ConsensusHeader) : Except Abort Consensus := do
  let leaderSchedule ← LeaderSchedule.fromStore committee storage.consensusBlocks threshold
  let recoveredLastCommitted := storage.consensusBlocks.readLastCommitted committee.epoch
  let lastCommittedRound := max (primeConsensus committee.epoch executedAnchor)
    (highestRound recoveredLastCommitted)
  let latestSubDag := storage.consensusBlocks.getLatestSubDag.filter fun d =>
    committee.epoch ≤ d.leaderEpoch
  if latestSubDag.any fun d => lastCommittedRound < d.leaderRound then
    throw .committedRoundBehindSubDag
  let state ← ConsensusState.newFromStore lastCommittedRound gcDepth recoveredLastCommitted
    latestSubDag storage.certificateStore committee.epoch
  return ⟨{ committee, numSubDagsPerSchedule, leaderSchedule
            badNodesStakeThreshold := threshold }, state⟩

end Axyl
