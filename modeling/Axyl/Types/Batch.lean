import Axyl.Types.ConsensusHeader

/-! Batches, the output of consensus that carries them, and the state in which they wait
for their predecessors. -/

namespace Axyl
open Std (ExtTreeMap)

/-- A transaction is the number its bytes encode. The time of receipt, which is no part of
the digest, is left out. -/
structure Batch where
  transactions : List Nat
  epoch : Nat
  beneficiary : Nat
  baseFeePerGas : Nat
  workerId : Nat
  seq : Nat
deriving DecidableEq, Repr

/-- The batches of one certificate, with the execution address of its author. -/
structure CertifiedBatch where
  address : Nat
  batches : List Batch
deriving DecidableEq, Repr

structure ConsensusOutput where
  subDag : CommittedSubDag
  batches : List CertifiedBatch
  batchDigests : List Nat
  parentHash : Nat
  number : Nat
  closeEpoch : Bool
deriving DecidableEq

namespace ConsensusOutput

def leader (o : ConsensusOutput) : Certificate := o.subDag.leader
def epoch (o : ConsensusOutput) : Nat := o.leader.epoch
def nonce (o : ConsensusOutput) : Nat := o.leader.nonce
def committedAt (o : ConsensusOutput) : Nat := o.subDag.committedAt

def consensusHeader (o : ConsensusOutput) : ConsensusHeader := ⟨o.parentHash, o.subDag, o.number⟩

def digest [HashFunction] (o : ConsensusOutput) : Nat := o.consensusHeader.digest

/-- Every batch of the output in order, with the address of its certificate's author. The
source keeps pairs of indices that lead to both. -/
def flattenBatches (o : ConsensusOutput) : List (Nat × Batch) :=
  o.batches.flatMap fun c => c.batches.map fun b => (c.address, b)

end ConsensusOutput

structure PreparedBatch where
  batch : Batch
  batchDigest : Nat
  beneficiary : Nat
  outputDigest : Nat
  outputNonce : Nat
  timestamp : Nat
  epoch : Nat
  workerId : Nat
  batchIndex : Nat
  drained : Bool
  gasLimit : Nat
deriving DecidableEq, Repr

structure ParkedRef where
  batchDigest : Nat
  beneficiary : Nat
  outputDigest : Nat
  outputNonce : Nat
  timestamp : Nat
  epoch : Nat
  workerId : Nat
  batchIndex : Nat
  drained : Bool
  gasLimit : Nat
deriving DecidableEq, Repr

namespace ParkedRef

def ofPrepared (p : PreparedBatch) : ParkedRef where
  batchDigest := p.batchDigest
  beneficiary := p.beneficiary
  outputDigest := p.outputDigest
  outputNonce := p.outputNonce
  timestamp := p.timestamp
  epoch := p.epoch
  workerId := p.workerId
  batchIndex := p.batchIndex
  drained := p.drained
  gasLimit := p.gasLimit

def intoPrepared (r : ParkedRef) (batch : Batch) : PreparedBatch where
  batch := batch
  batchDigest := r.batchDigest
  beneficiary := r.beneficiary
  outputDigest := r.outputDigest
  outputNonce := r.outputNonce
  timestamp := r.timestamp
  epoch := r.epoch
  workerId := r.workerId
  batchIndex := r.batchIndex
  drained := r.drained
  gasLimit := r.gasLimit

theorem intoPrepared_ofPrepared (p : PreparedBatch) : (ofPrepared p).intoPrepared p.batch = p := rfl

end ParkedRef

/-- The state of one authority; without a batch seen there is no last sequence number. -/
structure AuthoritySeqState where
  lastExecutedSeq : Option Nat
  parked : ExtTreeMap Nat PreparedBatch
deriving DecidableEq

def AuthoritySeqState.default : AuthoritySeqState := ⟨none, ∅⟩

structure BatchOrderingState where
  epoch : Nat
  authorities : ExtTreeMap Nat AuthoritySeqState
deriving DecidableEq

def BatchOrderingState.default : BatchOrderingState := ⟨0, ∅⟩

def maxParkedPerAuthority : Nat := 32

end Axyl
