import Axyl.Types.Batch
import Axyl.Processor.Registry
import Axyl.Storage.ConsensusStore

/-! The order of batches by authority: parking ahead of a gap, draining when it closes, the
reset at an epoch change, and the state on disk. -/

namespace Axyl
open Std (ExtTreeMap ExtTreeSet)

/-- `reth` is any failure of the execution environment. The cases after `unknownAuthority`
are aborts: a checked addition of sequence numbers, an assertion, an expected row. -/
inductive EngineError where
  | reth
  | unknownAuthority (leader : Nat)
  | seqOverflow
  | unevenBatches
  | noBlocks
  | undecodableOrdering
deriving DecidableEq, Repr

abbrev EngineResult := Except EngineError

inductive AcceptResult where
  | inOrder (prepared : PreparedBatch)
  | parked
  | overflowForced (prepared : PreparedBatch)
deriving DecidableEq, Repr

def nextSeq (seq : Nat) : EngineResult Nat :=
  if seq + 1 < 2 ^ 64 then .ok (seq + 1) else .error .seqOverflow

namespace AuthoritySeqState

/-- `try_accept` for a nonzero sequence number. Parking overwrites what is parked under the
same number. The overflow jump drops what it passes only under seq normalization. -/
def tryAccept (auth : AuthoritySeqState) (batchSeq : Nat) (prepared : PreparedBatch)
    (seqNormalization : Bool) : EngineResult (AcceptResult × AuthoritySeqState) :=
  match auth.lastExecutedSeq with
  | none => .ok (.inOrder prepared, { auth with lastExecutedSeq := some batchSeq })
  | some lastSeq =>
    if batchSeq ≤ lastSeq then .ok (.inOrder prepared, auth)
    else if batchSeq ≠ lastSeq + 1 then
      if maxParkedPerAuthority ≤ auth.parked.size then
        if seqNormalization then
          match nextSeq batchSeq with
          | .error e => .error e
          | .ok bound =>
            .ok (.overflowForced prepared,
              ⟨some batchSeq, auth.parked.filter fun seq _ => bound ≤ seq⟩)
        else .ok (.overflowForced prepared, ⟨some batchSeq, auth.parked⟩)
      else .ok (.parked, ⟨some lastSeq, auth.parked.insert batchSeq prepared⟩)
    else .ok (.inOrder prepared, { auth with lastExecutedSeq := some batchSeq })

/-- The loop of `drain_consecutive`. A turn that goes on removes a parked batch, so one turn
more than there are parked batches is enough. -/
def drainLoop (checkDedup : Bool) : Nat → AuthoritySeqState → ExecutedBatchRegistry →
    EngineResult (List PreparedBatch × AuthoritySeqState × ExecutedBatchRegistry)
  | 0, auth, registry => .ok ([], auth, registry)
  | turns + 1, auth, registry =>
    match auth.lastExecutedSeq with
    | none => .ok ([], auth, registry)
    | some lastSeq => do
      let next ← nextSeq lastSeq
      match auth.parked[next]? with
      | none => return ([], auth, registry)
      | some parked =>
        let auth : AuthoritySeqState := ⟨some next, auth.parked.erase next⟩
        if checkDedup then
          let (new, registry) := registry.tryRegister parked.batchDigest
          let (rest, auth, registry) ← drainLoop checkDedup turns auth registry
          return (if new then { parked with drained := true } :: rest else rest, auth, registry)
        else
          let (rest, auth, registry) ← drainLoop checkDedup turns auth registry
          return ({ parked with drained := true } :: rest, auth, registry)

end AuthoritySeqState

namespace BatchOrderingState

def get (o : BatchOrderingState) (authority : Nat) : AuthoritySeqState :=
  o.authorities[authority]?.getD .default

def lastExecutedSeq (o : BatchOrderingState) (authority : Nat) : Option Nat :=
  (o.get authority).lastExecutedSeq

def parked (o : BatchOrderingState) (authority : Nat) : ExtTreeMap Nat PreparedBatch :=
  (o.get authority).parked

def set (o : BatchOrderingState) (authority : Nat) (auth : AuthoritySeqState) :
    BatchOrderingState :=
  { o with authorities := o.authorities.insert authority auth }

def tryAccept (o : BatchOrderingState) (authority batchSeq : Nat) (prepared : PreparedBatch)
    (seqNormalization : Bool) : EngineResult (AcceptResult × BatchOrderingState) :=
  if batchSeq = 0 then .ok (.inOrder prepared, o)
  else
    match (o.get authority).tryAccept batchSeq prepared seqNormalization with
    | .error e => .error e
    | .ok (result, auth) => .ok (result, o.set authority auth)

def drainConsecutive (o : BatchOrderingState) (authority : Nat)
    (registry : ExecutedBatchRegistry) (checkDedup : Bool) :
    EngineResult (List PreparedBatch × BatchOrderingState × ExecutedBatchRegistry) :=
  match o.authorities[authority]? with
  | none => .ok ([], o, registry)
  | some auth =>
    match auth.drainLoop checkDedup (auth.parked.size + 1) registry with
    | .error e => .error e
    | .ok (drained, auth, registry) => .ok (drained, o.set authority auth, registry)

def allParked (o : BatchOrderingState) : List PreparedBatch :=
  (o.authorities.toList.flatMap fun (_, auth) => auth.parked.toList.map Prod.snd).insertionSort
    fun a b => a.beneficiary < b.beneficiary ∨
      (a.beneficiary = b.beneficiary ∧ a.batch.seq ≤ b.batch.seq)

def drainEpoch (o : BatchOrderingState) (newEpoch : Nat) :
    List PreparedBatch × BatchOrderingState :=
  if newEpoch ≤ o.epoch then ([], o) else (o.allParked, ⟨newEpoch, ∅⟩)

end BatchOrderingState

structure StoredAuthoritySeqState where
  lastExecutedSeq : Option Nat
  parked : ExtTreeMap Nat ParkedRef
deriving DecidableEq

structure StoredBatchOrderingState where
  epoch : Nat
  authorities : ExtTreeMap Nat StoredAuthoritySeqState
deriving DecidableEq

/-- The single row of the table: by reference, or by value as an older binary wrote it, or
bytes that decode as neither. -/
inductive OrderingRow where
  | compact (stored : StoredBatchOrderingState)
  | legacy (state : BatchOrderingState)
  | undecodable
deriving DecidableEq

/-- The table of batch bodies. Every read treats a row that does not decode as a missing one,
so only rows that decode are in the map. -/
abbrev Batches := ExtTreeMap Nat Batch

namespace StoredBatchOrderingState

def ofState (o : BatchOrderingState) : StoredBatchOrderingState where
  epoch := o.epoch
  authorities := o.authorities.map fun _ auth =>
    ⟨auth.lastExecutedSeq, auth.parked.map fun _ prepared => .ofPrepared prepared⟩

def reconstructParked (stored : StoredBatchOrderingState) (bodies : Batches) :
    BatchOrderingState where
  epoch := stored.epoch
  authorities := stored.authorities.map fun _ auth =>
    ⟨auth.lastExecutedSeq, auth.parked.filterMap fun _ reference =>
      (bodies[reference.batchDigest]?).map reference.intoPrepared⟩

end StoredBatchOrderingState

def writeBatchOrderingState (o : BatchOrderingState) : OrderingRow := .compact (.ofState o)

def readBatchOrderingState (row : Option OrderingRow) (batches : Batches) :
    EngineResult (Option BatchOrderingState) :=
  match row with
  | none => .ok none
  | some (.compact stored) => .ok (some (stored.reconstructParked batches))
  | some (.legacy state) => .ok (some state)
  | some .undecodable => .error .undecodableOrdering

def ConsensusHeader.batchDigests (header : ConsensusHeader) : List Nat :=
  header.subDag.certificates.flatMap fun c => c.header.payload.map Prod.fst

def raiseSeq (seqs : ExtTreeMap Nat Nat) (batch : Batch) : ExtTreeMap Nat Nat :=
  seqs.insert batch.beneficiary (max (seqs[batch.beneficiary]?.getD batch.seq) batch.seq)

def historyOf (blocks : ConsensusBlocks) (currentEpoch : Nat) : List ConsensusHeader :=
  blocks.headers.reverse.takeWhile fun header => currentEpoch ≤ header.subDag.leaderEpoch

def historyBatches (blocks : ConsensusBlocks) (batches : Batches) (currentEpoch : Nat) :
    List Batch :=
  ((historyOf blocks currentEpoch).flatMap ConsensusHeader.batchDigests).filterMap
    fun digest => batches[digest]?

def recoverAuthoritiesFromHistory (blocks : ConsensusBlocks) (batches : Batches)
    (currentEpoch : Nat) : ExtTreeMap Nat AuthoritySeqState :=
  ((historyBatches blocks batches currentEpoch).foldl raiseSeq ∅).map fun _ seq => ⟨some seq, ∅⟩

def BatchOrderingState.fromHistory (row : Option OrderingRow) (batches : Batches)
    (blocks : ConsensusBlocks) (currentEpoch : Nat) : EngineResult BatchOrderingState := do
  let state := (← readBatchOrderingState row batches).getD .default
  let validFrame := state.epoch = currentEpoch ∨ state.epoch + 1 = currentEpoch
  if state.authorities.isEmpty ∨ ¬validFrame then
    return ⟨currentEpoch, recoverAuthoritiesFromHistory blocks batches currentEpoch⟩
  else return state

end Axyl
