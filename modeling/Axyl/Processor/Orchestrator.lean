import Axyl.Processor.Evm
import Axyl.Lib.Machine
import Mathlib.Data.List.ReduceOption

/-! From a consensus output to blocks: the parked batches of a past epoch, the batches of the
output in the order of their authorities, and the empty block when there are none. -/

namespace Axyl
open List Machine
open Std (ExtTreeMap ExtTreeSet)

/-- A batch of an output with the address of its authority and its digest. -/
structure OutputBatch where
  address : Nat
  batch : Batch
  digest : Nat
deriving DecidableEq, Repr

namespace OutputBatch

def refill (authority : Nat) : List OutputBatch → List OutputBatch → List OutputBatch
  | [], _ => []
  | b :: bs, [] => b :: bs
  | b :: bs, s :: sorted =>
    if b.address = authority then s :: refill authority bs sorted
    else b :: refill authority bs (s :: sorted)

def normalizeAuthority (bs : List OutputBatch) (authority : Nat) : List OutputBatch :=
  let entries := bs.filter fun b => b.address = authority
  if entries.length < 2 then bs
  else refill authority bs (entries.insertionSort fun a b => a.batch.seq ≤ b.batch.seq)

theorem refill_perm (authority : Nat) {bs sorted : List OutputBatch}
    (h : sorted.length = (bs.filter fun b => b.address = authority).length) :
    (refill authority bs sorted).Perm
      (sorted ++ bs.filter fun b => !decide (b.address = authority)) := by
  induction bs generalizing sorted with
  | nil =>
    rw [length_eq_zero_iff.mp h]
    rfl
  | cons b bs ih =>
    by_cases hb : b.address = authority
    · cases sorted with
      | nil => simp [hb] at h
      | cons s sorted =>
        simp only [refill, hb, if_true, decide_true, Bool.not_true, Bool.false_eq_true,
          not_false_eq_true, filter_cons_of_neg, cons_append]
        refine (ih ?_).cons s
        simpa [hb] using h
    · have hkeep : (b :: bs).filter (fun b => !decide (b.address = authority)) =
          b :: bs.filter fun b => !decide (b.address = authority) :=
        filter_cons_of_pos (by simp [hb])
      rw [filter_cons_of_neg (by simp [hb])] at h
      rw [hkeep]
      cases sorted with
      | nil =>
        have hnone := filter_eq_nil_iff.mp (length_eq_zero_iff.mp h.symm)
        rw [refill, nil_append, filter_eq_self.mpr]
        intro x hx
        simpa using hnone x hx
      | cons s sorted =>
        rw [refill, if_neg hb]
        exact ((ih h).cons b).trans perm_middle.symm

theorem normalizeAuthority_perm (bs : List OutputBatch) (authority : Nat) :
    (normalizeAuthority bs authority).Perm bs := by
  unfold normalizeAuthority
  dsimp only
  split
  · rfl
  · have hsort := perm_insertionSort (fun a b : OutputBatch => a.batch.seq ≤ b.batch.seq)
      (bs.filter fun b => b.address = authority)
    exact ((refill_perm authority hsort.length_eq).trans (hsort.append_right _)).trans
      (filter_append_perm _ bs)

end OutputBatch

def normalizeAuthoritySeqOrder (bs : List OutputBatch) : List OutputBatch :=
  (ExtTreeSet.ofList (bs.map OutputBatch.address)).toList.foldl OutputBatch.normalizeAuthority bs

theorem normalizeAuthoritySeqOrder_perm (bs : List OutputBatch) :
    (normalizeAuthoritySeqOrder bs).Perm bs := by
  have hfold : ∀ (authorities : List Nat) (bs : List OutputBatch),
      (authorities.foldl OutputBatch.normalizeAuthority bs).Perm bs := by
    intro authorities
    induction authorities with
    | nil => exact fun bs => .refl bs
    | cons a authorities ih =>
      exact fun bs => (ih _).trans (OutputBatch.normalizeAuthority_perm bs a)
  exact hfold _ bs

def ConsensusOutput.outputBatches (o : ConsensusOutput) : List OutputBatch :=
  (o.flattenBatches.zip o.batchDigests).map fun ((address, batch), digest) => ⟨address, batch, digest⟩

def minProtocolBaseFee : Nat := 7

def ChainSpec.resolveBaseFee (spec : ChainSpec) (parent : ExecHeader) (batchBaseFee : Nat) : Nat :=
  if spec.isEip1559ActiveAtBlock (parent.number + 1) then
    spec.computeNextBaseFee parent.gasUsed parent.gasLimit parent.baseFeePerGas (parent.number + 1)
  else batchBaseFee

def PreparedBatch.buildPayload (p : PreparedBatch) (parent : ExecHeader) (closeEpoch : Option Nat)
    (baseFeePerGas : Nat) : RLPayload where
  parentHeader := parent
  beneficiary := p.beneficiary
  nonce := p.outputNonce
  batchIndex := p.batchIndex
  timestamp := p.timestamp
  batchDigest := p.batchDigest
  consensusHeaderDigest := p.outputDigest
  baseFeePerGas := baseFeePerGas
  gasLimit := p.gasLimit
  mixHash := p.outputDigest ^^^ p.batchDigest
  closeEpoch := closeEpoch
  workerId := p.workerId

/-- What the processor does not change. The addresses of a committee belong to its epoch; the
hash of the leader's signatures is a function of the output. -/
structure ProcessorConfig where
  spec : ChainSpec
  gasLimit : Nat
  authorityAddress : Nat → Nat → Option Nat
  keccakLeaderSigs : ConsensusOutput → Nat

inductive Disposition where
  | duplicate
  | parked
  | inOrder
  | overflowForced
deriving DecidableEq, Repr

/-- The outcome for one batch: its own, and the batches it makes executable. -/
structure Collected where
  disposition : Disposition
  batches : List PreparedBatch
deriving DecidableEq, Repr

structure CollectState where
  registry : ExecutedBatchRegistry
  ordering : BatchOrderingState
deriving DecidableEq

namespace CollectState

def registerAndDrain (s : CollectState) (disposition : Disposition) (p : PreparedBatch)
    (ordering : BatchOrderingState) : EngineResult (Collected × CollectState) :=
  let (new, registry) := s.registry.tryRegister p.batchDigest
  if new then do
    let (drained, ordering, registry) ← ordering.drainConsecutive p.beneficiary registry true
    return (⟨disposition, p :: drained⟩, ⟨registry, ordering⟩)
  else return (⟨.duplicate, []⟩, ⟨registry, ordering⟩)

def collectV2 (seqNormalization : Bool) (s : CollectState) (p : PreparedBatch) :
    EngineResult (Collected × CollectState) := do
  let (result, ordering) ← s.ordering.tryAccept p.beneficiary p.batch.seq p seqNormalization
  match result with
  | .parked => return (⟨.parked, []⟩, { s with ordering })
  | .inOrder q => s.registerAndDrain .inOrder q ordering
  | .overflowForced q => s.registerAndDrain .overflowForced q ordering

def collectV1 (seqNormalization : Bool) (s : CollectState) (p : PreparedBatch) :
    EngineResult (Collected × CollectState) := do
  let (new, registry) := s.registry.tryRegister p.batchDigest
  if new then
    let (result, ordering) ← s.ordering.tryAccept p.beneficiary p.batch.seq p seqNormalization
    match result with
    | .parked => return (⟨.parked, []⟩, ⟨registry, ordering⟩)
    | .inOrder q =>
      let (drained, ordering, registry) ← ordering.drainConsecutive p.beneficiary registry false
      return (⟨.inOrder, q :: drained⟩, ⟨registry, ordering⟩)
    | .overflowForced q =>
      let (drained, ordering, registry) ← ordering.drainConsecutive p.beneficiary registry false
      return (⟨.overflowForced, q :: drained⟩, ⟨registry, ordering⟩)
  else return (⟨.duplicate, []⟩, { s with registry })

def collect (batchDigestV2 seqNormalization : Bool) (s : CollectState) (p : PreparedBatch) :
    EngineResult (Collected × CollectState) :=
  if s.registry.contains p.batchDigest then .ok (⟨.duplicate, []⟩, s)
  else if batchDigestV2 then s.collectV2 seqNormalization p
  else s.collectV1 seqNormalization p

end CollectState

/-- A batch that was executed, its block, and whether its digest was released after it. -/
structure Execution where
  prepared : PreparedBatch
  block : ExecutedBlock
  validationCounts : TxValidationCounts
  released : Bool
deriving DecidableEq, Repr

def Execution.digest (x : Execution) : Nat := x.prepared.batchDigest

structure ExecState (σ : Type) where
  registry : ExecutedBatchRegistry
  head : ExecHeader
  state : σ

section
variable {σ : Type} [Evm σ]

def executePreparedBatch (cfg : ProcessorConfig) (p : PreparedBatch) (closeEpoch : Option Nat)
    (head : ExecHeader) (state : σ) : EngineResult (ExecutedBlock × TxValidationCounts × σ) :=
  buildBlockFromBatchPayload cfg.spec
    (p.buildPayload head closeEpoch (cfg.spec.resolveBaseFee head p.batch.baseFeePerGas))
    p.batch.transactions state

namespace ExecState

def execute (cfg : ProcessorConfig) (batchDigestV2 : Bool) (s : ExecState σ)
    (x : PreparedBatch × Option Nat) : EngineResult (Execution × ExecState σ) :=
  match executePreparedBatch cfg x.1 x.2 s.head s.state with
  | .error e => .error e
  | .ok (block, counts, state) =>
    if batchDigestV2 ∧ x.1.batch.transactions.length = counts.nonceTooHigh then
      let (released, registry) := s.registry.dropDigest x.1.batchDigest
      .ok (⟨x.1, block, counts, released⟩, ⟨registry, block.header, state⟩)
    else .ok (⟨x.1, block, counts, false⟩, ⟨s.registry, block.header, state⟩)

def executeParked (cfg : ProcessorConfig) (batchDigestV2 : Bool) (s : ExecState σ)
    (p : PreparedBatch) : EngineResult (Option Execution × ExecState σ) :=
  let (new, registry) :=
    if batchDigestV2 then s.registry.tryRegister p.batchDigest else (true, s.registry)
  if new then
    match executePreparedBatch cfg p none s.head s.state with
    | .error e => .error e
    | .ok (block, counts, state) =>
      .ok (some ⟨p, block, counts, false⟩, ⟨registry, block.header, state⟩)
  else .ok (none, { s with registry })

end ExecState

variable [HashFunction]

def executeEmptyBlock (cfg : ProcessorConfig) (head : ExecHeader) (o : ConsensusOutput)
    (closeEpoch : Option Nat) (state : σ) : EngineResult (ExecutedBlock × σ) :=
  match cfg.authorityAddress o.epoch o.leader.origin with
  | none => .error (.unknownAuthority o.leader.origin)
  | some beneficiary =>
    match buildBlockFromBatchPayload cfg.spec
      { parentHeader := head
        beneficiary := beneficiary
        nonce := o.nonce
        batchIndex := 0
        timestamp := o.committedAt
        batchDigest := 0
        consensusHeaderDigest := o.digest
        baseFeePerGas := cfg.spec.resolveBaseFee head minProtocolBaseFee
        gasLimit := head.gasLimit
        mixHash := o.digest
        closeEpoch := closeEpoch
        workerId := 0 } [] state with
    | .error e => .error e
    | .ok (block, _, state) => .ok (block, state)

def prepare (cfg : ProcessorConfig) (o : ConsensusOutput) (b : OutputBatch) (index : Nat) :
    PreparedBatch where
  batch := b.batch
  batchDigest := b.digest
  beneficiary := b.address
  outputDigest := o.digest
  outputNonce := o.nonce
  timestamp := o.committedAt
  epoch := o.epoch
  workerId := b.batch.workerId
  batchIndex := index
  drained := false
  gasLimit := cfg.gasLimit

def preparedBatches (cfg : ProcessorConfig) (o : ConsensusOutput) (seqNormalization : Bool) :
    List PreparedBatch :=
  (if seqNormalization then normalizeAuthoritySeqOrder o.outputBatches
    else o.outputBatches).zipIdx.map fun (b, index) => prepare cfg o b index

def lastCurrentOutputIdx (numOutputBatches : Nat) (collected : List PreparedBatch) : Option Nat :=
  if numOutputBatches = 0 then none
  else collected.findIdx? fun p => !p.drained && p.batchIndex == numOutputBatches - 1

def withCloseEpoch (closing : Option Nat) (seed : Option Nat) (collected : List PreparedBatch) :
    List (PreparedBatch × Option Nat) :=
  collected.zipIdx.map fun (p, i) => (p, if some i = closing then seed else none)

def produceEmpty (emptyOutputBlockActive batchDigestV2 closeEpoch : Bool)
    (numOutputBatches : Nat) (closing : Option Nat) (collected : List PreparedBatch)
    (drainedBlocks : Nat) : Bool :=
  if emptyOutputBlockActive then collected.isEmpty || (closeEpoch && closing.isNone)
  else if collected.isEmpty then
    numOutputBatches == 0 || (closeEpoch && (batchDigestV2 || drainedBlocks == 0))
  else closeEpoch && closing.isNone && batchDigestV2

/-- The shared services, the row of the ordering on disk and the canonical chain. -/
structure Processor (σ : Type) where
  registry : ExecutedBatchRegistry
  ordering : BatchOrderingState
  row : Option OrderingRow
  head : ExecHeader
  state : σ
  chain : ExtTreeMap Nat ExecutedBlock

/-- The outcome of one output. `drained` are the parked batches of a past epoch. -/
structure OutputResult where
  drained : List Execution
  log : List (PreparedBatch × Disposition)
  executions : List Execution
  fallback : Option ExecutedBlock

def OutputResult.blocks (r : OutputResult) : List ExecutedBlock :=
  r.drained.map Execution.block ++ r.executions.map Execution.block ++ r.fallback.toList

def extendChain (chain : ExtTreeMap Nat ExecutedBlock) (blocks : List ExecutedBlock) :
    ExtTreeMap Nat ExecutedBlock :=
  blocks.foldl (fun chain b => chain.insert b.header.number b) chain

namespace Processor

def drainAndExecuteEpochParked (cfg : ProcessorConfig) (p : Processor σ)
    (epochParked : List PreparedBatch) (batchDigestV2 seqNormalization : Bool) :
    EngineResult (List (Option Execution) × ExecState σ) :=
  if seqNormalization then .ok ([], ⟨p.registry, p.head, p.state⟩)
  else run (ExecState.executeParked cfg batchDigestV2) ⟨p.registry, p.head, p.state⟩ epochParked

def fallbackBlock (cfg : ProcessorConfig) (o : ConsensusOutput) (empty : Bool)
    (closeEpoch : Option Nat) (s : ExecState σ) :
    EngineResult (Option ExecutedBlock × ExecState σ) :=
  if empty then
    match executeEmptyBlock cfg s.head o closeEpoch s.state with
    | .error e => .error e
    | .ok (block, state) => .ok (some block, ⟨s.registry, block.header, state⟩)
  else .ok (none, s)

def closeEpochValue (cfg : ProcessorConfig) (o : ConsensusOutput) (head : ExecHeader) : Option Nat :=
  if o.closeEpoch then
    some (if cfg.spec.isEpochCloseSeedV2ActiveAtBlock (head.number + 1) then o.digest
      else cfg.keccakLeaderSigs o)
  else none

def executeConsensusOutput (cfg : ProcessorConfig) (p : Processor σ) (o : ConsensusOutput) :
    EngineResult (OutputResult × Processor σ) := do
  let batchDigestV2 := cfg.spec.isBatchDigestV2ActiveAtBlock (p.head.number + 1)
  let seqNormalization := cfg.spec.isOutputSeqNormalizationActiveAtBlock (p.head.number + 1)
  let epochDrain := p.ordering.drainEpoch o.epoch
  let (drained, s) ← p.drainAndExecuteEpochParked cfg epochDrain.1 batchDigestV2 seqNormalization
  let numOutputBatches := o.flattenBatches.length
  if numOutputBatches ≠ o.batchDigests.length then .error .unevenBatches
  else
    let batches := preparedBatches cfg o seqNormalization
    let (outcomes, c) ← run (CollectState.collect batchDigestV2 seqNormalization)
      ⟨s.registry, epochDrain.2⟩ batches
    let collected := outcomes.flatMap Collected.batches
    let seed := closeEpochValue cfg o s.head
    let closing := lastCurrentOutputIdx numOutputBatches collected
    let (executions, s) ← run (ExecState.execute cfg batchDigestV2)
      { s with registry := c.registry } (withCloseEpoch closing seed collected)
    let emptyActive := cfg.spec.isEmptyOutputBlockActiveAtBlock (s.head.number + 1)
    let empty := produceEmpty emptyActive batchDigestV2 o.closeEpoch numOutputBatches closing
      collected (drained.reduceOption).length
    let (fallback, s) ← fallbackBlock cfg o empty seed s
    let result : OutputResult :=
      { drained := drained.reduceOption
        log := batches.zip (outcomes.map Collected.disposition)
        executions, fallback }
    if emptyActive ∧ result.blocks.isEmpty then .error .noBlocks
    else
      return (result,
        { registry := s.registry
          ordering := c.ordering
          row := some (writeBatchOrderingState c.ordering)
          head := s.head
          state := s.state
          chain := extendChain p.chain result.blocks })

structure Phases (cfg : ProcessorConfig) (p : Processor σ) (o : ConsensusOutput) where
  drained : List (Option Execution)
  afterDrain : ExecState σ
  outcomes : List Collected
  afterCollect : CollectState
  executions : List Execution
  afterExecute : ExecState σ
  fallback : Option ExecutedBlock
  afterFallback : ExecState σ

namespace Phases

variable {cfg : ProcessorConfig} {p : Processor σ} {o : ConsensusOutput}

def collected (φ : Phases cfg p o) : List PreparedBatch := φ.outcomes.flatMap Collected.batches

def closing (φ : Phases cfg p o) : Option Nat :=
  lastCurrentOutputIdx o.flattenBatches.length φ.collected

def seed (φ : Phases cfg p o) : Option Nat := closeEpochValue cfg o φ.afterDrain.head

def batchDigestV2 (_ : Phases cfg p o) : Bool :=
  cfg.spec.isBatchDigestV2ActiveAtBlock (p.head.number + 1)

def seqNormalization (_ : Phases cfg p o) : Bool :=
  cfg.spec.isOutputSeqNormalizationActiveAtBlock (p.head.number + 1)

def empty (φ : Phases cfg p o) : Bool :=
  produceEmpty (cfg.spec.isEmptyOutputBlockActiveAtBlock (φ.afterExecute.head.number + 1))
    φ.batchDigestV2 o.closeEpoch o.flattenBatches.length φ.closing φ.collected
    (φ.drained.reduceOption).length

def result (φ : Phases cfg p o) : OutputResult where
  drained := φ.drained.reduceOption
  log := (preparedBatches cfg o φ.seqNormalization).zip (φ.outcomes.map Collected.disposition)
  executions := φ.executions
  fallback := φ.fallback

def after (φ : Phases cfg p o) : Processor σ where
  registry := φ.afterFallback.registry
  ordering := φ.afterCollect.ordering
  row := some (writeBatchOrderingState φ.afterCollect.ordering)
  head := φ.afterFallback.head
  state := φ.afterFallback.state
  chain := extendChain p.chain φ.result.blocks

structure Valid (φ : Phases cfg p o) : Prop where
  drain : p.drainAndExecuteEpochParked cfg (p.ordering.drainEpoch o.epoch).1 φ.batchDigestV2
    φ.seqNormalization = .ok (φ.drained, φ.afterDrain)
  even : o.flattenBatches.length = o.batchDigests.length
  collect : run (CollectState.collect φ.batchDigestV2 φ.seqNormalization)
    ⟨φ.afterDrain.registry, (p.ordering.drainEpoch o.epoch).2⟩
    (preparedBatches cfg o φ.seqNormalization) = .ok (φ.outcomes, φ.afterCollect)
  execute : run (ExecState.execute cfg φ.batchDigestV2)
    { φ.afterDrain with registry := φ.afterCollect.registry }
    (withCloseEpoch φ.closing φ.seed φ.collected) = .ok (φ.executions, φ.afterExecute)
  fallbackBlock : fallbackBlock cfg o φ.empty φ.seed φ.afterExecute =
    .ok (φ.fallback, φ.afterFallback)

end Phases

theorem phases_of_executeConsensusOutput {cfg : ProcessorConfig} {p p' : Processor σ}
    {o : ConsensusOutput} {r : OutputResult} (h : p.executeConsensusOutput cfg o = .ok (r, p')) :
    ∃ φ : Phases cfg p o, φ.Valid ∧ r = φ.result ∧ p' = φ.after := by
  obtain ⟨⟨drained, s⟩, hdrain, h⟩ := Fallible.bind_eq_ok.mp h
  dsimp only at h
  by_cases heven : o.flattenBatches.length ≠ o.batchDigests.length
  · rw [if_pos heven] at h
    cases h
  · rw [if_neg heven] at h
    obtain ⟨⟨outs, c⟩, hcoll, h⟩ := Fallible.bind_eq_ok.mp h
    obtain ⟨⟨executions, s'⟩, hexec, h⟩ := Fallible.bind_eq_ok.mp h
    obtain ⟨⟨fallback, s''⟩, hfb, h⟩ := Fallible.bind_eq_ok.mp h
    refine ⟨⟨drained, s, outs, c, executions, s', fallback, s''⟩,
      ⟨hdrain, not_not.mp heven, hcoll, hexec, hfb⟩, ?_⟩
    split at h
    · cases h
    · cases h
      exact ⟨rfl, rfl⟩

def run (cfg : ProcessorConfig) : Processor σ → List ConsensusOutput →
    EngineResult (List OutputResult × Processor σ) :=
  Machine.run (executeConsensusOutput cfg)

end Processor

end

section
variable {σ : Type} {fallback : Option ExecutedBlock} {o : ConsensusOutput} {seed : Option Nat}
  {s' s : ExecState σ}

theorem mem_preparedBatches [HashFunction] {cfg : ProcessorConfig} {n : Bool}
    {x : PreparedBatch} (h : x ∈ preparedBatches cfg o n) :
    ∃ b ∈ o.outputBatches, ∃ index, x = prepare cfg o b index := by
  obtain ⟨⟨b, index⟩, hb, rfl⟩ := mem_map.mp h
  refine ⟨b, ?_, index, rfl⟩
  have hmem := fst_mem_of_mem_zipIdx hb
  split at hmem
  · exact (normalizeAuthoritySeqOrder_perm _).mem_iff.mp hmem
  · exact hmem

theorem exists_mem_preparedBatches [HashFunction] (cfg : ProcessorConfig)
    (n : Bool) {b : OutputBatch} (h : b ∈ o.outputBatches) :
    ∃ idx, prepare cfg o b idx ∈ preparedBatches cfg o n := by
  have hmem : b ∈ if n then normalizeAuthoritySeqOrder o.outputBatches else o.outputBatches := by
    split
    · exact (normalizeAuthoritySeqOrder_perm _).mem_iff.mpr h
    · exact h
  rw [← zipIdx_map_fst 0 (if n then _ else _)] at hmem
  obtain ⟨⟨b', idx⟩, hb, rfl⟩ := mem_map.mp hmem
  exact ⟨idx, mem_map.mpr ⟨(b', idx), hb, rfl⟩⟩

theorem map_fst_withCloseEpoch (closing seed : Option Nat) (collected : List PreparedBatch) :
    (withCloseEpoch closing seed collected).map Prod.fst = collected := by
  rw [withCloseEpoch, map_map]
  exact zipIdx_map_fst 0 collected

def ExecHeader.genesis : ExecHeader := ⟨0, 0, 0, 0, 0, 7, 30000000, 0, 0, none, 0, 0, 0⟩

def Processor.genesis (state : σ) : Processor σ where
  registry := .default
  ordering := .default
  row := none
  head := .genesis
  state := state
  chain := ∅

variable [Evm σ] [HashFunction] {cfg : ProcessorConfig} {p : Processor σ} {o : ConsensusOutput}

/-- The payload of the block that stands for an output without batches. -/
structure EmptyPayload (o : ConsensusOutput) (seed : Option Nat) (head : ExecHeader)
    (payload : RLPayload) : Prop where
  parentHeader : payload.parentHeader = head
  closeEpoch : payload.closeEpoch = seed
  timestamp : payload.timestamp = o.committedAt
  nonce : payload.nonce = o.nonce
  consensusHeaderDigest : payload.consensusHeaderDigest = o.digest
  mixHash : payload.mixHash = o.digest

inductive Fallback (cfg : ProcessorConfig) (o : ConsensusOutput) (seed : Option Nat)
    (s : ExecState σ) : Bool → Option ExecutedBlock → ExecState σ → Prop
  | skip : Fallback cfg o seed s false none s
  | block {payload : RLPayload} (h : EmptyPayload o seed s.head payload) (gas : Nat)
      (txs : List Nat) (state : σ) :
    Fallback cfg o seed s true (some (cfg.spec.assembleBlock payload gas txs))
      ⟨s.registry, (cfg.spec.assembleBlock payload gas txs).header, state⟩

theorem Processor.fallbackBlock_spec (cfg : ProcessorConfig) (o : ConsensusOutput) (empty : Bool)
    (seed : Option Nat) (s : ExecState σ) :
    Fallible.Spec (fun r => Fallback cfg o seed s empty r.1 r.2)
      (fun e => e = .unknownAuthority o.leader.origin ∨ e = .reth)
      (fallbackBlock cfg o empty seed s) := by
  unfold fallbackBlock executeEmptyBlock
  cases empty with
  | false => exact .skip
  | true =>
    cases cfg.authorityAddress o.epoch o.leader.origin with
    | none => exact .inl rfl
    | some beneficiary =>
      dsimp only
      generalize hbui : buildBlockFromBatchPayload cfg.spec _ _ s.state = built
      cases built with
      | error e => exact .inr (buildBlockFromBatchPayload_eq_error hbui)
      | ok r =>
        obtain ⟨⟨gas, txs, hblk⟩, -⟩ := buildBlockFromBatchPayload_spec hbui
        dsimp only
        rw [hblk]
        refine .block ?_ gas txs _
        exact ⟨rfl, rfl, rfl, rfl, rfl, rfl⟩

theorem Processor.fallback_of_ok {empty : Bool}
    (h : Processor.fallbackBlock cfg o empty seed s = .ok (fallback, s')) :
    Fallback cfg o seed s empty fallback s' :=
  (fallbackBlock_spec cfg o empty seed s).ok h

omit [Evm σ] in
theorem Fallback.registry {empty : Bool} (h : Fallback cfg o seed s empty fallback s') :
    s'.registry = s.registry := by
  cases h <;> rfl

namespace Processor.Phases

variable {φ : Phases cfg p o}

section
variable (hspec : cfg.spec.AllActive)
include hspec

omit [Evm σ] [HashFunction] in
theorem batchDigestV2_of_allActive : φ.batchDigestV2 = true :=
  hspec.batchDigestV2 _

omit [Evm σ] [HashFunction] in
theorem seqNormalization_of_allActive : φ.seqNormalization = true :=
  hspec.outputSeqNormalization _

theorem Valid.drained_eq (h : φ.Valid) :
    φ.drained = [] ∧ φ.afterDrain = ⟨p.registry, p.head, p.state⟩ := by
  have := h.drain
  rw [seqNormalization_of_allActive hspec] at this
  obtain ⟨h₁, h₂⟩ := Prod.mk.inj (Except.ok.inj this)
  exact ⟨h₁.symm, h₂.symm⟩

theorem Valid.collect_of_allActive (h : φ.Valid) :
    Machine.run (CollectState.collect true true)
      ⟨p.registry, (p.ordering.drainEpoch o.epoch).2⟩ (preparedBatches cfg o true) =
        .ok (φ.outcomes, φ.afterCollect) := by
  have hcoll := h.collect
  rwa [(h.drained_eq hspec).2, batchDigestV2_of_allActive hspec,
    seqNormalization_of_allActive hspec] at hcoll

theorem Valid.execute_of_allActive (h : φ.Valid) :
    Machine.run (ExecState.execute cfg true) ⟨φ.afterCollect.registry, p.head, p.state⟩
      (withCloseEpoch φ.closing φ.seed φ.collected) = .ok (φ.executions, φ.afterExecute) := by
  have hexec := h.execute
  rwa [(h.drained_eq hspec).2, batchDigestV2_of_allActive hspec] at hexec

theorem Valid.result_drained (h : φ.Valid) : φ.result.drained = [] := by
  change φ.drained.reduceOption = []
  rw [(h.drained_eq hspec).1, reduceOption_nil]

end

end Processor.Phases

end

def ProcessorConfig.allActive : ProcessorConfig where
  spec := .allActive
  gasLimit := 30000000
  authorityAddress _ authority := some authority
  keccakLeaderSigs _ := 0

def numbered (seq digest : Nat) : Batch × Nat := (⟨[100 * digest], 1, 1, 7, 0, seq⟩, digest)

def Batches.ofPairs (pairs : List (Batch × Nat)) : Batches := .ofList (pairs.map Prod.swap)

def ConsensusOutput.ofBatches (epoch round : Nat) (batches : List (Batch × Nat)) :
    ConsensusOutput :=
  let leader : Certificate :=
    ⟨⟨1, round, epoch, round, batches.map fun b => (b.2, 0), [], round⟩⟩
  { subDag := .new [leader] leader .default none
    batches := [⟨1, batches.map Prod.fst⟩]
    batchDigests := batches.map Prod.snd
    parentHash := 0
    number := round
    closeEpoch := false }

abbrev Processor.initial : Processor Nonces := .genesis ∅

def Processor.verdicts [HashFunction] (p : Processor Nonces) (o : ConsensusOutput) :
    Option (List Disposition × List Nat) :=
  (p.executeConsensusOutput .allActive o).toOption.map fun r =>
    (r.1.log.map Prod.snd, r.1.executions.map Execution.digest)

end Axyl
