import Axyl.Processor.Ordering

/-! The execution environment. The virtual machine is a parameter; the loop over the
transactions of a batch, the counts of what it rejects and the block header are the source's. -/

namespace Axyl

/-- The state root and the receipts, which no modelled function reads, are left out, and so is
the parent hash. The transactions stand in the block. -/
structure ExecHeader where
  number : Nat
  beneficiary : Nat
  timestamp : Nat
  mixHash : Nat
  nonce : Nat
  baseFeePerGas : Nat
  gasLimit : Nat
  gasUsed : Nat
  difficulty : Nat
  extraData : Option Nat
  parentBeaconBlockRoot : Nat
  ommersHash : Nat
  requestsHash : Nat
deriving DecidableEq, Repr

structure RLPayload where
  parentHeader : ExecHeader
  beneficiary : Nat
  nonce : Nat
  batchIndex : Nat
  timestamp : Nat
  batchDigest : Nat
  consensusHeaderDigest : Nat
  baseFeePerGas : Nat
  gasLimit : Nat
  mixHash : Nat
  closeEpoch : Option Nat
  workerId : Nat
deriving DecidableEq, Repr

structure ExecutedBlock where
  header : ExecHeader
  transactions : List Nat
deriving DecidableEq, Repr

def ExecutedBlock.transactionRootIsEmpty (b : ExecutedBlock) : Bool := b.transactions.isEmpty

/-- Transactions dropped in a block. What the counts keep for logging is left out. -/
structure TxValidationCounts where
  nonceTooHigh : Nat
  nonceTooLow : Nat
  other : Nat
deriving DecidableEq, Repr

def TxValidationCounts.default : TxValidationCounts := ⟨0, 0, 0⟩

def TxValidationCounts.total (c : TxValidationCounts) : Nat := c.nonceTooHigh + c.nonceTooLow + c.other

inductive TxError where
  | nonceTooLow
  | nonceTooHigh
  | invalid
  | fatal
deriving DecidableEq, Repr

structure RecoveredTx where
  signer : Nat
  nonce : Nat
deriving DecidableEq, Repr

/-- The virtual machine over states `σ`. `executeTransaction` gets the gas the block has used
so far and returns the gas of the transaction. Setting up the block is a part of
`applyPreExecutionChanges`, closing the epoch and the roots are parts of `finish`. -/
class Evm (σ : Type) where
  recoverRawTransaction : Nat → Option RecoveredTx
  accountNonce : σ → Nat → Option Nat
  applyPreExecutionChanges : RLPayload → σ → Option σ
  executeTransaction : RLPayload → Nat → σ → Nat → Except TxError (Nat × σ)
  finish : RLPayload → Nat → σ → Option σ

structure ChainSpec where
  isBatchDigestV2ActiveAtBlock : Nat → Bool
  isEmptyOutputBlockActiveAtBlock : Nat → Bool
  isOutputSeqNormalizationActiveAtBlock : Nat → Bool
  isEpochCloseSeedV2ActiveAtBlock : Nat → Bool
  isEip1559ActiveAtBlock : Nat → Bool
  computeNextBaseFee : Nat → Nat → Nat → Nat → Nat

structure ChainSpec.AllActive (spec : ChainSpec) : Prop where
  batchDigestV2 : ∀ n, spec.isBatchDigestV2ActiveAtBlock n
  emptyOutputBlock : ∀ n, spec.isEmptyOutputBlockActiveAtBlock n
  outputSeqNormalization : ∀ n, spec.isOutputSeqNormalizationActiveAtBlock n
  epochCloseSeedV2 : ∀ n, spec.isEpochCloseSeedV2ActiveAtBlock n
  eip1559 : ∀ n, spec.isEip1559ActiveAtBlock n

def emptyOmmerRootHash : Nat := 0x1dcc4de8dec75d7aab85b567b6ccd41ad312451b948a7413f0a142fd40d49347

def emptyRequestsHash : Nat := 0xe3b0c44298fc1c149afbf4c8996fb92427ae41e4649b934ca495991b7852b855

/-- The batch digest stands in the requests hash since the second version of the digests and
in the ommers hash before it. -/
def ChainSpec.resolveBatchDigestFields (spec : ChainSpec) (nextBlock batchDigest : Nat) :
    Nat × Nat :=
  if spec.isBatchDigestV2ActiveAtBlock nextBlock then (emptyOmmerRootHash, batchDigest)
  else (batchDigest, emptyRequestsHash)

def ChainSpec.assembleBlock (spec : ChainSpec) (payload : RLPayload) (gasUsed : Nat)
    (transactions : List Nat) : ExecutedBlock where
  header :=
    { number := payload.parentHeader.number + 1
      beneficiary := payload.beneficiary
      timestamp := payload.timestamp
      mixHash := payload.mixHash
      nonce := payload.nonce
      baseFeePerGas := payload.baseFeePerGas
      gasLimit := payload.gasLimit
      gasUsed := gasUsed
      difficulty := (payload.batchIndex <<< 16) ||| payload.workerId
      extraData := payload.closeEpoch
      parentBeaconBlockRoot := payload.consensusHeaderDigest
      ommersHash := (spec.resolveBatchDigestFields (payload.parentHeader.number + 1)
        payload.batchDigest).1
      requestsHash := (spec.resolveBatchDigestFields (payload.parentHeader.number + 1)
        payload.batchDigest).2 }
  transactions := transactions

section
variable {σ : Type} [Evm σ]

structure BlockBuilder (σ : Type) where
  gasUsed : Nat
  state : σ
  committedTxs : List Nat
  validationCounts : TxValidationCounts

namespace BlockBuilder

def countNonceTooHigh (b : BlockBuilder σ) : BlockBuilder σ :=
  { b with validationCounts.nonceTooHigh := b.validationCounts.nonceTooHigh + 1 }

def countNonceTooLow (b : BlockBuilder σ) : BlockBuilder σ :=
  { b with validationCounts.nonceTooLow := b.validationCounts.nonceTooLow + 1 }

def countOther (b : BlockBuilder σ) : BlockBuilder σ :=
  { b with validationCounts.other := b.validationCounts.other + 1 }

def addTransaction (payload : RLPayload) (b : BlockBuilder σ) (tx : Nat) :
    EngineResult (BlockBuilder σ) :=
  match Evm.recoverRawTransaction σ tx with
  | none => .ok b.countOther
  | some _ =>
    match Evm.executeTransaction payload b.gasUsed b.state tx with
    | .error .nonceTooLow => .ok b.countNonceTooLow
    | .error .nonceTooHigh => .ok b.countNonceTooHigh
    | .error .invalid => .ok b.countOther
    | .error .fatal => .error .reth
    | .ok (gas, state) =>
      .ok { b with gasUsed := b.gasUsed + gas, state, committedTxs := b.committedTxs ++ [tx] }

def addTransactions (payload : RLPayload) : BlockBuilder σ → List Nat →
    EngineResult (BlockBuilder σ)
  | b, [] => .ok b
  | b, tx :: txs =>
    match b.addTransaction payload tx with
    | .error e => .error e
    | .ok b => addTransactions payload b txs

end BlockBuilder

def buildBlockFromBatchPayload (spec : ChainSpec) (payload : RLPayload) (transactions : List Nat)
    (state : σ) : EngineResult (ExecutedBlock × TxValidationCounts × σ) :=
  match Evm.applyPreExecutionChanges payload state with
  | none => .error .reth
  | some state =>
    match BlockBuilder.addTransactions payload ⟨0, state, [], .default⟩ transactions with
    | .error e => .error e
    | .ok b =>
      match Evm.finish payload b.gasUsed b.state with
      | none => .error .reth
      | some state =>
        .ok (spec.assembleBlock payload b.gasUsed b.committedTxs, b.validationCounts, state)

/-- Every transaction can be recovered and none is behind its account, which has nonce zero
when it does not exist. An empty list is not pending. -/
def batchTxnsAllPending (state : σ) (transactions : List Nat) : Bool :=
  !transactions.isEmpty && transactions.all fun tx =>
    match Evm.recoverRawTransaction σ tx with
    | none => false
    | some recovered => (Evm.accountNonce state recovered.signer).getD 0 ≤ recovered.nonce

namespace BlockBuilder

variable {pay : RLPayload} {b b' : BlockBuilder σ}

theorem addTransaction_spec {tx : Nat} (h : b.addTransaction pay tx = .ok b') :
    b'.committedTxs.length + b'.validationCounts.total =
        b.committedTxs.length + b.validationCounts.total + 1 := by
  unfold addTransaction at h
  split at h
  · cases h
    simp only [countOther, TxValidationCounts.total]
    omega
  · split at h <;> cases h <;>
      simp only [countNonceTooLow, countNonceTooHigh, countOther, TxValidationCounts.total,
        List.length_append, List.length_singleton] <;>
      omega

theorem addTransactions_spec {txs : List Nat} (h : b.addTransactions pay txs = .ok b') :
    b'.committedTxs.length + b'.validationCounts.total =
      b.committedTxs.length + b.validationCounts.total + txs.length := by
  induction txs generalizing b with
  | nil =>
    cases h
    rfl
  | cons tx txs ih =>
    rw [addTransactions] at h
    split at h
    · cases h
    · rename_i b₁ hb₁
      rw [ih h, addTransaction_spec hb₁, List.length_cons]
      omega

theorem addTransactions_eq_error {txs : List Nat} {e : EngineError}
    (h : b.addTransactions pay txs = .error e) : e = .reth := by
  induction txs generalizing b with
  | nil => cases h
  | cons tx txs ih =>
    rw [addTransactions] at h
    split at h
    · rename_i hadd
      cases h
      unfold addTransaction at hadd
      split at hadd
      · cases hadd
      · split at hadd <;> cases hadd
        rfl
    · exact ih h

end BlockBuilder

variable {spec : ChainSpec} {pay : RLPayload} {txs : List Nat} {state state' : σ}
  {block : ExecutedBlock} {counts : TxValidationCounts}

theorem buildBlockFromBatchPayload_spec
    (h : buildBlockFromBatchPayload spec pay txs state = .ok (block, counts, state')) :
    (∃ gasUsed comm, block = spec.assembleBlock pay gasUsed comm) ∧
      block.transactions.length + counts.total = txs.length := by
  unfold buildBlockFromBatchPayload at h
  split at h
  · cases h
  · split at h
    · cases h
    · rename_i b hb
      split at h
      · cases h
      · cases h
        have := BlockBuilder.addTransactions_spec hb
        simpa [ChainSpec.assembleBlock, TxValidationCounts.default, TxValidationCounts.total]
          using this

theorem buildBlockFromBatchPayload_eq_error {e : EngineError}
    (h : buildBlockFromBatchPayload spec pay txs state = .error e) : e = .reth := by
  unfold buildBlockFromBatchPayload at h
  split at h
  · exact (Except.error.inj h).symm
  · split at h
    · rename_i hadd
      exact Except.error.inj h ▸ BlockBuilder.addTransactions_eq_error hadd
    · split at h
      · exact (Except.error.inj h).symm
      · cases h

end

/-- A machine that keeps the nonces of the accounts and nothing else. The transaction with
nonce `n` of account `a` is `100 * a + n`, and account nine cannot pay for its own. -/
abbrev Nonces := Std.ExtTreeMap Nat Nat

instance : Evm Nonces where
  recoverRawTransaction tx := some ⟨tx / 100, tx % 100⟩
  accountNonce nonces signer := nonces[signer]?
  applyPreExecutionChanges _ nonces := some nonces
  executeTransaction _ _ nonces tx :=
    let nonce := nonces[tx / 100]?.getD 0
    if tx % 100 < nonce then .error .nonceTooLow
    else if nonce < tx % 100 then .error .nonceTooHigh
    else if tx / 100 = 9 then .error .invalid
    else .ok (21000, nonces.insert (tx / 100) (nonce + 1))
  finish _ _ nonces := some nonces

def ChainSpec.allActive : ChainSpec where
  isBatchDigestV2ActiveAtBlock _ := true
  isEmptyOutputBlockActiveAtBlock _ := true
  isOutputSeqNormalizationActiveAtBlock _ := true
  isEpochCloseSeedV2ActiveAtBlock _ := true
  isEip1559ActiveAtBlock _ := true
  computeNextBaseFee _ _ fee _ := fee

theorem ChainSpec.allActive_spec : ChainSpec.allActive.AllActive :=
  ⟨fun _ => rfl, fun _ => rfl, fun _ => rfl, fun _ => rfl, fun _ => rfl⟩

end Axyl
