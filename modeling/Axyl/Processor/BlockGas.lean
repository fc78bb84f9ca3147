import Axyl.Processor.Evm
import Axyl.Worker.BuildBatch

/-! The gas of a block: the executor refuses a transaction whose gas limit is more than the block has
left, which is fatal for the block. It refuses none of a batch that a validator has accepted. -/

namespace Axyl
open BatchValidator TransactionCodec

/-- The virtual machine below the block executor. `transact` returns the gas that a transaction has
used. -/
class Revm (σ : Type) where
  accountNonce : σ → Nat → Option Nat
  applyPreExecutionChanges : RLPayload → σ → Option σ
  transact : RLPayload → σ → TransactionSigned → Except TxError (Nat × σ)
  finish : RLPayload → Nat → σ → Option σ

inductive BlockExecutionError where
  | transactionGasLimitMoreThanAvailableBlockGas (transactionGasLimit blockAvailableGas : Nat)
  | gasUnderflow
  | evm (e : TxError)
deriving DecidableEq, Repr

namespace BlockExecutor

section
variable {σ : Type} [Revm σ]

def executeTransaction (payload : RLPayload) (gasUsed : Nat) (state : σ) (tx : TransactionSigned) :
    Except BlockExecutionError (Nat × σ) :=
  if payload.gasLimit < gasUsed then .error .gasUnderflow
  else
    let blockAvailableGas := payload.gasLimit - gasUsed
    if blockAvailableGas < tx.gasLimit then
      .error (.transactionGasLimitMoreThanAvailableBlockGas tx.gasLimit blockAvailableGas)
    else (Revm.transact payload state tx).mapError .evm

variable [TransactionCodec]

abbrev evm (σ : Type) [Revm σ] : Evm σ where
  recoverRawTransaction tx :=
    (recoverSignedTransaction tx).toOption.map fun signed =>
      ⟨signed.signer, signed.nonce⟩
  accountNonce := Revm.accountNonce
  applyPreExecutionChanges := Revm.applyPreExecutionChanges
  executeTransaction payload gasUsed state tx :=
    match recoverSignedTransaction tx with
    | .error _ => .error .invalid
    | .ok signed =>
      match executeTransaction payload gasUsed state signed with
      | .ok result => .ok result
      | .error (.evm e) => .error e
      | .error _ => .error .fatal
  finish := Revm.finish

def GasBounded (σ : Type) [Revm σ] : Prop :=
  ∀ (payload : RLPayload) (state : σ) (tx : TransactionSigned) gas state',
    Revm.transact payload state tx = .ok (gas, state') → gas ≤ tx.gasLimit

def NeverFatal (σ : Type) [Revm σ] : Prop :=
  ∀ (payload : RLPayload) (state : σ) (tx : TransactionSigned),
    Revm.transact payload state tx ≠ .error .fatal

omit [TransactionCodec] in
theorem executeTransaction_of_le {payload : RLPayload} {gasUsed : Nat} (st : σ)
    {tx : TransactionSigned} (h : gasUsed + tx.gasLimit ≤ payload.gasLimit) :
    executeTransaction payload gasUsed st tx = (Revm.transact payload st tx).mapError .evm := by
  rw [executeTransaction, if_neg (by omega)]
  exact if_neg (by omega)

def addTransaction (payload : RLPayload) (b : BlockBuilder σ) (tx : Nat) :
    EngineResult (BlockBuilder σ) :=
  letI := evm σ
  b.addTransaction payload tx

def addTransactions (payload : RLPayload) (b : BlockBuilder σ) (txs : List Nat) :
    EngineResult (BlockBuilder σ) :=
  letI := evm σ
  b.addTransactions payload txs

def start (state : σ) : BlockBuilder σ := ⟨0, state, [], .default⟩

def record (b : BlockBuilder σ) (tx : Nat) :
    Except BlockExecutionError (Nat × σ) → EngineResult (BlockBuilder σ)
  | .error (.evm .nonceTooLow) => .ok b.countNonceTooLow
  | .error (.evm .nonceTooHigh) => .ok b.countNonceTooHigh
  | .error (.evm .invalid) => .ok b.countOther
  | .error _ => .error .reth
  | .ok (gas, state) =>
    .ok { b with gasUsed := b.gasUsed + gas, state, committedTxs := b.committedTxs ++ [tx] }

variable {payload : RLPayload} {b b' : BlockBuilder σ} {tx : Nat} {signed : TransactionSigned}

theorem addTransactions_cons (txs : List Nat) : addTransactions payload b (tx :: txs) =
    (addTransaction payload b tx >>= fun b => addTransactions payload b txs) := by
  let _ := evm σ
  unfold addTransactions addTransaction
  rw [BlockBuilder.addTransactions]
  split
  · next heq => rw [heq]; rfl
  · next heq => rw [heq]; rfl

theorem addTransaction_eq (hsig : recoverSignedTransaction tx = .ok signed) :
    addTransaction payload b tx =
      record b tx (executeTransaction payload b.gasUsed b.state signed) := by
  have hrcr : @Evm.recoverRawTransaction σ (evm σ) tx = some ⟨signed.signer, signed.nonce⟩ := by
    change (recoverSignedTransaction tx).toOption.map _ = _
    rw [hsig]
    rfl
  unfold addTransaction BlockBuilder.addTransaction
  rw [hrcr]
  dsimp only [Evm.executeTransaction]
  rw [hsig]
  dsimp only
  cases executeTransaction payload b.gasUsed b.state signed with
  | ok res => rfl
  | error e =>
    cases e with
    | evm e => cases e <;> rfl
    | transactionGasLimitMoreThanAvailableBlockGas limit available => rfl
    | gasUnderflow => rfl

theorem gasUsed_addTransaction (hgas : GasBounded σ)
    (hsig : recoverSignedTransaction tx = .ok signed) (h : addTransaction payload b tx = .ok b') :
    b'.gasUsed ≤ b.gasUsed + signed.gasLimit := by
  rw [addTransaction_eq hsig] at h
  unfold record at h
  split at h
  · cases h
    exact Nat.le_add_right _ _
  · cases h
    exact Nat.le_add_right _ _
  · cases h
    exact Nat.le_add_right _ _
  · cases h
  · next gas st hexec =>
    cases h
    refine Nat.add_le_add_left ?_ _
    unfold executeTransaction at hexec
    split at hexec
    · cases hexec
    · dsimp only at hexec
      split at hexec
      · cases hexec
      · cases htx : Revm.transact payload b.state signed with
        | error e =>
          rw [htx] at hexec
          cases hexec
        | ok res =>
          rw [htx] at hexec
          cases hexec
          exact hgas payload b.state signed gas st htx

variable {decoded : List TransactionSigned}

theorem gasUsed_addTransactions (hgas : GasBounded σ) {txs : List Nat}
    (hdec : BatchValidator.Decodes txs decoded) (h : addTransactions payload b txs = .ok b') :
    b'.gasUsed ≤ b.gasUsed + gasOf decoded := by
  induction hdec generalizing b with
  | nil =>
    cases h
    omega
  | @cons tx signed txs decoded hsig _ ih =>
    rw [addTransactions_cons] at h
    obtain ⟨b₁, hb₁, h⟩ := Fallible.bind_eq_ok.mp h
    have hfst := gasUsed_addTransaction hgas hsig hb₁
    have hrest := ih h
    have hsum : gasOf (signed :: decoded) =
        signed.gasLimit + gasOf decoded := by
      simp [gasOf]
    omega

theorem addTransactions_eq_ok (hgas : GasBounded σ) (hfat : NeverFatal σ) {txs : List Nat}
    (hdec : BatchValidator.Decodes txs decoded)
    (hle : b.gasUsed + gasOf decoded ≤ payload.gasLimit) :
    ∃ b' comm, addTransactions payload b txs = .ok b' ∧
      b'.committedTxs = b.committedTxs ++ comm ∧ comm.Sublist txs := by
  induction hdec generalizing b with
  | nil => exact ⟨b, [], rfl, (List.append_nil _).symm, .slnil⟩
  | @cons tx signed txs decoded hsig _ ih =>
    have hsum : gasOf (signed :: decoded) =
        signed.gasLimit + gasOf decoded := by
      simp [gasOf]
    have hturn : ∃ b₁ comm, addTransaction payload b tx = .ok b₁ ∧
        b₁.committedTxs = b.committedTxs ++ comm ∧ comm.Sublist [tx] := by
      rw [addTransaction_eq hsig, executeTransaction_of_le b.state (by omega)]
      cases htx : Revm.transact payload b.state signed with
      | ok res => exact ⟨_, [tx], rfl, rfl, .refl _⟩
      | error e =>
        cases e with
        | fatal => exact absurd htx (hfat payload b.state signed)
        | nonceTooLow | nonceTooHigh | invalid =>
          exact ⟨_, [], rfl, (List.append_nil _).symm, List.nil_sublist _⟩
    obtain ⟨b₁, first, hb₁, hfst, hsub₁⟩ := hturn
    have hused := gasUsed_addTransaction hgas hsig hb₁
    obtain ⟨b', rest, hb', hrest, hsub⟩ := ih (b := b₁) (by omega)
    refine ⟨b', first ++ rest, ?_, ?_, hsub₁.append hsub⟩
    · rw [addTransactions_cons]
      exact Fallible.bind_eq_ok.mpr ⟨b₁, hb₁, hb'⟩
    · rw [hrest, hfst, List.append_assoc]

variable [HashFunction]

/-- A batch that a validator accepts under its gas limit never runs out of the gas of a block with at
least that limit: the check of the executor refuses no transaction, and when nothing else goes wrong
every transaction is included or skipped. -/
theorem validated_batch_fits (hhash : Function.Injective HashFunction.hash) (hgas : GasBounded σ)
    {workerId epoch gasLimit : Nat} {calls : List (ValidationEnv × SealedBatch)}
    {env : ValidationEnv} {sealed : SealedBatch}
    (haccepts : (((new workerId epoch gasLimit).after calls).validateBatch env sealed).1 = .ok ())
    {payload : RLPayload} (hlimit : gasLimit ≤ payload.gasLimit) (state : σ) :
    (∀ before tx after b signed, sealed.batch.transactions = before ++ tx :: after →
      addTransactions payload (start state) before = .ok b →
      recoverSignedTransaction tx = .ok signed →
      executeTransaction payload b.gasUsed b.state signed =
        (Revm.transact payload b.state signed).mapError .evm) ∧
    (NeverFatal σ → ∃ b, addTransactions payload (start state) sealed.batch.transactions = .ok b ∧
      b.committedTxs.Sublist sealed.batch.transactions ∧
      b.committedTxs.length + b.validationCounts.total = sealed.batch.transactions.length) := by
  obtain ⟨hvouches, hsame⟩ := (vouches_new workerId epoch gasLimit).after calls
  obtain ⟨env', decoded, hpasses⟩ := hvouches.passes_of_accepted hhash haccepts
  have hfits : gasOf decoded ≤ payload.gasLimit := by
    have hle := hpasses.gas.2
    rw [hsame] at hle
    exact le_trans hle hlimit
  constructor
  · intro before tx after b signed hsplit hb hsigned
    have hdecodes := hpasses.decodes
    rw [hsplit] at hdecodes
    obtain ⟨first, rest, rfl, hfirst, hrest⟩ := decodes_append hdecodes
    obtain ⟨signed', rest, hsigned', -, rfl⟩ := List.forall₂_cons_left_iff.mp hrest
    cases hsigned.symm.trans hsigned'
    have hused := gasUsed_addTransactions hgas hfirst hb
    have hsum : gasOf (first ++ signed :: rest) =
        gasOf first + (signed.gasLimit + gasOf rest) := by
      simp [gasOf]
    refine executeTransaction_of_le b.state ?_
    change b.gasUsed ≤ 0 + _ at hused
    omega
  · intro hfatal
    have hstart : (start state).gasUsed + gasOf decoded ≤ payload.gasLimit := by
      change 0 + _ ≤ _
      omega
    obtain ⟨b, committed, hb, hcommitted, hsub⟩ :=
      addTransactions_eq_ok hgas hfatal hpasses.decodes hstart
    refine ⟨b, hb, ?_, ?_⟩
    · rw [hcommitted]
      exact hsub
    · have hcount := @BlockBuilder.addTransactions_spec σ (evm σ) payload (start state) b _ hb
      exact hcount.trans (zero_add _)

end

abbrev nonceMachine : Revm Nonces where
  accountNonce nonces signer := nonces[signer]?
  applyPreExecutionChanges _ nonces := some nonces
  transact _ nonces tx :=
    let nonce := nonces[tx.signer]?.getD 0
    if tx.gasLimit < 21000 then .error .invalid
    else if tx.nonce < nonce then .error .nonceTooLow
    else if nonce < tx.nonce then .error .nonceTooHigh
    else .ok (21000, nonces.insert tx.signer (nonce + 1))
  finish _ _ nonces := some nonces

theorem nonceMachine_spec : @GasBounded Nonces nonceMachine ∧ @NeverFatal Nonces nonceMachine := by
  constructor
  · intro payload st tx gas st' h
    dsimp only [Revm.transact] at h
    split at h
    · cases h
    · next hgas =>
      split at h
      · cases h
      · split at h
        · cases h
        · cases h
          omega
  · intro payload st tx h
    dsimp only [Revm.transact] at h
    split at h
    · cases h
    · split at h
      · cases h
      · split at h <;> cases h

/-- The block has gas for the three limits, and the second transaction is ahead of its account. -/
theorem validated_batch_fits_gap :
    letI : HashFunction := .encode
    letI : TransactionCodec := .transfers
    letI : Revm Nonces := nonceMachine
    let batch : Batch := ⟨[100, 205, 101], 3, 7, 7, 0, 1⟩
    let parent : ExecHeader := ⟨0, 0, 0, 0, 0, 7, 63000, 0, 0, none, 0, 0, 0⟩
    let payload : RLPayload := ⟨parent, 7, 0, 0, 0, 0, 0, 7, 63000, 0, none, 0⟩
    ((new 0 3 63000).validateBatch ⟨false, 7, 0⟩ batch.sealSlow).1 = .ok () ∧
      ∃ b, addTransactions payload (start (∅ : Nonces)) batch.transactions = .ok b ∧
        b.committedTxs.Sublist batch.transactions ∧
        b.committedTxs.length + b.validationCounts.total = 3 := by
  let _ : HashFunction := .encode
  let _ : TransactionCodec := .transfers
  let _ : Revm Nonces := nonceMachine
  intro batch parent payload
  have haccepts : (((new 0 3 63000).after []).validateBatch ⟨false, 7, 0⟩
      batch.sealSlow).1 = .ok () := by
    decide +kernel
  refine ⟨haccepts, ?_⟩
  exact (validated_batch_fits Encodable.encode_injective nonceMachine_spec.1 haccepts
    (le_refl 63000) (∅ : Nonces)).2 nonceMachine_spec.2

end BlockExecutor

end Axyl
