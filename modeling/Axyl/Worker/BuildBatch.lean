import Axyl.Worker.BatchValidator

/-! The selection of the transactions of a batch from the pool, and that peers accept the result. -/

namespace Axyl
open List TransactionCodec BatchValidator
open Std (ExtTreeMap)

structure PoolTransaction extends TransactionSigned where
  size : Nat
  encoded2718 : Nat
deriving DecidableEq, Repr

structure NonceRange where
  min : Nat
  max : Nat
deriving DecidableEq, Repr

/-- The addition of two `u64`, with the overflow check of the release profile. -/
inductive BuildAbort where
  | gasOverflow
deriving DecidableEq, Repr

structure BatchBuilderOutput where
  batch : Batch
  selected : List Nat
  senderNonceRanges : ExtTreeMap Nat NonceRange
  atCapacity : Bool

/-- The variables of the selection loop. `invalid` are the senders that the iterator passes over: to
mark a transaction takes its dependents out as well. -/
structure Selection where
  totalBytesSize : Nat
  totalPossibleGas : Nat
  atCapacity : Bool
  transactions : List PoolTransaction
  blobTransactions : List Nat
  senderNonceRanges : ExtTreeMap Nat NonceRange
  invalid : List Nat

namespace Selection

def new : Selection := ⟨0, 0, false, [], [], ∅, []⟩

def markInvalid (s : Selection) (tx : PoolTransaction) : Selection :=
  { s with invalid := tx.signer :: s.invalid }

def trackNonce (ranges : ExtTreeMap Nat NonceRange) (sender nonce : Nat) :
    ExtTreeMap Nat NonceRange :=
  ranges.insert sender
    (match ranges[sender]? with
    | some r => ⟨min r.min nonce, max r.max nonce⟩
    | none => ⟨nonce, nonce⟩)

def consider (isInFlight : Nat → Bool) (gasLimit maxSize : Nat) (s : Selection)
    (tx : PoolTransaction) : Except BuildAbort Selection :=
  if isInFlight tx.hash then .ok s
  else if 2 ^ 64 ≤ s.totalPossibleGas + tx.gasLimit then .error .gasOverflow
  else if gasLimit < s.totalPossibleGas + tx.gasLimit then
    .ok { s.markInvalid tx with atCapacity := s.atCapacity || 0 < s.totalPossibleGas }
  else if tx.isEip4844 then
    .ok { s.markInvalid tx with blobTransactions := s.blobTransactions ++ [tx.hash] }
  else if maxSize < s.totalBytesSize + tx.size then
    .ok { s.markInvalid tx with atCapacity := s.atCapacity || 0 < s.totalBytesSize }
  else
    .ok { s with
      totalPossibleGas := s.totalPossibleGas + tx.gasLimit
      totalBytesSize := s.totalBytesSize + tx.size
      senderNonceRanges := trackNonce s.senderNonceRanges tx.signer tx.nonce
      transactions := s.transactions ++ [tx] }

def select (isInFlight : Nat → Bool) (gasLimit maxSize : Nat) :
    List PoolTransaction → Selection → Except BuildAbort Selection
  | [], s => .ok s
  | tx :: best, s =>
    if tx.signer ∈ s.invalid then select isInFlight gasLimit maxSize best s
    else do
      let s ← s.consider isInFlight gasLimit maxSize tx
      select isInFlight gasLimit maxSize best s

end Selection

def buildBatch (best : List PoolTransaction) (isInFlight : Nat → Bool)
    (beneficiary epoch workerId baseFee seq gasLimit : Nat) :
    Except BuildAbort BatchBuilderOutput := do
  let s ← Selection.select isInFlight gasLimit (maxBatchSize epoch) best .new
  return {
    batch := {
      transactions := s.transactions.map PoolTransaction.encoded2718
      epoch, beneficiary, baseFeePerGas := baseFee, workerId, seq }
    selected := s.transactions.map (·.hash)
    senderNonceRanges := s.senderNonceRanges
    atCapacity := s.atCapacity }

/-- A pool transaction is well formed: its encoding is recoverable and no longer than its size. -/
structure PoolTransaction.WellFormed [TransactionCodec] (tx : PoolTransaction) : Prop where
  recovers : recoverSignedTransaction tx.encoded2718 = .ok tx.toTransactionSigned
  len_le : len tx.encoded2718 ≤ tx.size

namespace Selection

structure Within (gasLimit maxSize : Nat) (best : List PoolTransaction) (s : Selection) : Prop where
  gas_eq : s.totalPossibleGas = (s.transactions.map (·.gasLimit)).sum
  gas_le : s.totalPossibleGas ≤ gasLimit
  gas_lt : s.totalPossibleGas < 2 ^ 64
  bytes_eq : s.totalBytesSize = (s.transactions.map (·.size)).sum
  bytes_le : s.totalBytesSize ≤ maxSize
  noBlobs : ∀ tx ∈ s.transactions, tx.isEip4844 = false
  mem : ∀ tx ∈ s.transactions, tx ∈ best

variable {isInFlight : Nat → Bool} {gasLimit maxSize : Nat} {best pool : List PoolTransaction}
  {s s' : Selection} {tx : PoolTransaction}

theorem within_new (gasLimit maxSize : Nat) (best : List PoolTransaction) :
    new.Within gasLimit maxSize best :=
  ⟨rfl, Nat.zero_le _, Nat.two_pow_pos 64, rfl, Nat.zero_le _, nofun, nofun⟩

theorem Within.consider (h : s.Within gasLimit maxSize pool) (htx : tx ∈ pool)
    (hs' : s.consider isInFlight gasLimit maxSize tx = .ok s') : s'.Within gasLimit maxSize pool := by
  unfold Selection.consider at hs'
  split at hs'
  · cases hs'
    exact h
  split at hs'
  · cases hs'
  next hover =>
  split at hs'
  · cases hs'
    exact { h with }
  next hgas =>
  split at hs'
  · cases hs'
    exact { h with }
  next hblob =>
  split at hs'
  · cases hs'
    exact { h with }
  next hsize =>
  cases hs'
  refine ⟨?_, Nat.le_of_not_lt hgas, Nat.lt_of_not_le hover, ?_, Nat.le_of_not_lt hsize, ?_, ?_⟩
  · simp [h.gas_eq]
  · simp [h.bytes_eq]
  · intro tx' htx'
    rcases mem_append.mp htx' with htx' | htx'
    · exact h.noBlobs tx' htx'
    · cases mem_singleton.mp htx'
      exact Bool.eq_false_of_not_eq_true hblob
  · intro tx' htx'
    rcases mem_append.mp htx' with htx' | htx'
    · exact h.mem tx' htx'
    · cases mem_singleton.mp htx'
      exact htx

theorem Within.select (h : s.Within gasLimit maxSize pool) (hbest : ∀ tx ∈ best, tx ∈ pool)
    (hs' : Selection.select isInFlight gasLimit maxSize best s = .ok s') :
    s'.Within gasLimit maxSize pool := by
  induction best generalizing s with
  | nil =>
    cases hs'
    exact h
  | cons tx best ih =>
    obtain ⟨htx, hbest⟩ := forall_mem_cons.mp hbest
    rw [Selection.select] at hs'
    split at hs'
    · exact ih h hbest hs'
    · obtain ⟨s₁, hs₁, hs'⟩ := Fallible.bind_eq_ok.mp hs'
      exact ih (h.consider htx hs₁) hbest hs'

end Selection

section
variable [TransactionCodec] {txs : List PoolTransaction}

theorem decodes_map (h : ∀ tx ∈ txs, tx.WellFormed) :
    BatchValidator.Decodes (txs.map PoolTransaction.encoded2718)
      (txs.map PoolTransaction.toTransactionSigned) := by
  rw [BatchValidator.Decodes, forall₂_map_left_iff, forall₂_map_right_iff, forall₂_same]
  exact fun tx htx => (h tx htx).recovers

theorem sum_len_le (h : ∀ tx ∈ txs, tx.WellFormed) :
    ((txs.map PoolTransaction.encoded2718).map len).sum ≤ (txs.map (·.size)).sum := by
  rw [map_map]
  exact sum_le_sum fun tx htx => (h tx htx).len_le

variable [HashFunction]

/-- A peer with the same settings accepts what was built, whatever it has validated before. -/
theorem buildBatch_accepted {best : List PoolTransaction} {isInFlight : Nat → Bool}
    {beneficiary epoch workerId baseFee seq gasLimit : Nat} {output : BatchBuilderOutput}
    (hpool : ∀ tx ∈ best, tx.WellFormed)
    (hbuild : buildBatch best isInFlight beneficiary epoch workerId baseFee seq gasLimit =
      .ok output) (hnonempty : output.batch.transactions ≠ []) (peer : BatchValidator)
    (env : ValidationEnv) (hworker : peer.workerId = workerId) (hepoch : peer.epoch = epoch)
    (hgas : peer.gasLimit = gasLimit) (hfee : env.baseFee = baseFee) :
    (peer.validateBatch env output.batch.sealSlow).1 = .ok () := by
  obtain ⟨s, hs, hbuild⟩ := Fallible.bind_eq_ok.mp hbuild
  cases hbuild
  have hwithin := (Selection.within_new gasLimit (maxBatchSize epoch) best).select
    (fun tx htx => htx) hs
  have hwf : ∀ tx ∈ s.transactions, tx.WellFormed := fun tx htx => hpool tx (hwithin.mem tx htx)
  have hgasOf : gasOf (s.transactions.map PoolTransaction.toTransactionSigned) =
      s.totalPossibleGas := by
    rw [gasOf, map_map, hwithin.gas_eq]
    rfl
  have hdecodes := decodes_map hwf
  refine validateBatch_of_passes
    ⟨hworker.symm, hepoch.symm, hnonempty, ?_, hdecodes, ?_, ?_, .inr hfee.symm⟩
  · calc ((s.transactions.map PoolTransaction.encoded2718).map len).sum
        ≤ (s.transactions.map (·.size)).sum := sum_len_le hwf
      _ = s.totalBytesSize := hwithin.bytes_eq.symm
      _ ≤ maxBatchSize epoch := hwithin.bytes_le
  · intro tx htx
    obtain ⟨tx', htx', rfl⟩ := mem_map.mp htx
    exact hwithin.noBlobs tx' htx'
  · rw [hgasOf, hgas]
    exact ⟨hwithin.gas_lt, hwithin.gas_le⟩

end

abbrev TransactionCodec.transfers : TransactionCodec where
  len _ := 110
  recoverSignedTransaction tx := .ok ⟨tx, tx / 100, tx % 100, 21000, false⟩

def PoolTransaction.transfer (tx : Nat) : PoolTransaction :=
  ⟨⟨tx, tx / 100, tx % 100, 21000, false⟩, 150, tx⟩

/-- Of the first account one transaction is in flight; the third account finds no gas left. -/
theorem buildBatch_accepted_transfers :
    letI : TransactionCodec := .transfers
    letI : HashFunction := .polynomial
    let best := [100, 101, 200, 102, 300].map PoolTransaction.transfer
    ∃ output, buildBatch best (· = 100) 7 3 0 7 1 63000 = .ok output ∧
      output.batch.transactions = [101, 200, 102] ∧ output.atCapacity = true ∧
      ((new 0 3 63000).validateBatch ⟨false, 7, 0⟩ output.batch.sealSlow).1 =
        .ok () := by
  let _ : TransactionCodec := .transfers
  let _ : HashFunction := .polynomial
  intro best
  have hpool : ∀ tx ∈ best, tx.WellFormed := by
    intro tx htx
    obtain ⟨n, -, rfl⟩ := mem_map.mp htx
    refine ⟨rfl, ?_⟩
    change 110 ≤ 150
    omega
  obtain ⟨output, hbuild, htxs, hfull⟩ : ∃ output,
      buildBatch best (· = 100) 7 3 0 7 1 63000 = .ok output ∧
        output.batch.transactions = [101, 200, 102] ∧ output.atCapacity = true := by
    decide +kernel
  have hne : output.batch.transactions ≠ [] := by
    rw [htxs]
    exact cons_ne_nil _ _
  exact ⟨output, hbuild, htxs, hfull, buildBatch_accepted hpool hbuild hne _ _ rfl rfl rfl rfl⟩

end Axyl
