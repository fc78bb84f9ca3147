import Axyl.Lib.Except
import Axyl.Types.Batch

/-! The checks that a worker makes on the batch of a peer. Decoding, which comes from outside, is a
parameter. -/

namespace Axyl
open Fallible List
open Std (ExtTreeMap)

structure TransactionSigned where
  hash : Nat
  signer : Nat
  nonce : Nat
  gasLimit : Nat
  isEip4844 : Bool
deriving DecidableEq, Repr

/-- The number of bytes of an encoded transaction, and what it decodes to. -/
class TransactionCodec where
  len : Nat → Nat
  recoverSignedTransaction : Nat → Except String TransactionSigned

inductive BatchValidationError where
  | invalidDigest
  | emptyBatch
  | headerMaxGasExceedsGasLimit (totalPossibleGas gasLimit : Nat)
  | headerTransactionBytesExceedsMax (totalBytes : Nat)
  | recoverTransaction (digest : Nat) (e : String)
  | invalidBaseFee (expectedBaseFee baseFee : Nat)
  | invalidWorkerId (expectedWorkerId workerId : Nat)
  | invalidTx4844 (hash : Nat)
  | gasOverflow
  | invalidEpoch (expected found : Nat)
deriving DecidableEq, Repr

def maxBatchSize (_epoch : Nat) : Nat := 2000000

section
variable [HashFunction]

def Batch.digest (batch : Batch) : Nat :=
  HashFunction.hash (batch.transactions.length :: batch.transactions ++
    [batch.epoch, batch.beneficiary, batch.baseFeePerGas, batch.workerId, batch.seq])

theorem Batch.eq_of_digest_eq (hhash : Function.Injective HashFunction.hash) {b b' : Batch}
    (h : b.digest = b'.digest) : b = b' := by
  have hwords := hhash h
  rw [cons_append, cons_append, List.cons.injEq] at hwords
  obtain ⟨htxs, hrest⟩ := append_inj hwords.2 hwords.1
  obtain ⟨txs, ep, beneficiary, fee, worker, seq⟩ := b
  obtain ⟨rfl, rfl, rfl, rfl, rfl⟩ := hrest
  cases htxs
  rfl

structure SealedBatch where
  batch : Batch
  digest : Nat
deriving DecidableEq, Repr

def Batch.sealSlow (batch : Batch) : SealedBatch := ⟨batch, batch.digest⟩

end

/-- `validatedBatches` has the time of the check for digests of the last minute. The pool and the
execution environment are used by other methods. -/
structure BatchValidator where
  workerId : Nat
  epoch : Nat
  validatedBatches : ExtTreeMap Nat Nat
  gasLimit : Nat

/-- What a check reads besides the batch: whether the fee fork is active at the next block, the base
fee of the worker, and the clock. -/
structure ValidationEnv where
  eip1559Active : Bool
  baseFee : Nat
  now : Nat

namespace BatchValidator

def new (workerId epoch gasLimit : Nat) : BatchValidator := ⟨workerId, epoch, ∅, gasLimit⟩

variable [TransactionCodec]

def validateBatchSizeBytes (transactions : List Nat) (epoch : Nat) :
    Except BatchValidationError Unit :=
  match transactions.map TransactionCodec.len with
  | [] => .error .emptyBatch
  | size :: sizes =>
    let totalBytes := sizes.foldl (· + ·) size
    if maxBatchSize epoch < totalBytes then .error (.headerTransactionBytesExceedsMax totalBytes)
    else .ok ()

def decodeTransactions (transactions : List Nat) (digest : Nat) :
    Except BatchValidationError (List TransactionSigned) :=
  transactions.mapM fun tx =>
    match TransactionCodec.recoverSignedTransaction tx with
    | .ok signed => .ok signed
    | .error e => .error (.recoverTransaction digest e)

def validateNoBlobTxs (transactions : List TransactionSigned) : Except BatchValidationError Unit :=
  match transactions.find? TransactionSigned.isEip4844 with
  | some blob => .error (.invalidTx4844 blob.hash)
  | none => .ok ()

def totalPossibleGas (transactions : List TransactionSigned) : Except BatchValidationError Nat :=
  transactions.foldlM (fun total tx =>
    if total + tx.gasLimit < 2 ^ 64 then .ok (total + tx.gasLimit) else .error .gasOverflow) 0

variable (v : BatchValidator)

def validateBatchGas (transactions : List TransactionSigned) : Except BatchValidationError Unit := do
  let total ← totalPossibleGas transactions
  if v.gasLimit < total then .error (.headerMaxGasExceedsGasLimit total v.gasLimit) else .ok ()

def validateBasefee (env : ValidationEnv) (baseFee : Nat) : Except BatchValidationError Unit :=
  if env.eip1559Active then .ok ()
  else if baseFee ≠ env.baseFee then .error (.invalidBaseFee env.baseFee baseFee)
  else .ok ()

def validateContent (env : ValidationEnv) (batch : Batch) (digest : Nat) :
    Except BatchValidationError Unit :=
  if batch.workerId ≠ v.workerId then .error (.invalidWorkerId v.workerId batch.workerId)
  else if batch.epoch ≠ v.epoch then .error (.invalidEpoch v.epoch batch.epoch)
  else do
    validateBatchSizeBytes batch.transactions batch.epoch
    let decoded ← decodeTransactions batch.transactions digest
    validateNoBlobTxs decoded
    v.validateBatchGas decoded
    validateBasefee env batch.baseFeePerGas

def validateBatch [HashFunction] (env : ValidationEnv) (sealed : SealedBatch) :
    Except BatchValidationError Unit × BatchValidator :=
  if sealed.digest ≠ sealed.batch.digest then (.error .invalidDigest, v)
  else if v.validatedBatches.contains sealed.digest then (.ok (), v)
  else
    match v.validateContent env sealed.batch sealed.digest with
    | .error e => (.error e, v)
    | .ok () =>
      (.ok (), { v with
        validatedBatches := (v.validatedBatches.filter fun _ time => env.now - 60 < time).insert
          sealed.digest env.now })

def after [HashFunction] : BatchValidator → List (ValidationEnv × SealedBatch) → BatchValidator
  | v, [] => v
  | v, (env, sealed) :: calls => after (v.validateBatch env sealed).2 calls

def Decodes (transactions : List Nat) (decoded : List TransactionSigned) : Prop :=
  List.Forall₂ (fun tx signed => TransactionCodec.recoverSignedTransaction tx = .ok signed)
    transactions decoded

theorem decodes_append {txs txs' : List Nat} {dec : List TransactionSigned}
    (h : Decodes (txs ++ txs') dec) :
    ∃ first rest, dec = first ++ rest ∧ Decodes txs first ∧ Decodes txs' rest :=
  ⟨dec.take txs.length, dec.drop txs.length, (take_append_drop _ _).symm,
    (forall₂_take_append _ _ _ h.flip).flip, (forall₂_drop_append _ _ _ h.flip).flip⟩

def gasOf (transactions : List TransactionSigned) : Nat :=
  (transactions.map TransactionSigned.gasLimit).sum

variable {transactions : List Nat} {env : ValidationEnv}

theorem validateBatchSizeBytes_eq_ok {epoch : Nat} :
    validateBatchSizeBytes transactions epoch = .ok () ↔ transactions ≠ [] ∧
      (transactions.map TransactionCodec.len).sum ≤ maxBatchSize epoch := by
  cases transactions with
  | nil => simp [validateBatchSizeBytes]
  | cons tx txs =>
    have hsum : (txs.map TransactionCodec.len).foldl (· + ·) (TransactionCodec.len tx) =
        ((tx :: txs).map TransactionCodec.len).sum := by
      rw [sum_eq_foldl, map_cons, foldl_cons, zero_add]
    rw [validateBatchSizeBytes, map_cons]
    dsimp only
    rw [hsum, guard_eq_ok, Nat.not_lt]
    exact (and_iff_right (cons_ne_nil _ _)).symm

theorem decodeTransactions_eq_ok {dig : Nat} {decoded : List TransactionSigned} :
    decodeTransactions transactions dig = .ok decoded ↔ Decodes transactions decoded := by
  induction transactions generalizing decoded with
  | nil =>
    rw [Decodes, forall₂_nil_left_iff]
    exact ⟨fun h => (Except.ok.inj h).symm, fun h => h ▸ rfl⟩
  | cons tx txs ih =>
    rw [decodeTransactions, mapM_cons, bind_eq_ok, Decodes, forall₂_cons_left_iff]
    constructor
    · rintro ⟨signed, hsig, h⟩
      obtain ⟨rest, hrest, h⟩ := bind_eq_ok.mp h
      cases h
      refine ⟨signed, rest, ?_, ih.mp hrest, rfl⟩
      split at hsig
      · next hrcr =>
        cases hsig
        exact hrcr
      · cases hsig
    · rintro ⟨signed, rest, hsig, hrest, rfl⟩
      refine ⟨signed, by rw [hsig], ?_⟩
      exact bind_eq_ok.mpr ⟨rest, ih.mpr hrest, rfl⟩

variable {transactions : List TransactionSigned}

omit [TransactionCodec] in
theorem validateNoBlobTxs_eq_ok :
    validateNoBlobTxs transactions = .ok () ↔ ∀ tx ∈ transactions, tx.isEip4844 = false := by
  unfold validateNoBlobTxs
  split
  · next blob hblob =>
    simp only [reduceCtorEq, false_iff, not_forall]
    exact ⟨blob, mem_of_find?_eq_some hblob, by rw [List.find?_some hblob]; exact nofun⟩
  · next hnone =>
    refine iff_of_true rfl fun tx htx => ?_
    exact Bool.eq_false_of_not_eq_true (List.find?_eq_none.mp hnone tx htx)

omit [TransactionCodec] in
/-- The sum from any start: the partial sums are below the last one. -/
theorem foldlM_gas_eq_ok {start total : Nat} :
    transactions.foldlM (fun total tx => if total + tx.gasLimit < 2 ^ 64 then
        Except.ok (ε := BatchValidationError) (total + tx.gasLimit) else .error .gasOverflow) start =
      .ok total ↔ total = start + gasOf transactions ∧ (transactions = [] ∨ total < 2 ^ 64) := by
  induction transactions generalizing start with
  | nil =>
    simp only [foldlM_nil, gasOf, map_nil, sum_nil, add_zero, true_or, and_true]
    exact ⟨fun h => (Except.ok.inj h).symm, fun h => h ▸ rfl⟩
  | cons tx txs ih =>
    have hgas : gasOf (tx :: txs) = tx.gasLimit + gasOf txs := by simp [gasOf]
    rw [foldlM_cons, bind_eq_ok]
    simp only [reduceCtorEq, false_or]
    constructor
    · rintro ⟨sum, hsum, h⟩
      split at hsum
      · next hlt =>
        cases hsum
        obtain ⟨rfl, hlast⟩ := ih.mp h
        refine ⟨by omega, ?_⟩
        rcases hlast with rfl | hlast
        · simpa [gasOf] using hlt
        · exact hlast
      · cases hsum
    · rintro ⟨rfl, hlt⟩
      refine ⟨start + tx.gasLimit, if_pos (by omega), ih.mpr ⟨by omega, .inr hlt⟩⟩

variable {v : BatchValidator}

omit [TransactionCodec] in
theorem validateBatchGas_eq_ok : v.validateBatchGas transactions = .ok () ↔
      gasOf transactions < 2 ^ 64 ∧ gasOf transactions ≤ v.gasLimit := by
  rw [validateBatchGas, bind_eq_ok]
  simp only [totalPossibleGas, foldlM_gas_eq_ok, zero_add]
  constructor
  · rintro ⟨total, ⟨rfl, hlt⟩, h⟩
    refine ⟨?_, Nat.not_lt.mp (guard_eq_ok.mp h)⟩
    rcases hlt with rfl | hlt
    · exact Nat.two_pow_pos 64
    · exact hlt
  · rintro ⟨hlt, hle⟩
    exact ⟨gasOf transactions, ⟨rfl, .inr hlt⟩, if_neg (by omega)⟩

omit [TransactionCodec] in
theorem validateBasefee_eq_ok {baseFee : Nat} :
    validateBasefee env baseFee = .ok () ↔ env.eip1559Active = true ∨ baseFee = env.baseFee := by
  unfold validateBasefee
  split
  · next hact => exact iff_of_true rfl (.inl hact)
  · next hact => rw [guard_eq_ok, not_not, or_iff_right hact]

structure Passes (v : BatchValidator) (env : ValidationEnv) (batch : Batch)
    (decoded : List TransactionSigned) : Prop where
  workerId : batch.workerId = v.workerId
  epoch : batch.epoch = v.epoch
  nonempty : batch.transactions ≠ []
  size : (batch.transactions.map TransactionCodec.len).sum ≤ maxBatchSize batch.epoch
  decodes : Decodes batch.transactions decoded
  noBlobs : ∀ tx ∈ decoded, tx.isEip4844 = false
  gas : gasOf decoded < 2 ^ 64 ∧ gasOf decoded ≤ v.gasLimit
  basefee : env.eip1559Active = true ∨ batch.baseFeePerGas = env.baseFee

theorem validateContent_eq_ok {batch : Batch} {dig : Nat} :
    v.validateContent env batch dig = .ok () ↔ ∃ decoded, v.Passes env batch decoded := by
  unfold validateContent
  constructor
  · intro h
    split at h
    · cases h
    · next hworker =>
      split at h
      · cases h
      · next hep =>
        obtain ⟨⟨⟩, hsize, h⟩ := bind_eq_ok.mp h
        obtain ⟨decoded, hdecoded, h⟩ := bind_eq_ok.mp h
        obtain ⟨⟨⟩, hblobs, h⟩ := bind_eq_ok.mp h
        obtain ⟨⟨⟩, hgas, hfee⟩ := bind_eq_ok.mp h
        obtain ⟨hne, hsize⟩ := validateBatchSizeBytes_eq_ok.mp hsize
        exact ⟨decoded, not_not.mp hworker, not_not.mp hep, hne, hsize,
          decodeTransactions_eq_ok.mp hdecoded, validateNoBlobTxs_eq_ok.mp hblobs,
          validateBatchGas_eq_ok.mp hgas, validateBasefee_eq_ok.mp hfee⟩
  · rintro ⟨decoded, h⟩
    rw [if_neg (not_not.mpr h.workerId), if_neg (not_not.mpr h.epoch)]
    refine bind_eq_ok.mpr ⟨(), validateBatchSizeBytes_eq_ok.mpr ⟨h.nonempty, h.size⟩, ?_⟩
    refine bind_eq_ok.mpr ⟨decoded, decodeTransactions_eq_ok.mpr h.decodes, ?_⟩
    refine bind_eq_ok.mpr ⟨(), validateNoBlobTxs_eq_ok.mpr h.noBlobs, ?_⟩
    exact bind_eq_ok.mpr ⟨(), validateBatchGas_eq_ok.mpr h.gas, validateBasefee_eq_ok.mpr h.basefee⟩

section
variable [HashFunction] {env : ValidationEnv}

theorem validateBatch_of_passes {batch : Batch} {dec : List TransactionSigned}
    (h : v.Passes env batch dec) : (v.validateBatch env batch.sealSlow).1 = .ok () := by
  have hcontent : v.validateContent env batch batch.digest = .ok () :=
    validateContent_eq_ok.mpr ⟨dec, h⟩
  rw [Batch.sealSlow, validateBatch, if_neg (not_not.mpr rfl)]
  split
  · rfl
  · rw [hcontent]

def Vouches (v : BatchValidator) : Prop :=
  ∀ (digest : Nat), v.validatedBatches.contains digest = true →
    ∃ batch env decoded, batch.digest = digest ∧ v.Passes env batch decoded

theorem validateBatch_cases (v : BatchValidator) (env : ValidationEnv) (sealed : SealedBatch) :
    (∃ e, v.validateBatch env sealed = (.error e, v)) ∨
    (sealed.digest = sealed.batch.digest ∧ v.validatedBatches.contains sealed.digest = true ∧
      v.validateBatch env sealed = (.ok (), v)) ∨
    ∃ dec, sealed.digest = sealed.batch.digest ∧ v.Passes env sealed.batch dec ∧
      v.validateBatch env sealed = (.ok (), { v with
        validatedBatches := (v.validatedBatches.filter fun _ time => env.now - 60 < time).insert
          sealed.digest env.now }) := by
  unfold validateBatch
  split
  · exact .inl ⟨_, rfl⟩
  · next hdig =>
    have hdig' := not_not.mp hdig
    split
    · next hkn => exact .inr (.inl ⟨hdig', hkn, rfl⟩)
    · split
      · exact .inl ⟨_, rfl⟩
      · next hcontent =>
        obtain ⟨dec, hpasses⟩ := validateContent_eq_ok.mp hcontent
        exact .inr (.inr ⟨dec, hdig', hpasses, rfl⟩)

theorem Vouches.validateBatch (h : v.Vouches) (env : ValidationEnv) (sealed : SealedBatch) :
    (v.validateBatch env sealed).2.Vouches ∧
      (v.validateBatch env sealed).2.gasLimit = v.gasLimit := by
  rcases v.validateBatch_cases env sealed with ⟨e, heq⟩ | ⟨-, -, heq⟩ | ⟨dec, hd, hp, heq⟩
  · rw [heq]
    exact ⟨h, rfl⟩
  · rw [heq]
    exact ⟨h, rfl⟩
  · rw [heq]
    refine ⟨fun dig hdig => ?_, rfl⟩
    rw [ExtTreeMap.contains_insert, Bool.or_eq_true, beq_iff_eq, Nat.compare_eq_eq] at hdig
    rcases hdig with rfl | hdig
    · exact ⟨sealed.batch, env, dec, hd.symm, { hp with }⟩
    · have hold : v.validatedBatches.contains dig = true := ExtTreeMap.contains_of_contains_filter hdig
      obtain ⟨batch, env', dec', hb, hp'⟩ := h dig hold
      exact ⟨batch, env', dec', hb, { hp' with }⟩

theorem Vouches.after (h : v.Vouches) (calls : List (ValidationEnv × SealedBatch)) :
    (v.after calls).Vouches ∧ (v.after calls).gasLimit = v.gasLimit := by
  induction calls generalizing v with
  | nil => exact ⟨h, rfl⟩
  | cons call calls ih =>
    obtain ⟨hnext, hgas⟩ := h.validateBatch call.1 call.2
    obtain ⟨haft, hgas'⟩ := ih hnext
    exact ⟨haft, hgas'.trans hgas⟩

theorem vouches_new (workerId ep gasLimit : Nat) : (new workerId ep gasLimit).Vouches := by
  intro dig h
  cases h

theorem Vouches.passes_of_accepted (hhash : Function.Injective HashFunction.hash) (h : v.Vouches)
    {sealed : SealedBatch} (haccepts : (v.validateBatch env sealed).1 = .ok ()) :
    ∃ env' decoded, v.Passes env' sealed.batch decoded := by
  rcases v.validateBatch_cases env sealed with ⟨e, heq⟩ | ⟨hd, hkn, -⟩ | ⟨decoded, -, hp, -⟩
  · rw [heq] at haccepts
    cases haccepts
  · obtain ⟨batch, env', decoded, hdig, hp⟩ := h sealed.digest hkn
    obtain rfl := Batch.eq_of_digest_eq hhash (hdig.trans hd)
    exact ⟨env', decoded, hp⟩
  · exact ⟨env, decoded, hp⟩

end

end BatchValidator

end Axyl
