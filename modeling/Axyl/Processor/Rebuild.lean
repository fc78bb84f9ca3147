import Axyl.Processor.Blocks
import Axyl.Processor.Simulation

/-! The registry after a restart, rebuilt from the headers of the chain, the bodies of the
batches and the nonces of the accounts, and when it agrees with the one that was lost. -/

namespace Axyl
open List ExecutedBatchRegistry HashFunction
open Std (ExtTreeMap)

def digestReconstructionDepth : Nat := 2000

section
variable {σ : Type} [Evm σ]

def retryable (batches : Batches) (state : σ) (batchDigest : Nat) : Bool :=
  match batches[batchDigest]? with
  | some batch => batchTxnsAllPending state batch.transactions
  | none => false

def reconstructBlock (batches : Batches) (state : σ) (registry : ExecutedBatchRegistry)
    (b : ExecutedBlock) : ExecutedBatchRegistry :=
  let outputDigest := b.header.parentBeaconBlockRoot
  if b.header.mixHash ≠ outputDigest ∧ outputDigest ≠ 0 then
    let batchDigest := b.header.mixHash ^^^ outputDigest
    if b.transactionRootIsEmpty && retryable batches state batchDigest then
      ((registry.tryRegister batchDigest).2.dropDigest batchDigest).2
    else (registry.tryRegister batchDigest).2
  else registry

def reconstructBatchDigests (chain : ExtTreeMap Nat ExecutedBlock) (batches : Batches) (state : σ)
    (tip : Nat) : ExecutedBatchRegistry :=
  let start := max (tip - digestReconstructionDepth) 1
  (range' start (tip + 1 - start)).foldl (fun registry num =>
    match chain[num]? with
    | some b => reconstructBlock batches state registry b
    | none => registry) .default

variable {batches : Batches} {state : σ} {reg : ExecutedBatchRegistry} {d : Nat}

theorem reconstructBlock_of_no_batch {b : ExecutedBlock}
    (h : b.header.mixHash = b.header.parentBeaconBlockRoot) :
    reconstructBlock batches state reg b = reg := by
  rw [reconstructBlock, if_neg (fun hne => hne.1 h)]

theorem slot_reconstructBlock {x : Execution} (hx : x.Stamped) (ho : x.prepared.outputDigest ≠ 0)
    (hd : x.digest ≠ 0) : (reconstructBlock batches state reg x.block).slot d = if x.digest = d then
      (reg.slot d).attempt maxNonceTooHighRetries
        (x.block.transactionRootIsEmpty && retryable batches state d) else reg.slot d := by
  have hxor : x.prepared.outputDigest ^^^ x.prepared.batchDigest ^^^ x.prepared.outputDigest =
      x.prepared.batchDigest := by
    rw [Nat.xor_comm, ← Nat.xor_assoc, Nat.xor_self, Nat.zero_xor]
  have hne : x.prepared.outputDigest ^^^ x.prepared.batchDigest ≠ x.prepared.outputDigest := by
    intro heq
    rw [heq, Nat.xor_self] at hxor
    exact hd hxor.symm
  rw [reconstructBlock, hx.1, hx.2, if_pos ⟨hne, ho⟩]
  rw [hxor, slot_register]
  obtain rfl | hother := eq_or_ne x.digest d
  · rfl
  · rw [if_neg hother]
    exact if_neg hother

def seenAttempts (batches : Batches) (state : σ) (xs : List Execution) (d : Nat) : List Bool :=
  (xs.filter fun x => x.digest == d).map fun x =>
    x.block.transactionRootIsEmpty && retryable batches state d

variable {xs : List Execution}

theorem slot_reconstruct_executions
    (hxs : ∀ x ∈ xs, x.Stamped ∧ x.prepared.outputDigest ≠ 0 ∧ x.digest ≠ 0) :
    ((xs.map Execution.block).foldl (reconstructBlock batches state) reg).slot d =
      (seenAttempts batches state xs d).foldl (Slot.attempt maxNonceTooHighRetries)
        (reg.slot d) := by
  induction xs generalizing reg with
  | nil => rfl
  | cons x xs ih =>
    obtain ⟨⟨hs, ho, hd⟩, hrest⟩ := forall_mem_cons.mp hxs
    rw [map_cons, foldl_cons, ih hrest, slot_reconstructBlock hs ho hd]
    by_cases he : x.digest = d
    · simp [seenAttempts, he]
    · simp [seenAttempts, he, beq_false_of_ne he]

theorem slot_reconstruct_results {results : List OutputResult}
    (hresults : ∀ r ∈ results, r.drained = [] ∧
      (∀ b ∈ r.fallback, b.header.mixHash = b.header.parentBeaconBlockRoot) ∧
      ∀ x ∈ r.executions, x.Stamped ∧ x.prepared.outputDigest ≠ 0 ∧ x.digest ≠ 0) :
    ((results.flatMap OutputResult.blocks).foldl (reconstructBlock batches state) reg).slot d =
      (seenAttempts batches state (executionsOf results) d).foldl
        (Slot.attempt maxNonceTooHighRetries) (reg.slot d) := by
  induction results generalizing reg with
  | nil => rfl
  | cons r results ih =>
    obtain ⟨⟨hdr, hfb, hxs⟩, hrest⟩ := forall_mem_cons.mp hresults
    have hspl : executionsOf (r :: results) = r.executions ++ executionsOf results := by
      rw [executionsOf, flatMap_cons, hdr]
      rfl
    have hnone : ∀ reg', r.fallback.toList.foldl (reconstructBlock batches state) reg' = reg' := by
      intro reg'
      cases hf : r.fallback with
      | none => rfl
      | some b => exact reconstructBlock_of_no_batch (hfb b (by rw [hf]; rfl))
    rw [flatMap_cons, foldl_append, ih hrest, OutputResult.blocks, hdr, map_nil,
      nil_append, foldl_append, hnone, slot_reconstruct_executions hxs, hspl]
    simp only [seenAttempts, filter_append, map_append, foldl_append]

omit [Evm σ] in
/-- Reading a chain by number is going through its blocks. -/
theorem foldl_extendChain {β : Type} {f : β → ExecutedBlock → β} {init : β}
    {blocks : List ExecutedBlock} (h : Numbered 0 blocks) :
    (range' 1 blocks.length).foldl (fun acc n =>
      match (extendChain ∅ blocks)[n]? with
      | some b => f acc b
      | none => acc) init = blocks.foldl f init := by
  induction blocks using reverseRecOn with
  | nil => rfl
  | append_singleton blocks b ih =>
    rw [Numbered, map_append, length_append, length_singleton, range'_concat] at h
    obtain ⟨hinit, hlast⟩ := append_inj' h rfl
    have hb : b.header.number = blocks.length + 1 := by
      have : b.header.number = 1 + 1 * blocks.length := head_eq_of_cons_eq hlast
      omega
    have hch : extendChain ∅ (blocks ++ [b]) =
        (extendChain ∅ blocks).insert (blocks.length + 1) b := by
      rw [extendChain, foldl_append, ← hb]
      rfl
    have hlook : ∀ n ∈ range' 1 blocks.length, ∀ acc,
        (match (extendChain ∅ (blocks ++ [b]))[n]? with
          | some b => f acc b
          | none => acc) =
        match (extendChain ∅ blocks)[n]? with
          | some b => f acc b
          | none => acc := by
      intro n hn acc
      have hne : blocks.length + 1 ≠ n := by
        have := (mem_range'_1.mp hn).2
        omega
      rw [hch, ExtTreeMap.getElem?_insert]
      simp only [Nat.compare_eq_eq, hne, if_false]
    rw [length_append, length_singleton, range'_concat, foldl_append,
      foldl_append, foldl_ext _ _ init (fun acc n hn => hlook n hn acc),
      ih (by rw [Numbered, hinit])]
    have hat : (extendChain ∅ (blocks ++ [b]))[1 + 1 * blocks.length]? = some b := by
      rw [hch, one_mul, add_comm, ExtTreeMap.getElem?_insert_self]
    rw [foldl_cons, foldl_nil, hat, foldl_cons, foldl_nil]

def lastExecution (xs : List Execution) (d : Nat) : Option Execution :=
  (xs.filter fun x => x.digest == d).getLast?

/-- For a digest that may still be released, the live registry looked at the nonces when it was
executed last, the walk at whether the block is empty and at the nonces now. -/
def RetryAgreesAt (state : σ) (xs : List Execution) (d : Nat) : Prop :=
  ∀ x ∈ lastExecution xs d, executionCount xs d ≤ maxNonceTooHighRetries →
    x.allNonceTooHigh = (x.block.transactionRootIsEmpty &&
      batchTxnsAllPending state x.prepared.batch.transactions)

section
variable {xs earlier : List Execution} {x : Execution}

/-- All executions of a digest but the last were released, so their blocks are empty and the walk
takes them for attempts that try to give the slot back where the row still says so. -/
theorem seenAttempts_of_last (state : σ) (hctd : ∀ y ∈ xs, y.Counted)
    (hatts : Slot.Attempts maxNonceTooHighRetries .free (attemptsOf xs d))
    (hlast : xs.filter (fun x => x.digest == d) = earlier ++ [x]) :
    seenAttempts batches state xs d =
      ((earlier.map Execution.allNonceTooHigh).map fun _ => retryable batches state d) ++
        [x.block.transactionRootIsEmpty && retryable batches state d] := by
  have hemp : ∀ y ∈ earlier, y.block.transactionRootIsEmpty = true := by
    intro y hy
    have hmem : y ∈ xs := by
      apply mem_of_mem_filter
      rw [hlast]
      exact mem_append_left _ hy
    rw [attemptsOf, hlast, map_append] at hatts
    have hall : y.allNonceTooHigh ∈ replicate _ true := hatts.eq_replicate.1 ▸ mem_map_of_mem hy
    rw [ExecutedBlock.transactionRootIsEmpty, List.isEmpty_iff]
    exact (hctd y hmem).eq_nil (eq_of_mem_replicate hall)
  rw [seenAttempts, hlast, map_append, map_map]
  congr 1
  apply map_congr_left
  intro y hy
  rw [hemp y hy]
  rfl

theorem retryAgreesAt_of_last (state : σ)
    (hlast : xs.filter (fun x => x.digest == d) = earlier ++ [x]) :
    RetryAgreesAt state xs d ↔ (earlier.length < maxNonceTooHighRetries →
      x.allNonceTooHigh = (x.block.transactionRootIsEmpty &&
        batchTxnsAllPending state x.prepared.batch.transactions)) := by
  have hlen : executionCount xs d = earlier.length + 1 := by
    rw [← length_attemptsOf, attemptsOf, length_map, hlast, length_append, length_singleton]
  have hget : lastExecution xs d = some x := by
    rw [lastExecution, hlast, getLast?_concat]
  rw [RetryAgreesAt, hget, hlen]
  simp only [Option.mem_def, Option.some.injEq, forall_eq', Nat.succ_le_iff]

end

theorem taken_eq_iff (state : σ)
    (hrows : ∀ x ∈ xs, x.Counted ∧ batches[x.digest]? = some x.prepared.batch)
    (hatts : Slot.Attempts maxNonceTooHighRetries .free (attemptsOf xs d)) :
    let live := (attemptsOf xs d).foldl (Slot.attempt maxNonceTooHighRetries) .free
    let seen := (seenAttempts batches state xs d).foldl (Slot.attempt maxNonceTooHighRetries) .free
    (live.taken = seen.taken ↔ RetryAgreesAt state xs d) ∧
      (live.taken = seen.taken → live.taken = false → live = seen) := by
  rcases eq_nil_or_concat' (xs.filter fun x => x.digest == d) with hnil | ⟨earlier, x, hlast⟩
  · simp [attemptsOf, seenAttempts, RetryAgreesAt, lastExecution, hnil]
  · have hseen : seenAttempts batches state xs d = _ :=
      seenAttempts_of_last state (fun y hy => (hrows y hy).1) hatts hlast
    have hfs : attemptsOf xs d = earlier.map Execution.allNonceTooHigh ++ [x.allNonceTooHigh] := by
      rw [attemptsOf, hlast, map_append, map_singleton]
    have hretry : retryable batches state d =
        batchTxnsAllPending state x.prepared.batch.transactions := by
      have hx : x ∈ xs.filter fun x => x.digest == d := by
        rw [hlast]
        exact mem_append_right _ mem_cons_self
      obtain ⟨hmem, hd⟩ := mem_filter.mp hx
      rw [retryable, ← beq_iff_eq.mp hd, (hrows x hmem).2]
    rw [hfs] at hatts
    have hagree := Slot.agree_iff (q := retryable batches state d)
      (g := x.block.transactionRootIsEmpty && retryable batches state d) hatts
      (fun hg => (Bool.and_eq_true_iff.mp hg).2)
    rw [hfs, hseen, retryAgreesAt_of_last state hlast, ← hretry]
    rw [length_map] at hagree
    exact hagree

namespace Processor

structure Fresh (p : Processor σ) : Prop where
  registry : p.registry = .default
  authorities : p.ordering.authorities = ∅
  number : p.head.number = 0
  chain : p.chain = ∅

variable [HashFunction] {cfg : ProcessorConfig} {p p' : Processor σ}

def withRegistry (p : Processor σ) (registry : ExecutedBatchRegistry) : Processor σ :=
  { p with registry }

def Known (batches : Batches) (q : PreparedBatch) : Prop :=
  q.outputDigest ≠ 0 ∧ q.batchDigest ≠ 0 ∧ batches[q.batchDigest]? = some q.batch

omit [HashFunction] [Evm σ] in
/-- Nothing is parked. -/
theorem Fresh.sourced {G : PreparedBatch → Prop} (hp : p.Fresh)
    (hdr : ∀ q, G q → G { q with drained := true }) : Sourced G p := by
  refine ⟨hdr, fun a k q hq => ?_⟩
  simp [BatchOrderingState.parked, BatchOrderingState.get, hp.authorities,
    AuthoritySeqState.default] at hq

section
variable (hspec : cfg.spec.AllActive) (hp : p.Fresh) {outputs : List ConsensusOutput}
  {results : List OutputResult} (h : p.run cfg outputs = .ok (results, p'))
  (htip : p'.head.number < digestReconstructionDepth)
include hspec hp h htip

theorem slot_rebuilt
    (hnew : ∀ o ∈ outputs, ∀ b ∈ o.outputBatches, ∀ index, Known batches (prepare cfg o b index)) :
    (reconstructBatchDigests p'.chain batches p'.state p'.head.number).slot d =
      (seenAttempts batches p'.state (executionsOf results) d).foldl
        (Slot.attempt maxNonceTooHighRetries) .free := by
  have hrun := run_blocks hspec (hp.sourced fun _ hq => hq) h hnew
  have hnum := hrun.numbered
  have hhead := hrun.head
  rw [hp.number] at hnum
  rw [hp.number, zero_add] at hhead
  have hst : max (p'.head.number - digestReconstructionDepth) 1 = 1 := by omega
  rw [reconstructBatchDigests, hst, Nat.add_sub_cancel, hrun.chain, hp.chain, hhead,
    foldl_extendChain hnum]
  refine (slot_reconstruct_results fun r hr => ?_).trans ?_
  · obtain ⟨hdr, hfb, hxs⟩ := hrun.outputs r hr
    exact ⟨hdr, hfb, fun x hx => ⟨(hxs x hx).1, (hxs x hx).2.2.1, (hxs x hx).2.2.2.1⟩⟩
  · rw [slot_default]

/-- The rebuilt registry has the digests of the live one exactly when both rules for retries
agree on every digest that may still be released, and then it stands for the live one. -/
theorem rebuilt_alike
    (hrows : ∀ o ∈ outputs, ∀ b ∈ o.outputBatches, batches[b.digest]? = some b.batch)
    (hdigs : ∀ o ∈ outputs, o.digest ≠ 0 ∧ ∀ b ∈ o.outputBatches, b.digest ≠ 0) :
    let rebuilt := reconstructBatchDigests p'.chain batches p'.state p'.head.number
    ((∀ d, rebuilt.contains d = p'.registry.contains d) ↔
      ∀ d, RetryAgreesAt p'.state (executionsOf results) d) ∧
    ((∀ d, RetryAgreesAt p'.state (executionsOf results) d) →
      Alike p' (p'.withRegistry rebuilt)) := by
  have hnew : ∀ o ∈ outputs, ∀ b ∈ o.outputBatches, ∀ index,
      Known batches (prepare cfg o b index) :=
    fun o ho b hb _ => ⟨(hdigs o ho).1, (hdigs o ho).2 b hb, hrows o ho b hb⟩
  have hsettles := run_settles hspec h
  have hfree : ∀ d, p.registry.slot d = .free := by
    intro d
    rw [hp.registry, slot_default]
  have hxs : ∀ x ∈ executionsOf results, x.Counted ∧ batches[x.digest]? = some x.prepared.batch := by
    intro x hx
    obtain ⟨r, hr, hx⟩ := mem_flatMap.mp hx
    obtain ⟨hdr, -, hall⟩ := (run_blocks hspec (hp.sourced fun _ hq => hq) h hnew).outputs r hr
    rw [hdr] at hx
    exact ⟨(hall x hx).2.1, (hall x hx).2.2.2.2⟩
  have hone : ∀ d, _ := fun d => taken_eq_iff p'.state hxs (hfree d ▸ hsettles.attempts d)
  intro rebuilt
  have hreb : ∀ d, rebuilt.slot d = _ := fun d => slot_rebuilt hspec hp h htip hnew
  clear_value rebuilt
  have hiff : (∀ d, rebuilt.contains d = p'.registry.contains d) ↔
      ∀ d, RetryAgreesAt p'.state (executionsOf results) d := by
    refine forall_congr' fun d => eq_comm.trans ?_
    have hd := (hone d).1
    rw [← hreb d, ← hfree d, ← hsettles.slot d] at hd
    exact hd
  refine ⟨hiff, fun hagree => ⟨rfl, fun d => (hiff.mpr hagree d).symm, fun d hd => ?_⟩⟩
  have hslot := (hone d).2
  rw [← hreb d, ← hfree d, ← hsettles.slot d] at hslot
  exact congrArg Slot.returns (hslot (hiff.mpr hagree d).symm hd)

end

/-- After a run of fewer than two thousand blocks, with the bodies of all batches at hand: the
rebuilt registry has the digests of the live one exactly when both rules for retries agree on
every digest that may still be released. If they do, all later outputs yield the same blocks. -/
theorem rebuilt_agrees_iff (hspec : cfg.spec.AllActive) (hp : p.Fresh)
    {outputs : List ConsensusOutput} {results : List OutputResult}
    (h : p.run cfg outputs = .ok (results, p')) (htip : p'.head.number < digestReconstructionDepth)
    (hrows : ∀ o ∈ outputs, ∀ b ∈ o.outputBatches, batches[b.digest]? = some b.batch)
    (hdigests : ∀ o ∈ outputs, o.digest ≠ 0 ∧ ∀ b ∈ o.outputBatches, b.digest ≠ 0) :
    let rebuilt := reconstructBatchDigests p'.chain batches p'.state p'.head.number
    ((∀ d, rebuilt.contains d = p'.registry.contains d) ↔
      ∀ d, RetryAgreesAt p'.state (executionsOf results) d) ∧
    ((∀ d, RetryAgreesAt p'.state (executionsOf results) d) → ∀ later,
      ((p'.withRegistry rebuilt).run cfg later).map Prod.fst =
        (p'.run cfg later).map Prod.fst) := by
  obtain ⟨hiff, halike⟩ := rebuilt_alike hspec hp h htip hrows hdigests
  exact ⟨hiff, fun hagree later => ((halike hagree).run hspec later).symm⟩

end Processor

end

namespace Processor

/-- A batch ahead of its account that is retried, and one that is mined: the registries agree,
and so do all later outputs. -/
theorem rebuilt_agrees_iff_retried :
    letI := polynomial
    let ahead : Batch × Nat := (⟨[105], 1, 1, 7, 0, 1⟩, 11)
    let mined : Batch × Nat := (⟨[100], 1, 1, 7, 0, 2⟩, 12)
    let batches : Batches := .ofList [(11, ahead.1), (12, mined.1)]
    let outputs := [.ofBatches 1 2 [ahead, mined], .ofBatches 1 4 [ahead]]
    ∃ results p', initial.run .allActive outputs = .ok (results, p') ∧
      p'.registry.contains 11 = false ∧ p'.registry.contains 12 = true ∧
      ∀ later, ((p'.withRegistry (reconstructBatchDigests p'.chain batches p'.state
        p'.head.number)).run .allActive later).map Prod.fst =
          (p'.run .allActive later).map Prod.fst := by
  let _ := polynomial
  intro ahead mined batches outputs
  obtain ⟨results, p', hok, h11, h12, htip, hdigests⟩ : ∃ results p',
      initial.run .allActive outputs = .ok (results, p') ∧
        p'.registry.contains 11 = false ∧ p'.registry.contains 12 = true ∧
        p'.head.number < digestReconstructionDepth ∧
        (reconstructBatchDigests p'.chain batches p'.state p'.head.number).digests =
          p'.registry.digests := by
    decide +kernel
  have hrows : ∀ o ∈ outputs, ∀ b ∈ o.outputBatches, batches[b.digest]? = some b.batch := by
    decide +kernel
  have hagree := rebuilt_agrees_iff ChainSpec.allActive_spec ⟨rfl, rfl, rfl, rfl⟩ hok htip hrows
    (by decide +kernel)
  refine ⟨results, p', hok, h11, h12, hagree.2 (hagree.1.mp fun d => ?_)⟩
  exact congrArg (fun digests => digests.contains d) hdigests

/-- The transaction of account nine is not ahead and cannot be paid for. The live registry keeps
the digest, the rebuilt one releases it, and the batch comes back: one node skips it, the other
executes it. -/
theorem rebuilt_releases_unpayable :
    letI := polynomial
    let unpayable : Batch × Nat := (⟨[900], 1, 1, 7, 0, 1⟩, 11)
    let batches : Batches := .ofList [(11, unpayable.1)]
    let again := ConsensusOutput.ofBatches 1 4 [unpayable]
    ∃ results p', initial.run .allActive [.ofBatches 1 2 [unpayable]] =
        .ok (results, p') ∧
      let rebuilt := reconstructBatchDigests p'.chain batches p'.state p'.head.number
      p'.registry.contains 11 = true ∧ rebuilt.contains 11 = false ∧
        p'.verdicts again = some ([.duplicate], []) ∧
        (p'.withRegistry rebuilt).verdicts again = some ([.inOrder], [11]) := by
  decide +kernel

end Processor

end Axyl
