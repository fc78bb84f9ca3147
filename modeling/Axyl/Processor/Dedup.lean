import Axyl.Processor.Collect

/-! With every fork active a batch is executed once for its first registration and once more
for each release of its digest, and never again after a block with a transaction. -/

namespace Axyl
open List ExecutedBatchRegistry Execution Machine

namespace Execution

def allNonceTooHigh (x : Execution) : Bool :=
  x.prepared.batch.transactions.length == x.validationCounts.nonceTooHigh

def Counted (x : Execution) : Prop :=
  x.block.transactions.length + x.validationCounts.total = x.prepared.batch.transactions.length

theorem Counted.eq_nil {x : Execution} (h : x.Counted) (hall : x.allNonceTooHigh) :
    x.block.transactions = [] := by
  unfold allNonceTooHigh at hall
  rw [Nat.beq_eq_true_eq] at hall
  unfold Counted TxValidationCounts.total at h
  apply length_eq_zero_iff.mp
  omega

end Execution

def executionCount (xs : List Execution) (d : Nat) : Nat := xs.countP fun x => x.digest == d

def releaseCount (xs : List Execution) (d : Nat) : Nat :=
  xs.countP fun x => x.digest == d && x.released

theorem executionCount_append (xs ys : List Execution) (d : Nat) :
    executionCount (xs ++ ys) d = executionCount xs d + executionCount ys d :=
  countP_append

theorem releaseCount_append (xs ys : List Execution) (d : Nat) :
    releaseCount (xs ++ ys) d = releaseCount xs d + releaseCount ys d :=
  countP_append

theorem releaseCount_le (xs : List Execution) (d : Nat) :
    releaseCount xs d ≤ executionCount xs d := by
  apply countP_mono_left
  intro x _ hx
  exact (Bool.and_eq_true_iff.mp hx).1

theorem executionCount_eq_count (xs : List Execution) (d : Nat) :
    executionCount xs d = ((xs.map prepared).map PreparedBatch.batchDigest).count d := by
  rw [map_map, count_eq_countP, countP_map]
  rfl

variable {xs : List Execution}

theorem not_mem_of_executionCount_eq_zero {d : Nat}
    (h : executionCount xs d = 0) {x : Execution} (hx : x ∈ xs) : x.digest ≠ d := by
  intro hd
  exact countP_eq_zero.mp h x hx (beq_iff_eq.mpr hd)

theorem releaseCount_lt {x : Execution} (hx : x ∈ xs)
    (hr : x.released = false) : releaseCount xs x.digest < executionCount xs x.digest := by
  obtain ⟨pre, post, rfl⟩ := append_of_mem hx
  have hpre := releaseCount_le pre x.digest
  have hpost := releaseCount_le post x.digest
  rw [executionCount_append, releaseCount_append]
  simp only [executionCount, releaseCount, countP_cons, hr, beq_self_eq_true, Bool.and_false,
    if_true] at hpre hpost ⊢
  simp only [Bool.false_eq_true, if_false]
  omega

def attemptsOf (xs : List Execution) (d : Nat) : List Bool :=
  (xs.filter fun x => x.digest == d).map allNonceTooHigh

theorem attemptsOf_append (xs ys : List Execution) (d : Nat) :
    attemptsOf (xs ++ ys) d = attemptsOf xs d ++ attemptsOf ys d := by
  rw [attemptsOf, filter_append, map_append]
  rfl

theorem length_attemptsOf (xs : List Execution) (d : Nat) :
    (attemptsOf xs d).length = executionCount xs d := by
  rw [attemptsOf, length_map, executionCount, countP_eq_length_filter]

structure Settles (reg : ExecutedBatchRegistry) (xs : List Execution)
    (reg' : ExecutedBatchRegistry) : Prop where
  balance : ∀ d, executionCount xs d + (reg.contains d).toNat =
    releaseCount xs d + (reg'.contains d).toNat
  retry : ∀ d, reg'.retryCount d = reg.retryCount d + releaseCount xs d
  retry_le : ∀ d, reg'.retryCount d ≤ max (reg.retryCount d) maxNonceTooHighRetries
  registered : ∀ d, reg.contains d → executionCount xs d = 0
  again : xs.Pairwise fun x y => x.digest = y.digest → x.block.transactions = []
  released : ∀ x ∈ xs, x.released → x.block.transactions = []
  slot : ∀ d, reg'.slot d =
    (attemptsOf xs d).foldl (Slot.attempt maxNonceTooHighRetries) (reg.slot d)
  attempts : ∀ d, Slot.Attempts maxNonceTooHighRetries (reg.slot d) (attemptsOf xs d)

namespace Settles

variable {reg reg' reg'' : ExecutedBatchRegistry} {xs ys : List Execution} {d : Nat}

theorem refl (reg : ExecutedBatchRegistry) : Settles reg [] reg where
  balance _ := rfl
  retry _ := rfl
  retry_le _ := le_max_left _ _
  registered _ _ := rfl
  again := .nil
  released _ hx := absurd hx not_mem_nil
  slot _ := rfl
  attempts _ := trivial

section
variable (h : Settles reg xs reg')
include h

theorem contains_mono (hd : reg.contains d) : reg'.contains d := by
  have hle := releaseCount_le xs d
  have hbal := h.balance d
  rw [hd] at hbal
  cases hc : reg'.contains d with
  | true => rfl
  | false =>
    rw [hc, Bool.toNat_true, Bool.toNat_false] at hbal
    omega

theorem contains_of_not_released {x : Execution} (hx : x ∈ xs) (hr : x.released = false) :
    reg'.contains x.digest := by
  have hlt := releaseCount_lt hx hr
  have hbal := h.balance x.digest
  cases hc : reg'.contains x.digest with
  | true => rfl
  | false =>
    rw [hc, Bool.toNat_false] at hbal
    omega

theorem append (h' : Settles reg' ys reg'') : Settles reg (xs ++ ys) reg'' := by
  refine ⟨fun d => ?_, fun d => ?_, fun d => ?_, fun d hd => ?_, ?_, fun x hx => ?_,
    fun d => ?_, fun d => ?_⟩
  · rw [executionCount_append, releaseCount_append]
    have h₁ := h.balance d
    have h₂ := h'.balance d
    omega
  · rw [releaseCount_append, h'.retry, h.retry, add_assoc]
  · have h₁ := h.retry_le d
    have h₂ := h'.retry_le d
    omega
  · rw [executionCount_append, h.registered d hd, h'.registered d (h.contains_mono hd)]
  · refine pairwise_append.mpr ⟨h.again, h'.again, fun x hx y hy hxy => ?_⟩
    cases hr : x.released with
    | true => exact h.released x hx hr
    | false =>
      have hzero := h'.registered x.digest (h.contains_of_not_released hx hr)
      exact absurd hxy.symm (not_mem_of_executionCount_eq_zero hzero hy)
  · exact (mem_append.mp hx).elim (h.released x) (h'.released x)
  · rw [attemptsOf_append, foldl_append, h'.slot, h.slot]
  · rw [attemptsOf_append, Slot.attempts_append, ← h.slot]
    exact ⟨h.attempts d, h'.attempts d⟩

theorem executionCount_le (d : Nat) : executionCount xs d ≤ 1 + releaseCount xs d := by
  have := h.balance d
  have := Bool.toNat_le (reg'.contains d)
  omega

theorem releaseCount_le_max (d : Nat) : releaseCount xs d ≤ maxNonceTooHighRetries := by
  have h₁ := h.retry d
  have h₂ := h.retry_le d
  omega

end

end Settles

section
variable {σ : Type} {cfg : ProcessorConfig} {s s' : ExecState σ}

structure Executes (cfg : ProcessorConfig) (s : ExecState σ) (p : PreparedBatch) (x : Execution)
    (s' : ExecState σ) : Prop where
  prepared : x.prepared = p
  counted : x.Counted
  head : s'.head = x.block.header
  block : ∃ closeEpoch baseFee gasUsed committed,
    x.block = cfg.spec.assembleBlock (p.buildPayload s.head closeEpoch baseFee) gasUsed committed
  released_iff : x.released = true ↔
    x.allNonceTooHigh ∧ s.registry.retryCount p.batchDigest < maxNonceTooHighRetries
  contains : ∀ d, s'.registry.contains d =
    (s.registry.contains d && !(x.released && p.batchDigest == d))
  retry : ∀ d, s'.registry.retryCount d =
    s.registry.retryCount d + (x.released && p.batchDigest == d).toNat

variable {x : Execution}

theorem ExecState.execute_spec [Evm σ] {y : PreparedBatch × Option Nat}
    (h : s.execute cfg true y = .ok (x, s')) : Executes cfg s y.1 x s' := by
  unfold execute at h
  split at h
  · cases h
  · rename_i block counts state hbui
    obtain ⟨⟨gasUsed, committed, hblk⟩, hcnt⟩ := buildBlockFromBatchPayload_spec hbui
    have hblk' : ∃ closeEpoch baseFee gasUsed committed, block =
        cfg.spec.assembleBlock (y.1.buildPayload s.head closeEpoch baseFee) gasUsed committed :=
      ⟨_, _, gasUsed, committed, hblk⟩
    split at h
    · rename_i hall
      have hall' : (y.1.batch.transactions.length == counts.nonceTooHigh) = true :=
        beq_iff_eq.mpr hall.2
      rcases lt_or_ge (s.registry.retryCount y.1.batchDigest) maxNonceTooHighRetries
        with hlt | hge
      · obtain ⟨h₁, h₂, h₃⟩ := dropDigest_of_lt hlt
        generalize s.registry.dropDigest y.1.batchDigest = drop at h h₁ h₂ h₃
        cases h
        refine ⟨rfl, hcnt, rfl, hblk', ?_, fun d => ?_, fun d => ?_⟩
        · simp only [h₁, allNonceTooHigh, hall', hlt, and_self]
        · rw [h₁, h₂, Bool.and_comm]
          rfl
        · rw [h₁, h₃]
          by_cases hd : y.1.batchDigest = d <;> simp [hd]
      · obtain ⟨h₁, h₂, h₃⟩ := dropDigest_of_le hge
        generalize s.registry.dropDigest y.1.batchDigest = drop at h h₁ h₂ h₃
        cases h
        refine ⟨rfl, hcnt, rfl, hblk', ?_, fun d => ?_, fun d => ?_⟩
        · simp only [h₁, Bool.false_eq_true, false_iff, not_and, not_lt]
          exact fun _ => hge
        · simp [h₁, h₂]
        · simp [h₁, h₃]
    · rename_i hall
      cases h
      refine ⟨rfl, hcnt, rfl, hblk', ?_, fun d => by simp, fun d => by simp⟩
      simp only [Bool.false_eq_true, false_iff, not_and, allNonceTooHigh]
      intro hx
      exact absurd ⟨rfl, beq_iff_eq.mp hx⟩ hall

variable {p : PreparedBatch}

section
variable (h : Executes cfg s p x s')
include h

theorem Executes.digest : x.digest = p.batchDigest := congrArg PreparedBatch.batchDigest h.prepared

theorem Executes.releaseCount_add (hreg : s.registry.contains p.batchDigest) (d : Nat) :
    releaseCount [x] d + (s'.registry.contains d).toNat = (s.registry.contains d).toNat := by
  have hx := h.digest
  rw [h.contains]
  by_cases hd : p.batchDigest = d
  · subst hd
    cases hr : x.released <;> simp [releaseCount, hx, hr, hreg]
  · simp [releaseCount, hx, beq_false_of_ne hd]

theorem Executes.retry_eq (d : Nat) :
    s'.registry.retryCount d = s.registry.retryCount d + releaseCount [x] d := by
  have hx := h.digest
  rw [h.retry]
  simp only [releaseCount, countP_singleton, hx]
  cases hr : x.released <;> cases he : p.batchDigest == d <;> rfl

theorem Executes.retry_le (d : Nat) :
    s'.registry.retryCount d ≤ max (s.registry.retryCount d) maxNonceTooHighRetries := by
  rw [h.retry]
  cases hr : x.released with
  | false => simp
  | true =>
    have hlt := (h.released_iff.mp hr).2
    by_cases he : p.batchDigest = d
    · subst he
      simp only [Bool.true_and, beq_self_eq_true, Bool.toNat_true]
      omega
    · simp [he]

theorem Executes.slot (hreg : s.registry.contains p.batchDigest) (d : Nat) : s'.registry.slot d =
      (attemptsOf [x] d).foldl (Slot.attempt maxNonceTooHighRetries) (s.registry.slot d) := by
  have hx := h.digest
  rw [ExecutedBatchRegistry.slot, h.contains, h.retry]
  by_cases hd : p.batchDigest = d
  · subst hd
    have hone : attemptsOf [x] p.batchDigest = [x.allNonceTooHigh] := by
      simp [attemptsOf, hx]
    rw [hone, foldl_cons, Slot.attempt, hreg]
    cases hall : x.allNonceTooHigh with
    | false =>
      have hr : x.released = false := Bool.eq_false_iff.mpr fun hr =>
        Bool.false_ne_true (hall.symm.trans (h.released_iff.mp hr).1)
      simp [hr, ExecutedBatchRegistry.slot]
    | true =>
      rcases lt_or_ge (s.registry.retryCount p.batchDigest) maxNonceTooHighRetries
        with hlt | hge
      · have hr : x.released = true := h.released_iff.mpr ⟨hall, hlt⟩
        simp [hr, ExecutedBatchRegistry.slot, Nat.not_le.mpr hlt]
      · have hr : x.released = false := Bool.eq_false_iff.mpr fun hr =>
          absurd (h.released_iff.mp hr).2 (by omega)
        simp [hr, ExecutedBatchRegistry.slot, hge]
  · simp [attemptsOf, hx, beq_false_of_ne hd, ExecutedBatchRegistry.slot]

end

structure ExecutesAll (s : ExecState σ) (ps : List PreparedBatch) (xs : List Execution)
    (s' : ExecState σ) : Prop where
  prepared : xs.map prepared = ps
  balance : ∀ d, releaseCount xs d + (s'.registry.contains d).toNat = (s.registry.contains d).toNat
  retry : ∀ d, s'.registry.retryCount d = s.registry.retryCount d + releaseCount xs d
  retry_le : ∀ d, s'.registry.retryCount d ≤
    max (s.registry.retryCount d) maxNonceTooHighRetries
  released : ∀ x ∈ xs, x.released → x.block.transactions = []
  slot : ∀ d, s'.registry.slot d =
    (attemptsOf xs d).foldl (Slot.attempt maxNonceTooHighRetries) (s.registry.slot d)

theorem ExecutesAll.nil (s : ExecState σ) : ExecutesAll s [] [] s where
  prepared := rfl
  balance _ := zero_add _
  retry _ := rfl
  retry_le _ := le_max_left _ _
  released _ hx := absurd hx not_mem_nil
  slot _ := rfl

variable {xs : List Execution}

theorem ExecutesAll.cons {s₁ : ExecState σ} {p : PreparedBatch} {ps : List PreparedBatch}
    {x : Execution} (hx : Executes cfg s p x s₁) (hin : s.registry.contains p.batchDigest)
    (h : ExecutesAll s₁ ps xs s') : ExecutesAll s (p :: ps) (x :: xs) s' := by
  have hspl : ∀ d, releaseCount (x :: xs) d = releaseCount [x] d + releaseCount xs d :=
    fun d => releaseCount_append [x] xs d
  refine ⟨by rw [map_cons, hx.prepared, h.prepared], fun d => ?_, fun d => ?_, fun d => ?_, ?_,
    fun d => ?_⟩
  · have h₁ := hx.releaseCount_add hin d
    have h₂ := h.balance d
    rw [hspl]
    omega
  · rw [hspl, h.retry, hx.retry_eq, add_assoc]
  · have h₁ := hx.retry_le d
    have h₂ := h.retry_le d
    omega
  · refine forall_mem_cons.mpr ⟨fun hr => ?_, h.released⟩
    exact hx.counted.eq_nil (hx.released_iff.mp hr).1
  · have hfst : attemptsOf (x :: xs) d = attemptsOf [x] d ++ attemptsOf xs d :=
      attemptsOf_append [x] xs d
    rw [hfst, foldl_append, ← hx.slot hin, h.slot]

theorem ExecState.run_execute_spec [Evm σ] {ys : List (PreparedBatch × Option Nat)}
    (h : run (ExecState.execute cfg true) s ys = .ok (xs, s'))
    (hreg : ∀ d, ((ys.map Prod.fst).map PreparedBatch.batchDigest).count d ≤
      (s.registry.contains d).toNat) : ExecutesAll s (ys.map Prod.fst) xs s' := by
  induction ys generalizing s xs with
  | nil =>
    cases h
    exact .nil _
  | cons y ys ih =>
    obtain ⟨x, s₁, xs, hstep, hrest, rfl⟩ := run_cons_eq_ok.mp h
    have hx := execute_spec hstep
    simp only [map_cons, count_cons] at hreg
    have hin : s.registry.contains y.1.batchDigest := by
      have hpos := hreg y.1.batchDigest
      have hle := Bool.toNat_le (s.registry.contains y.1.batchDigest)
      rw [beq_self_eq_true, if_pos rfl] at hpos
      exact Bool.toNat_eq_one.mp (by omega)
    refine .cons hx hin (ih hrest fun d => ?_)
    have hd := hreg d
    have hle := Bool.toNat_le (s.registry.contains d)
    rw [hx.contains]
    by_cases he : y.1.batchDigest = d
    · rw [if_pos (beq_iff_eq.mpr he)] at hd
      omega
    · simpa [beq_false_of_ne he] using hd

namespace ExecutesAll

variable {reg : ExecutedBatchRegistry} {ps : List PreparedBatch} {xs : List Execution}

section
variable (h : ExecutesAll s ps xs s')
include h

section
variable (hreg : Registers reg ps s.registry)
include hreg

theorem executionCount_add (d : Nat) :
    executionCount xs d + (reg.contains d).toNat = (s.registry.contains d).toNat := by
  rw [executionCount_eq_count, h.prepared]
  exact hreg.count d

theorem executionCount_eq_zero {d : Nat} (hd : reg.contains d) : executionCount xs d = 0 := by
  rw [executionCount_eq_count, h.prepared]
  exact count_eq_zero.mpr (hreg.not_mem_of_contains hd)

theorem nodup_digests : (xs.map digest).Nodup := by
  apply nodup_iff_count_le_one.mpr
  intro d
  have hd := h.executionCount_add hreg d
  have hle := Bool.toNat_le (s.registry.contains d)
  rw [executionCount_eq_count, map_map] at hd
  change (xs.map digest).count d + _ = _ at hd
  omega

theorem attemptsOf_cases (d : Nat) :
    (attemptsOf xs d = [] ∧ reg.contains d = s.registry.contains d) ∨
      ∃ back, attemptsOf xs d = [back] ∧ reg.contains d = false := by
  have hlen := length_attemptsOf xs d
  have hd := h.executionCount_add hreg d
  cases hatt : attemptsOf xs d with
  | nil =>
    rw [← hlen, hatt] at hd
    cases h₁ : reg.contains d <;> cases h₂ : s.registry.contains d <;> simp [h₁, h₂] at hd ⊢
  | cons back rest =>
    rw [hatt, length_cons] at hlen
    have hle := Bool.toNat_le (s.registry.contains d)
    have hrest : rest = [] := length_eq_zero_iff.mp (by omega)
    refine .inr ⟨back, by rw [hrest], Bool.eq_false_iff.mpr fun hc => ?_⟩
    have := h.executionCount_eq_zero hreg hc
    omega

theorem settles : Settles reg xs s'.registry := by
  refine ⟨fun d => ?_, fun d => ?_, fun d => ?_, fun d => h.executionCount_eq_zero hreg, ?_,
    h.released, fun d => ?_, fun d => ?_⟩
  · have h₁ := h.executionCount_add hreg d
    have h₂ := h.balance d
    omega
  · rw [h.retry, hreg.retry]
  · rw [← hreg.retry]
    exact h.retry_le d
  · exact (pairwise_map.mp (h.nodup_digests hreg)).imp fun hne heq => absurd heq hne
  · have hreturns : (s.registry.slot d).returns = (reg.slot d).returns := hreg.retry d
    rw [h.slot]
    obtain ⟨hatt, hsame⟩ | ⟨back, hatt, -⟩ := h.attemptsOf_cases hreg d
    · rw [ExecutedBatchRegistry.slot, hreg.retry, ← hsame]
      rfl
    · rw [hatt, foldl_cons, foldl_cons, Slot.attempt_congr hreturns]
  · obtain ⟨hatt, -⟩ | ⟨back, hatt, hfree⟩ := h.attemptsOf_cases hreg d
    · rw [hatt]
      trivial
    · rw [hatt]
      exact ⟨hfree, trivial⟩

end

end

end ExecutesAll

end

theorem CollectState.run_collect_registers {s s' : CollectState} {ps : List PreparedBatch}
    {outs : List Collected} (h : run (CollectState.collect true true) s ps = .ok (outs, s')) :
    Registers s.registry (outs.flatMap Collected.batches) s'.registry := by
  induction ps generalizing s outs with
  | nil =>
    cases h
    exact .refl _
  | cons p ps ih =>
    obtain ⟨c, s₁, rest, hstep, hrest, rfl⟩ := run_cons_eq_ok.mp h
    exact (collect_spec hstep).registers.append (ih hrest)

def executionsOf (results : List OutputResult) : List Execution :=
  results.flatMap fun r => r.drained ++ r.executions

namespace Processor

section
variable {σ : Type} [Evm σ] [HashFunction] {cfg : ProcessorConfig} {p p' : Processor σ}
    {o : ConsensusOutput}

theorem Phases.Valid.executesAll {φ : Phases cfg p o} (h : φ.Valid) (hspec : cfg.spec.AllActive) :
    Registers p.registry φ.collected φ.afterCollect.registry ∧
      ExecutesAll ⟨φ.afterCollect.registry, p.head, p.state⟩ φ.collected φ.executions
        φ.afterExecute := by
  have hreg := CollectState.run_collect_registers (h.collect_of_allActive hspec)
  refine ⟨hreg, ?_⟩
  have hall := ExecState.run_execute_spec (h.execute_of_allActive hspec) fun d => by
    rw [map_fst_withCloseEpoch]
    have := hreg.count d
    exact Nat.le.intro this
  rwa [map_fst_withCloseEpoch] at hall

theorem executeConsensusOutput_settles (hspec : cfg.spec.AllActive)
    {r : OutputResult} (h : p.executeConsensusOutput cfg o = .ok (r, p')) :
    Settles p.registry (r.drained ++ r.executions) p'.registry := by
  obtain ⟨φ, hφ, rfl, rfl⟩ := phases_of_executeConsensusOutput h
  obtain ⟨hreg, hall⟩ := hφ.executesAll hspec
  rw [hφ.result_drained hspec]
  change Settles p.registry φ.executions φ.afterFallback.registry
  rw [(fallback_of_ok hφ.fallbackBlock).registry]
  exact hall.settles hreg

theorem run_settles (hspec : cfg.spec.AllActive) {outs : List ConsensusOutput}
    {results : List OutputResult} (h : p.run cfg outs = .ok (results, p')) :
    Settles p.registry (executionsOf results) p'.registry := by
  induction outs generalizing p results with
  | nil =>
    cases h
    exact .refl _
  | cons o outs ih =>
    obtain ⟨r, p₁, rest, hstep, hrest, rfl⟩ := run_cons_eq_ok.mp h
    exact (executeConsensusOutput_settles hspec hstep).append (ih hrest)

/-- From any state, and whatever the outputs repeat: a digest is executed at most once more
than it was released, at most four times, and not again once its block had a transaction. -/
theorem run_executions_bounded (hspec : cfg.spec.AllActive) {outputs : List ConsensusOutput}
    {results : List OutputResult} (h : p.run cfg outputs = .ok (results, p')) :
    (∀ d, executionCount (executionsOf results) d ≤ 1 + releaseCount (executionsOf results) d) ∧
    (∀ d, executionCount (executionsOf results) d ≤ 4) ∧
    (executionsOf results).Pairwise fun x y => x.digest = y.digest → x.block.transactions = [] := by
  have hs := run_settles hspec h
  refine ⟨hs.executionCount_le, fun d => ?_, hs.again⟩
  calc executionCount (executionsOf results) d
      ≤ 1 + releaseCount (executionsOf results) d := hs.executionCount_le d
    _ ≤ 1 + maxNonceTooHighRetries := Nat.add_le_add_left (hs.releaseCount_le_max d) 1

end

/-- A batch that is always ahead of its account is executed four times and then kept out; one
with a transaction that succeeds is executed once, however often it comes back. -/
theorem run_executions_bounded_reproposed :
    letI := HashFunction.polynomial
    let ahead : Batch × Nat := (⟨[105], 1, 1, 7, 0, 1⟩, 11)
    let mined : Batch × Nat := (⟨[100], 1, 1, 7, 0, 2⟩, 12)
    let outputs := [2, 4, 6, 8, 10].map fun round => ConsensusOutput.ofBatches 1 round [ahead, mined]
    ∃ results p', initial.run .allActive outputs = .ok (results, p') ∧
      executionCount (executionsOf results) 11 = 4 ∧ releaseCount (executionsOf results) 11 = 3 ∧
      executionCount (executionsOf results) 12 = 1 ∧
      (∀ d, executionCount (executionsOf results) d ≤ 4) := by
  let _ := HashFunction.polynomial
  intro ahead mined outputs
  obtain ⟨results, p', hok, h11, hreleased, h12⟩ : ∃ results p',
      initial.run .allActive outputs = .ok (results, p') ∧
        executionCount (executionsOf results) 11 = 4 ∧
        releaseCount (executionsOf results) 11 = 3 ∧
        executionCount (executionsOf results) 12 = 1 := by
    decide +kernel
  exact ⟨results, p', hok, h11, hreleased, h12,
    (run_executions_bounded ChainSpec.allActive_spec hok).2.1⟩

end Processor

end Axyl
