import Axyl.Processor.Closing
import Axyl.Worker.BuildBatch

/-! Sequence numbers up to the largest `u64`. Accepting and draining add one to them, and the
release profile aborts where that overflows. As long as no committed batch carries the largest
number, no run is stopped that way; validation does not exclude it. -/

namespace Axyl
open Fallible (Spec)
open Std (ExtTreeMap)

def maxSeq : Nat := 18446744073709551615

theorem nextSeq_of_lt {seq : Nat} (h : seq < maxSeq) : nextSeq seq = .ok (seq + 1) := by
  rw [nextSeq, if_pos]
  unfold maxSeq at h
  omega

namespace AuthoritySeqState

structure HasRoom (auth : AuthoritySeqState) : Prop where
  last : ∀ k, auth.lastExecutedSeq = some k → k < maxSeq
  parked : ∀ k ∈ auth.parked, k < maxSeq

theorem hasRoom_default : HasRoom .default := by
  refine ⟨?_, ?_⟩
  · intro k hk
    cases hk
  · intro k hk
    exact absurd hk ExtTreeMap.not_mem_empty

variable {auth : AuthoritySeqState}

theorem HasRoom.accepting (h : auth.HasRoom) {k : Nat} (hk : k < maxSeq) :
    (auth.accepting k).HasRoom := by
  refine ⟨?_, h.parked⟩
  rintro _ ⟨⟩
  apply max_lt ?_ hk
  cases hlast : auth.lastExecutedSeq with
  | none => exact hk
  | some last => exact h.last last hlast

variable {p : PreparedBatch}

theorem HasRoom.accept (h : auth.HasRoom) {k : Nat} (hk : k < maxSeq)
    {n : Bool} {res : AcceptResult} {auth' : AuthoritySeqState}
    (hacc : auth.Accept k p n res auth') : auth'.HasRoom := by
  cases hacc with
  | inOrder => exact h.accepting hk
  | parked =>
    refine ⟨h.last, ?_⟩
    intro j hj
    rcases ExtTreeMap.mem_insert.mp hj with hj | hj
    · rw [Nat.compare_eq_eq.mp hj] at hk
      exact hk
    · exact h.parked j hj
  | forced =>
    refine ⟨(h.accepting hk).last, ?_⟩
    intro j hj
    apply h.parked
    cases n with
    | true => exact ExtTreeMap.mem_of_mem_filter hj
    | false => exact hj

theorem kept_hasRoom (hp : p.batch.seq < maxSeq) (n : Bool) :
    Kept HasRoom (fun _ => False) p n where
  accept auth h := by
    refine (tryAccept_spec auth p.batch.seq p n).mono (fun r hr => h.accept hp hr) ?_
    intro e he
    rw [nextSeq_of_lt hp] at he
    cases he
  drain auth last h hlast := by
    rw [nextSeq_of_lt (h.last last hlast)]
    intro hmem
    refine ⟨?_, fun j hj => h.parked j (ExtTreeMap.mem_erase.mp hj).2⟩
    rintro _ ⟨⟩
    exact h.parked _ hmem

end AuthoritySeqState

def BatchOrderingState.HasRoom (o : BatchOrderingState) : Prop :=
  ∀ a, (o.get a).HasRoom

theorem BatchOrderingState.hasRoom_default : HasRoom .default :=
  fun _ => AuthoritySeqState.hasRoom_default

section
variable {σ : Type} [Evm σ] {cfg : ProcessorConfig} {e : EngineError}

theorem ExecState.executeParked_eq_error {v2 : Bool} {s : ExecState σ} {p : PreparedBatch}
    (h : s.executeParked cfg v2 p = .error e) : e = .reth := by
  unfold executeParked at h
  generalize (if v2 then s.registry.tryRegister p.batchDigest else (true, s.registry)) = r at h
  dsimp only at h
  split at h
  · split at h
    · rename_i hbui
      cases h
      exact buildBlockFromBatchPayload_eq_error hbui
    · cases h
  · cases h

namespace Processor

variable {p : Processor σ}

theorem drainAndExecuteEpochParked_ne_seqOverflow {parked : List PreparedBatch} {v2 n : Bool}
    (h : p.drainAndExecuteEpochParked cfg parked v2 n = .error e) : e ≠ .seqOverflow := by
  unfold drainAndExecuteEpochParked at h
  split at h
  · cases h
  · obtain ⟨s, q, hq⟩ := Machine.exists_of_run_eq_error h
    rw [ExecState.executeParked_eq_error hq]
    exact nofun

variable [HashFunction] {o : ConsensusOutput}

def SeqsBelowMax (o : ConsensusOutput) : Prop := ∀ b ∈ o.outputBatches, b.batch.seq < maxSeq

omit [Evm σ] in
theorem collect_batches (cfg : ProcessorConfig) (h : p.ordering.HasRoom) (ho : SeqsBelowMax o)
    (registry : ExecutedBatchRegistry) (v2 n : Bool) :
    Spec (fun r => r.2.ordering.HasRoom) (fun _ => False)
      (Machine.run (CollectState.collect v2 n) ⟨registry, (p.ordering.drainEpoch o.epoch).2⟩
        (preparedBatches cfg o n)) := by
  have hinit := BatchOrderingState.Within.drainEpoch h AuthoritySeqState.hasRoom_default o.epoch
  refine (Machine.run_spec (I := fun s : CollectState => s.ordering.Within _ _) ?_ hinit).mono
    (fun r hr => hr.2) fun _ he => he
  intro q hq s hs
  obtain ⟨b, hb, index, rfl⟩ := mem_preparedBatches hq
  exact CollectState.within_collect (AuthoritySeqState.kept_hasRoom (ho b hb) n) hs v2

theorem hasRoom_executeConsensusOutput (h : p.ordering.HasRoom) (ho : SeqsBelowMax o) :
    Spec (fun r => r.2.ordering.HasRoom) (· ≠ .seqOverflow) (p.executeConsensusOutput cfg o) := by
  refine .bind (Spec.of_error fun e => drainAndExecuteEpochParked_ne_seqOverflow) ?_
  rintro ⟨drained, s⟩ -
  dsimp only
  split
  · exact nofun
  · refine .bind ((collect_batches cfg h ho s.registry _ _).mono (fun _ hr => hr) nofun) ?_
    rintro ⟨outcomes, c⟩ hroom
    refine .bind (Spec.of_error ?_) ?_
    · intro e he
      obtain ⟨s', x, hx⟩ := Machine.exists_of_run_eq_error he
      rw [ExecState.execute_eq_error hx]
      exact nofun
    · rintro ⟨executions, s'⟩ -
      refine .bind ((fallbackBlock_spec cfg o _ _ s').mono (fun _ _ => trivial) ?_) ?_
      · rintro e (rfl | rfl) <;> exact nofun
      rintro ⟨fallback, s''⟩ -
      split
      · exact nofun
      · exact hroom

theorem hasRoom_run (cfg : ProcessorConfig) (h : p.ordering.HasRoom)
    {outputs : List ConsensusOutput} (hseqs : ∀ o ∈ outputs, SeqsBelowMax o) :
    Spec (fun r => r.2.ordering.HasRoom) (· ≠ .seqOverflow) (p.run cfg outputs) := by
  refine Machine.run_spec (I := fun p : Processor σ => p.ordering.HasRoom) ?_ h
  intro o ho p hp
  exact hasRoom_executeConsensusOutput hp (hseqs o ho)

/-- Committed batches below the largest sequence number never abort a run, and after every part
of it the batches of the next output are collected. -/
theorem run_never_seqOverflow {p : Processor σ} (hstart : p.ordering = .default)
    {outputs : List ConsensusOutput} (hseqs : ∀ o ∈ outputs, SeqsBelowMax o) :
    p.run cfg outputs ≠ .error .seqOverflow ∧
      ∀ earlier o later results p', outputs = earlier ++ o :: later →
        p.run cfg earlier = .ok (results, p') → ∀ registry v2 n, ∃ outcomes s,
          Machine.run (CollectState.collect v2 n)
            ⟨registry, (p'.ordering.drainEpoch o.epoch).2⟩ (preparedBatches cfg o n) =
              .ok (outcomes, s) := by
  have hroom : p.ordering.HasRoom := by
    rw [hstart]
    exact BatchOrderingState.hasRoom_default
  constructor
  · intro hrun
    have hspec := hasRoom_run cfg hroom hseqs
    rw [hrun] at hspec
    exact hspec rfl
  · rintro earlier o later results p' rfl hrun registry v2 n
    have hearlier : ∀ o ∈ earlier, SeqsBelowMax o := fun o ho =>
      hseqs o (List.mem_append_left _ ho)
    have hspec := hasRoom_run cfg hroom hearlier
    rw [hrun] at hspec
    have ho : SeqsBelowMax o := hseqs o (List.mem_append_right _ List.mem_cons_self)
    obtain ⟨⟨outcomes, s⟩, hs, -⟩ := (collect_batches cfg hspec ho registry v2 n).exists_ok
    exact ⟨outcomes, s, hs⟩

end Processor

end

/-- The two largest numbers below it, one output after the other. -/
theorem Processor.run_never_seqOverflow_last :
    letI := HashFunction.polynomial
    let outputs := [ConsensusOutput.ofBatches 1 2 [numbered (maxSeq - 2) 11],
      ConsensusOutput.ofBatches 1 4 [numbered (maxSeq - 1) 12]]
    Processor.initial.run .allActive outputs ≠ .error .seqOverflow := by
  let _ := HashFunction.polynomial
  intro outputs
  refine (run_never_seqOverflow rfl ?_).1
  have hseqs : ∀ o ∈ outputs, ∀ b ∈ o.outputBatches, b.batch.seq < maxSeq := by
    decide +kernel
  exact hseqs

/-- The largest number: the batch passes validation, and executing the output that carries it
aborts before anything else of the run. -/
theorem Processor.run_seqOverflow_maxSeq :
    letI : HashFunction := .polynomial
    letI : TransactionCodec := .transfers
    let sealed := (⟨[100], 1, 1, 7, 0, maxSeq⟩ : Batch).sealSlow
    ((BatchValidator.new 0 1 30000000).validateBatch ⟨false, 7, 0⟩ sealed).1 = .ok () ∧
      Processor.initial.run .allActive
        [ConsensusOutput.ofBatches 1 2 [(sealed.batch, sealed.digest)]] = .error .seqOverflow := by
  let _ : HashFunction := .polynomial
  let _ : TransactionCodec := .transfers
  intro sealed
  refine ⟨by decide +kernel, Fallible.eq_error_of_failure ?_⟩
  decide +kernel

end Axyl
