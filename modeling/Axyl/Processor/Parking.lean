import Axyl.Processor.Dedup

/-! Within an epoch every batch that is not a duplicate is executed or stays parked, unless an
overflow jump passes it, as long as no two batches meet under one sequence number. -/

namespace Axyl
open List Machine CollectState OutputResult
open Trace (Run)

namespace CollectState

def seqFree (s : CollectState) (p : PreparedBatch) : Bool :=
  s.registry.contains p.batchDigest ||
    (s.ordering.parked p.beneficiary)[p.batch.seq]?.all fun q => q.batchDigest == p.batchDigest

def Waits (s : CollectState) (a k d : Nat) : Prop :=
  s.registry.contains d = false ∧ ∃ q, (s.ordering.parked a)[k]? = some q ∧ q.batchDigest = d

end CollectState

def JumpsOver (a k : Nat) (l : PreparedBatch × Disposition) : Prop :=
  l.2 = .overflowForced ∧ l.1.beneficiary = a ∧ k < l.1.batch.seq

def EndsWait (a k d : Nat) (l : PreparedBatch × Collected) : Prop :=
  d ∈ l.2.batches.map PreparedBatch.batchDigest ∨ JumpsOver a k (l.1, l.2.disposition)

namespace Collects

variable {s s' : CollectState} {p : PreparedBatch} {c : Collected} {a k d : Nat}
    (h : Collects s p c s')
include h

theorem waits_of_parked (hd : s.registry.contains d = false)
    (hpark : ∃ q, (s'.ordering.parked a)[k]? = some q ∧ q.batchDigest = d) :
    s'.Waits a k d ∨ d ∈ c.batches.map PreparedBatch.batchDigest := by
  cases hc : s'.registry.contains d with
  | false => exact .inl ⟨hc, hpark⟩
  | true => exact .inr (h.registers.mem_of_contains hd hc)

theorem not_contains (hdup : c.disposition ≠ .duplicate) : s.registry.contains p.batchDigest = false :=
  Bool.eq_false_iff.mpr fun hc => hdup (h.duplicate_iff.mpr hc)

theorem waits (hfree : s.seqFree p) (hw : s.Waits a k d) :
    s'.Waits a k d ∨ EndsWait a k d (p, c) := by
  obtain ⟨hd, q, hq, rfl⟩ := hw
  have hsame : c.disposition ≠ .duplicate → a = p.beneficiary → k = p.batch.seq →
      q.batchDigest = p.batchDigest := by
    rintro hdup rfl rfl
    simpa [seqFree, h.not_contains hdup, hq] using hfree
  rcases h.parkedTo a k q hq with hstill | hreg | ⟨ha, hk, hp, hdisp⟩ | ⟨ha, hk, hdisp⟩
  · exact (h.waits_of_parked hd ⟨q, hstill, rfl⟩).imp_right .inl
  · exact .inr (.inl (h.registers.mem_of_contains hd hreg))
  · exact (h.waits_of_parked hd ⟨p, hp, (hsame (by simp [hdisp]) ha hk).symm⟩).imp_right .inl
  · rcases Nat.lt_or_ge k p.batch.seq with hlt | hge
    · exact .inr (.inr ⟨hdisp, ha.symm, hlt⟩)
    · have hk' : k = p.batch.seq := by omega
      have heq := hsame (by simp [hdisp]) ha hk'
      rcases h.placed (by simp [hdisp]) with hmem | hpark
      · exact .inr (.inl (heq ▸ mem_map_of_mem hmem))
      · subst ha hk'
        exact (h.waits_of_parked hd ⟨p, hpark, heq.symm⟩).imp_right .inl

theorem begins (hdup : c.disposition ≠ .duplicate) :
    s'.Waits p.beneficiary p.batch.seq p.batchDigest ∨
      p.batchDigest ∈ c.batches.map PreparedBatch.batchDigest := by
  rcases h.placed hdup with hmem | hpark
  · exact .inr (mem_map_of_mem hmem)
  · exact h.waits_of_parked (h.not_contains hdup) ⟨p, hpark, rfl⟩

end Collects

abbrev FreeRun : CollectState → List (PreparedBatch × Collected) → CollectState → Prop :=
  Run fun s l t => Machine.Step (collect true true) s l t ∧ s.seqFree l.1

theorem FreeRun.waits {s s' : CollectState} {log : List (PreparedBatch × Collected)}
    (h : FreeRun s log s') {a k d : Nat} (hw : s.Waits a k d) :
    s'.Waits a k d ∨ ∃ l ∈ log, EndsWait a k d l :=
  Run.holds_or_emits (P := fun s => s.Waits a k d) h
    (fun _ _ _ _ hstep => (collect_spec hstep.1).waits hstep.2) hw

namespace Processor

section
variable {σ : Type} [Evm σ] [HashFunction] {cfg : ProcessorConfig} {p p' : Processor σ}
  {o : ConsensusOutput} {r : OutputResult}

def Waits (p : Processor σ) (a k d : Nat) : Prop := CollectState.Waits ⟨p.registry, p.ordering⟩ a k d

def seqsFree (cfg : ProcessorConfig) (p : Processor σ) (o : ConsensusOutput) : Bool :=
  always (collect true true) seqFree
    ⟨p.registry, (p.ordering.drainEpoch o.epoch).2⟩ (preparedBatches cfg o true)

theorem exists_mem_log (hstep : p.executeConsensusOutput cfg o = .ok (r, p')) {b : OutputBatch}
    (hb : b ∈ o.outputBatches) :
    ∃ e ∈ r.log, e.1.beneficiary = b.address ∧ e.1.batch = b.batch ∧ e.1.batchDigest = b.digest := by
  obtain ⟨φ, hφ, rfl, rfl⟩ := phases_of_executeConsensusOutput hstep
  obtain ⟨idx, hmem⟩ := exists_mem_preparedBatches cfg φ.seqNormalization hb
  have hlen := length_run hφ.collect
  have hfst : φ.result.log.map Prod.fst = preparedBatches cfg o φ.seqNormalization := by
    apply map_fst_zip
    rw [length_map, hlen]
  rw [← hfst] at hmem
  obtain ⟨e, he, heq⟩ := mem_map.mp hmem
  exact ⟨e, he, by rw [heq]; exact ⟨rfl, rfl, rfl⟩⟩

/-- What may have become of the digest under the number of the authority: executed, parked, or
jumped over. -/
def Accounted (p : Processor σ) (xs : List Execution) (log : List (PreparedBatch × Disposition))
    (a k d : Nat) : Prop :=
  (∃ x ∈ xs, x.digest = d) ∨ (∃ q, (p.ordering.parked a)[k]? = some q ∧ q.batchDigest = d) ∨
    ∃ l ∈ log, JumpsOver a k l

variable {a k d : Nat}

omit [Evm σ] [HashFunction] in
theorem Accounted.mono {p : Processor σ} {xs xs' : List Execution}
    {log log' : List (PreparedBatch × Disposition)} (h : p.Accounted xs log a k d) (hx : xs ⊆ xs')
    (hl : log ⊆ log') : p.Accounted xs' log' a k d := by
  rcases h with ⟨x, hm, hd⟩ | hpark | ⟨l, hm, hj⟩
  · exact .inl ⟨x, hx hm, hd⟩
  · exact .inr (.inl hpark)
  · exact .inr (.inr ⟨l, hl hm, hj⟩)

variable (hspec : cfg.spec.AllActive)
include hspec

namespace Phases

variable {φ : Phases cfg p o}

theorem Valid.freeRun (h : φ.Valid) (hfree : p.seqsFree cfg o) :
    FreeRun ⟨p.registry, (p.ordering.drainEpoch o.epoch).2⟩
      ((preparedBatches cfg o true).zip φ.outcomes) φ.afterCollect :=
  trace_of_always (h.collect_of_allActive hspec) hfree

omit [Evm σ] in
theorem log_eq :
    φ.result.log = ((preparedBatches cfg o true).zip φ.outcomes).map
      fun l => (l.1, l.2.disposition) := by
  rw [result, seqNormalization_of_allActive hspec, zip_map_right]
  rfl

theorem Valid.executed (h : φ.Valid) {l : PreparedBatch × Collected}
    (hl : l ∈ (preparedBatches cfg o true).zip φ.outcomes)
    (hd : d ∈ l.2.batches.map PreparedBatch.batchDigest) :
    ∃ x ∈ φ.result.executions, x.digest = d := by
  obtain ⟨b, hb, rfl⟩ := mem_map.mp hd
  have hcol : b ∈ φ.collected := mem_flatMap.mpr ⟨l.2, (of_mem_zip hl).2, hb⟩
  rw [← (h.executesAll hspec).2.prepared] at hcol
  obtain ⟨x, hx, rfl⟩ := mem_map.mp hcol
  exact ⟨x, hx, rfl⟩

theorem Valid.waits_after (h : φ.Valid) {a k : Nat} (hw : φ.afterCollect.Waits a k d) :
    φ.after.Waits a k d := by
  refine ⟨?_, hw.2⟩
  have hbal := (h.executesAll hspec).2.balance d
  change φ.afterFallback.registry.contains d = false
  rw [(fallback_of_ok h.fallbackBlock).registry]
  rw [hw.1, Bool.toNat_false] at hbal
  exact Bool.toNat_eq_zero.mp (by omega)

theorem Valid.waits_of_freeRun (h : φ.Valid) {s : CollectState}
    {pre post : List (PreparedBatch × Collected)}
    (hspl : (preparedBatches cfg o true).zip φ.outcomes = pre ++ post)
    (hrun : FreeRun s post φ.afterCollect) {a k : Nat} (hw : s.Waits a k d) :
    φ.after.Waits a k d ∨ (∃ x ∈ φ.result.executions, x.digest = d) ∨
      ∃ l ∈ post, JumpsOver a k (l.1, l.2.disposition) := by
  rcases hrun.waits hw with hw' | ⟨l, hl, hmem | hjump⟩
  · exact .inl (h.waits_after hspec hw')
  · exact .inr (.inl (h.executed hspec (hspl ▸ mem_append_right pre hl) hmem))
  · exact .inr (.inr ⟨l, hl, hjump⟩)

end Phases

section
variable (hstep : p.executeConsensusOutput cfg o = .ok (r, p')) (hfree : p.seqsFree cfg o)
include hstep hfree

theorem Waits.output (hep : o.epoch ≤ p.ordering.epoch) (hw : p.Waits a k d) :
    p'.Waits a k d ∨ (∃ x ∈ r.executions, x.digest = d) ∨ ∃ l ∈ r.log, JumpsOver a k l := by
  obtain ⟨φ, hφ, rfl, rfl⟩ := phases_of_executeConsensusOutput hstep
  have hrun := hφ.freeRun hspec hfree
  have hsame : (p.ordering.drainEpoch o.epoch).2 = p.ordering := by
    rw [BatchOrderingState.drainEpoch, if_pos hep]
  rw [hsame] at hrun
  rcases hφ.waits_of_freeRun hspec (nil_append _).symm hrun hw with hw' | hx | ⟨l, hl, hj⟩
  · exact .inl hw'
  · exact .inr (.inl hx)
  · refine .inr (.inr ⟨_, ?_, hj⟩)
    rw [Phases.log_eq hspec]
    exact mem_map_of_mem hl

theorem waits_of_log {pre post : List (PreparedBatch × Disposition)} {e : PreparedBatch}
    {disposition : Disposition} (hlog : r.log = pre ++ (e, disposition) :: post)
    (hdup : disposition ≠ .duplicate) : p'.Waits e.beneficiary e.batch.seq e.batchDigest ∨
      (∃ x ∈ r.executions, x.digest = e.batchDigest) ∨
      ∃ l ∈ post, JumpsOver e.beneficiary e.batch.seq l := by
  obtain ⟨φ, hφ, rfl, rfl⟩ := phases_of_executeConsensusOutput hstep
  have hrun := hφ.freeRun hspec hfree
  rw [Phases.log_eq hspec] at hlog
  obtain ⟨pre', rest, hspl, -, hrest⟩ := map_eq_append_iff.mp hlog
  obtain ⟨l, post', rfl, hl, rfl⟩ := map_eq_cons_iff.mp hrest
  obtain ⟨rfl, rfl⟩ := Prod.mk.inj hl
  rw [hspl] at hrun
  obtain ⟨s₁, -, hrun⟩ := hrun.split
  cases hrun with
  | cons hone hrun =>
    rcases (collect_spec hone.1).begins hdup with hw | hmem
    · have hspl' := hspl.trans (append_cons pre' l post')
      rcases hφ.waits_of_freeRun hspec hspl' hrun hw with hw' | hx | ⟨f, hf, hj⟩
      · exact .inl hw'
      · exact .inr (.inl hx)
      · exact .inr (.inr ⟨_, mem_map_of_mem hf, hj⟩)
    · refine .inr (.inl (hφ.executed hspec ?_ hmem))
      rw [hspl]
      exact mem_append_right pre' mem_cons_self

end

variable {later : List ConsensusOutput} {rs : List OutputResult}

section
variable (h : p.run cfg later = .ok (rs, p'))
  (hfree : always (executeConsensusOutput cfg) (seqsFree cfg) p later)
  (hep : ∀ o ∈ later, o.epoch ≤ p.ordering.epoch)
include h hfree hep

theorem Waits.run (hw : p.Waits a k d) : Accounted p' (executionsOf rs) (rs.flatMap log) a k d := by
  have hrun := trace_of_always h hfree
  -- The epoch of the ordering does not fall, so no output of the epoch drains it.
  have hend := Run.holds_or_emits
    (P := fun q => q.Waits a k d ∧ p.ordering.epoch ≤ q.ordering.epoch)
    (Q := fun l => (∃ x ∈ l.2.executions, x.digest = d) ∨ ∃ e ∈ l.2.log, JumpsOver a k e) hrun ?_
    ⟨hw, le_refl _⟩
  · rcases hend with hw' | ⟨l, hl, ⟨x, hx, hd⟩ | ⟨e, he, hj⟩⟩
    · exact .inr (.inl hw'.1.2)
    · refine .inl ⟨x, ?_, hd⟩
      exact mem_flatMap.mpr ⟨l.2, (of_mem_zip hl).2, mem_append_right _ hx⟩
    · exact .inr (.inr ⟨e, mem_flatMap.mpr ⟨l.2, (of_mem_zip hl).2, he⟩, hj⟩)
  · rintro l hl q t ⟨hstep, hq⟩ ⟨hqw, hqe⟩
    have hle := (hep l.1 (of_mem_zip hl).1).trans hqe
    rcases hqw.output hspec hstep hq hle with ht | hx | hj
    · refine .inl ⟨ht, hqe.trans ?_⟩
      rw [epoch_executeConsensusOutput hstep]
      exact le_max_left _ _
    · exact .inr (.inl hx)
    · exact .inr (.inr hj)

theorem Accounted.of_output {log : List (PreparedBatch × Disposition)}
    (hone : p.Waits a k d ∨ (∃ x ∈ r.executions, x.digest = d) ∨ ∃ l ∈ log, JumpsOver a k l) :
    p'.Accounted (executionsOf (r :: rs)) (log ++ rs.flatMap OutputResult.log) a k d := by
  rcases hone with hw | ⟨x, hx, hd⟩ | ⟨l, hl, hj⟩
  · have hmore : executionsOf rs ⊆ executionsOf (r :: rs) := by
      exact subset_append_right _ _
    exact (hw.run hspec h hfree hep).mono hmore (subset_append_right _ _)
  · refine .inl ⟨x, ?_, hd⟩
    exact mem_flatMap.mpr ⟨r, mem_cons_self, mem_append_right _ hx⟩
  · exact .inr (.inr ⟨l, mem_append_left _ hl, hj⟩)

end

/-- An output and further outputs of its epoch. Every batch of the output is in its log. One
that is no duplicate is executed, parked under its digest or jumped over at the end, and so is
one that was parked before, unless it was registered by then. -/
theorem run_accounted (h : p.run cfg (o :: later) = .ok (r :: rs, p'))
    (hfree : always (executeConsensusOutput cfg) (seqsFree cfg) p (o :: later))
    (hepoch : ∀ o' ∈ later, o'.epoch ≤ o.epoch) :
    (∀ b ∈ o.outputBatches, ∃ e ∈ r.log,
      e.1.beneficiary = b.address ∧ e.1.batch = b.batch ∧ e.1.batchDigest = b.digest) ∧
    (∀ pre e disposition post, r.log = pre ++ (e, disposition) :: post →
      disposition ≠ .duplicate →
      Accounted p' (executionsOf (r :: rs)) (post ++ rs.flatMap log)
        e.beneficiary e.batch.seq e.batchDigest) ∧
    (o.epoch ≤ p.ordering.epoch → ∀ (a k : Nat) q, (p.ordering.parked a)[k]? = some q →
      p.registry.contains q.batchDigest ∨
        Accounted p' (executionsOf (r :: rs)) ((r :: rs).flatMap log) a k
          q.batchDigest) := by
  obtain ⟨r', p₁, rs', hstep, hrest, heq⟩ := run_cons_eq_ok.mp h
  obtain ⟨rfl, rfl⟩ := List.cons.inj heq
  rw [always, hstep, Bool.and_eq_true] at hfree
  have hlater : ∀ o' ∈ later, o'.epoch ≤ p₁.ordering.epoch := by
    intro o' ho'
    rw [epoch_executeConsensusOutput hstep]
    exact (hepoch o' ho').trans (le_max_right _ _)
  refine ⟨fun b hb => exists_mem_log hstep hb, fun pre e disposition post hlog hdup => ?_,
    fun hle a k q hq => ?_⟩
  · apply Accounted.of_output hspec hrest hfree.2 hlater
    exact waits_of_log hspec hstep hfree.1 hlog hdup
  · cases hreg : p.registry.contains q.batchDigest with
    | true => exact .inl rfl
    | false =>
      refine .inr (Accounted.of_output hspec hrest hfree.2 hlater ?_)
      exact Waits.output hspec hstep hfree.1 hle ⟨hreg, q, hq, rfl⟩

end

def digestLog (r : OutputResult) : List (Nat × Disposition) := r.log.map fun e => (e.1.batchDigest, e.2)

/-- A gap that closes: the parked batch is accounted for by its execution. -/
theorem run_accounted_gap :
    letI := HashFunction.polynomial
    let o := ConsensusOutput.ofBatches 1 2 [numbered 1 11, numbered 3 12]
    let later := [ConsensusOutput.ofBatches 1 4 [numbered 2 13]]
    ∃ r rs p', initial.run .allActive (o :: later) = .ok (r :: rs, p') ∧
      digestLog r = [(11, .inOrder), (12, .parked)] ∧ rs.map digestLog = [[(13, .inOrder)]] ∧
      (executionsOf (r :: rs)).map Execution.digest = [11, 13, 12] ∧
      ∀ pre e disposition post, r.log = pre ++ (e, disposition) :: post →
        disposition ≠ .duplicate →
        Accounted p' (executionsOf (r :: rs)) (post ++ rs.flatMap log)
          e.beneficiary e.batch.seq e.batchDigest := by
  let _ := HashFunction.polynomial
  intro o later
  obtain ⟨results, p', hok, hlogs, hdigests⟩ : ∃ results p',
      initial.run .allActive (o :: later) = .ok (results, p') ∧
        results.map digestLog = [[(11, .inOrder), (12, .parked)], [(13, .inOrder)]] ∧
        (executionsOf results).map Execution.digest = [11, 13, 12] := by
    decide +kernel
  obtain ⟨r, rs, rfl, hr, hrs⟩ := map_eq_cons_iff.mp hlogs
  have hfree : always (executeConsensusOutput .allActive) (seqsFree .allActive)
      initial (o :: later) := by
    decide +kernel
  exact ⟨r, rs, p', hok, hr, hrs, hdigests,
    (run_accounted ChainSpec.allActive_spec hok hfree (by decide)).2.1⟩

/-- Two batches of one authority under number five: the second takes the place of the first,
which is then neither parked nor ever executed, and no jump has passed it. -/
theorem run_parked_overwritten :
    letI := HashFunction.polynomial
    let outputs := [.ofBatches 1 2 [numbered 1 11], .ofBatches 1 4 [numbered 5 12],
      .ofBatches 1 6 [numbered 5 13], .ofBatches 1 8 [numbered 2 14, numbered 3 15, numbered 4 16]]
    (initial.run .allActive outputs).toOption.map (fun r =>
      (r.1.map digestLog, (executionsOf r.1).map Execution.digest,
        (r.2.ordering.parked 1).toList.map fun e => (e.1, e.2.batchDigest))) =
      some ([[(11, .inOrder)], [(12, .parked)], [(13, .parked)],
        [(14, .inOrder), (15, .inOrder), (16, .inOrder)]], [11, 14, 15, 16, 13], []) := by
  decide +kernel

end Processor

end Axyl
