import Axyl.Processor.Drain
import Axyl.Processor.Blocks

/-! The timestamps of blocks. A parked batch keeps the timestamp of the output that brought it,
and its block is built after a block of the output that made it executable. -/

namespace Axyl
open List CollectState Machine OutputResult

theorem pairwise_le_iff_of_head {l : List Nat} {t : Nat} (hhead : ∀ x ∈ l.head?, x = t)
    (hle : ∀ x ∈ l, x ≤ t) : l.Pairwise (· ≤ ·) ↔ ∀ x ∈ l, x = t := by
  cases l with
  | nil => exact iff_of_true List.Pairwise.nil nofun
  | cons y l =>
    obtain rfl := hhead y rfl
    constructor
    · intro h x hx
      apply le_antisymm (hle x hx)
      rcases mem_cons.mp hx with rfl | hx
      · exact le_refl x
      · exact (pairwise_cons.mp h).1 x hx
    · intro h
      exact pairwise_of_forall_mem_list fun a ha b hb => (h a ha).trans_le (h b hb).ge

def CollectState.unlocksTimely (s : CollectState) (q : PreparedBatch) : Bool :=
  (s.unlocks q).all fun x => x.timestamp == q.timestamp

section
variable {s s' : CollectState} {ps : List PreparedBatch} {outcomes : List Collected} {t : Nat}

section
variable (h : run (CollectState.collect true true) s ps = .ok (outcomes, s'))
include h

theorem head_run_collect : ∀ x ∈ (outcomes.flatMap Collected.batches).head?, x ∈ ps := by
  induction ps generalizing s outcomes with
  | nil =>
    cases h
    exact fun x hx => absurd hx (Option.not_mem_none x)
  | cons q ps ih =>
    obtain ⟨c, s₁, rest, hstep, hrest, rfl⟩ := run_cons_eq_ok.mp h
    intro x hx
    rw [flatMap_cons, collect_batches hstep] at hx
    split at hx
    · exact mem_cons_of_mem q (ih hrest x hx)
    · cases hx
      exact mem_cons_self

theorem always_unlocksTimely_iff (ht : ∀ q ∈ ps, q.timestamp = t) :
    always (CollectState.collect true true) unlocksTimely s ps ↔
      ∀ x ∈ outcomes.flatMap Collected.batches, x.timestamp = t := by
  induction ps generalizing s outcomes with
  | nil =>
    cases h
    exact iff_of_true rfl nofun
  | cons q ps ih =>
    obtain ⟨c, s₁, rest, hstep, hrest, rfl⟩ := run_cons_eq_ok.mp h
    obtain ⟨hq, hps⟩ := forall_mem_cons.mp ht
    have hturn : s.unlocksTimely q = true ↔ ∀ x ∈ c.batches, x.timestamp = t := by
      rw [collect_batches hstep, unlocksTimely]
      split
      · rename_i hwith
        simp [unlocks, hwith]
      · simp [hq]
    rw [always, hstep, Bool.and_eq_true, ih hrest hps, hturn]
    exact forall_mem_append.symm

end

end

namespace Processor

section
variable {σ : Type} [Evm σ] [HashFunction] {cfg : ProcessorConfig} {p p' : Processor σ}
  {o : ConsensusOutput} {r : OutputResult}

def drainsTimely (cfg : ProcessorConfig) (p : Processor σ) (o : ConsensusOutput) : Bool :=
  always (CollectState.collect true true) CollectState.unlocksTimely
    ⟨p.registry, (p.ordering.drainEpoch o.epoch).2⟩ (preparedBatches cfg o true)

def timestamps (blocks : List ExecutedBlock) : List Nat := blocks.map fun b => b.header.timestamp

abbrev ParkedBy (t : Nat) (p : Processor σ) : Prop := Sourced (fun q => q.timestamp ≤ t) p

omit [Evm σ] [HashFunction] in
theorem ParkedBy.mono {t t' : Nat} (h : ParkedBy t p) (hle : t ≤ t') : ParkedBy t' p where
  drained _ hq := hq
  parked a k q hq := (h.parked a k q hq).trans hle

theorem timestamp_preparedBatches {q : PreparedBatch} (h : q ∈ preparedBatches cfg o true) :
    q.timestamp = o.committedAt := by
  obtain ⟨b, -, idx, rfl⟩ := mem_preparedBatches h
  rfl

theorem Phases.Valid.timestamps_blocks {φ : Phases cfg p o} (h : φ.Valid)
    (hspec : cfg.spec.AllActive) : timestamps φ.result.blocks =
      φ.collected.map PreparedBatch.timestamp ++ if φ.empty then [o.committedAt] else [] := by
  have hbs := h.map_header_blocks hspec (fun b => b.timestamp)
    (PreparedBatch.timestamp ∘ Prod.fst) (fun _ _ _ _ _ => rfl) fun _ _ _ hp => hp.timestamp
  rw [timestamps, hbs, ← map_map, map_fst_withCloseEpoch]

section
variable (hspec : cfg.spec.AllActive)
include hspec

theorem output_timestamps (hp : ParkedBy o.committedAt p)
    (h : p.executeConsensusOutput cfg o = .ok (r, p')) :
    ((timestamps r.blocks).Pairwise (· ≤ ·) ↔ p.drainsTimely cfg o) ∧
      (p.drainsTimely cfg o ↔ ∀ t ∈ timestamps r.blocks, t = o.committedAt) := by
  obtain ⟨φ, hφ, rfl, rfl⟩ := phases_of_executeConsensusOutput h
  have hcoll := hφ.collect_of_allActive hspec
  have hnew : ∀ q ∈ preparedBatches cfg o true, q.timestamp = o.committedAt :=
    fun q hq => timestamp_preparedBatches hq
  have hle : ∀ x ∈ φ.collected, x.timestamp ≤ o.committedAt :=
    (Sourced.collected hspec hp hφ fun _ _ _ => le_refl _).1
  have hfb : ∀ t ∈ if φ.empty then [o.committedAt] else [], t = o.committedAt := by
    intro t ht
    split at ht
    · exact mem_singleton.mp ht
    · exact absurd ht not_mem_nil
  have htim : p.drainsTimely cfg o ↔ ∀ t ∈ timestamps φ.result.blocks, t = o.committedAt := by
    rw [drainsTimely, always_unlocksTimely_iff hcoll hnew,
      hφ.timestamps_blocks hspec, forall_mem_append, forall_mem_map]
    exact (and_iff_left hfb).symm
  refine ⟨?_, htim⟩
  rw [htim, hφ.timestamps_blocks hspec]
  apply pairwise_le_iff_of_head
  · intro t ht
    have hhead := head_run_collect hcoll
    change ∀ x ∈ φ.collected.head?, x ∈ preparedBatches cfg o true at hhead
    cases hcol : φ.collected with
    | nil =>
      rw [hcol] at ht
      exact hfb t (mem_of_mem_head? ht)
    | cons x xs =>
      rw [hcol] at ht hhead
      cases ht
      exact hnew x (hhead x rfl)
  · rw [forall_mem_append, forall_mem_map]
    exact ⟨hle, fun t ht => (hfb t ht).le⟩

theorem ParkedBy.output (hp : ParkedBy o.committedAt p)
    (h : p.executeConsensusOutput cfg o = .ok (r, p')) : ParkedBy o.committedAt p' :=
  (Sourced.output hspec hp h fun _ _ _ => le_refl _).2

theorem run_timestamps_of_timely {outs : List ConsensusOutput}
    {results : List OutputResult} (h : p.run cfg outs = .ok (results, p')) {t : Nat}
    (hp : ParkedBy t p) (hle : ∀ o ∈ outs, t ≤ o.committedAt)
    (hmono : (outs.map ConsensusOutput.committedAt).Pairwise (· ≤ ·))
    (htim : always (executeConsensusOutput cfg) (drainsTimely cfg) p outs) :
    ∀ t' ∈ timestamps (results.flatMap blocks), t ≤ t' := by
  induction outs generalizing p results t with
  | nil =>
    cases h
    exact nofun
  | cons o outs ih =>
    obtain ⟨r, p₁, rest, hstep, hrest, rfl⟩ := run_cons_eq_ok.mp h
    rw [always, hstep, Bool.and_eq_true] at htim
    rw [map_cons, pairwise_cons, forall_mem_map] at hmono
    obtain ⟨ho, -⟩ := forall_mem_cons.mp hle
    have hp' := hp.mono ho
    rw [flatMap_cons, timestamps, map_append, forall_mem_append]
    constructor
    · intro t' ht'
      rw [(output_timestamps hspec hp' hstep).2.mp htim.1 t' ht']
      exact ho
    · intro t' ht'
      exact ho.trans (ih hrest (hp'.output hspec hstep) hmono.1 hmono.2 htim.2 t' ht')

end

/-- The timestamps of the blocks of a run do not go back, if and only if no batch makes one of
an earlier time executable. -/
theorem run_timestamps_iff (hspec : cfg.spec.AllActive) {outputs : List ConsensusOutput}
    {results : List OutputResult} (h : p.run cfg outputs = .ok (results, p'))
    (hparked : ∀ o ∈ outputs, ∀ (a k : Nat) q, (p.ordering.parked a)[k]? = some q →
      q.timestamp ≤ o.committedAt)
    (hmono : (outputs.map ConsensusOutput.committedAt).Pairwise (· ≤ ·)) :
    (timestamps (results.flatMap blocks)).Pairwise (· ≤ ·) ↔
      always (executeConsensusOutput cfg) (drainsTimely cfg) p outputs := by
  induction outputs generalizing p results with
  | nil =>
    cases h
    exact iff_of_true List.Pairwise.nil rfl
  | cons o outputs ih =>
    obtain ⟨r, p₁, rest, hstep, hrest, rfl⟩ := run_cons_eq_ok.mp h
    have hp : ParkedBy o.committedAt p := ⟨fun _ hq => hq, hparked o mem_cons_self⟩
    have hp₁ := hp.output hspec hstep
    rw [map_cons, pairwise_cons, forall_mem_map] at hmono
    have hrest_iff := ih hrest (fun o' ho' a k q hq => (hp₁.parked a k q hq).trans (hmono.1 o' ho'))
      hmono.2
    obtain ⟨hpairwise, htimely⟩ := output_timestamps hspec hp hstep
    rw [timestamps, always, hstep, Bool.and_eq_true, flatMap_cons, map_append, pairwise_append]
    change (timestamps r.blocks).Pairwise _ ∧ (timestamps _).Pairwise _ ∧ _ ↔ _
    rw [hpairwise, hrest_iff, ← and_assoc]
    refine and_iff_left_of_imp fun hall t ht t' ht' => ?_
    rw [htimely.mp hall.1 t ht]
    exact run_timestamps_of_timely hspec hrest hp₁ hmono.1 hmono.2 hall.2 t' ht'

end

/-- Two batches stay parked, and the blocks are of the times of their outputs. -/
theorem run_timestamps_parked :
    letI := HashFunction.polynomial
    let outputs := [.ofBatches 1 2 [numbered 1 11, numbered 3 12], .ofBatches 1 4 [numbered 5 13]]
    ∃ results p', initial.run .allActive outputs = .ok (results, p') ∧
      timestamps (results.flatMap blocks) = [2, 4] ∧
      (timestamps (results.flatMap blocks)).Pairwise (· ≤ ·) := by
  let _ := HashFunction.polynomial
  intro outputs
  obtain ⟨results, p', hok, htimes⟩ : ∃ results p',
      initial.run .allActive outputs = .ok (results, p') ∧
        timestamps (results.flatMap blocks) = [2, 4] := by
    decide +kernel
  refine ⟨results, p', hok, htimes, (run_timestamps_iff ChainSpec.allActive_spec hok
    (fun o _ a k q hq => ?_) (by decide +kernel)).mpr (by decide +kernel)⟩
  simp [genesis, BatchOrderingState.default, BatchOrderingState.parked, BatchOrderingState.get,
    AuthoritySeqState.default] at hq

/-- Number three is parked at time two and made executable by number two at time four: the time
goes back in the last block. -/
theorem timestamps_go_back :
    letI := HashFunction.polynomial
    let outputs := [.ofBatches 1 2 [numbered 1 11, numbered 3 12], .ofBatches 1 4 [numbered 2 13]]
    outputs.map ConsensusOutput.committedAt = [2, 4] ∧
      ∃ results p', initial.run .allActive outputs = .ok (results, p') ∧
        timestamps (results.flatMap blocks) = [2, 4, 2] ∧
        ¬ (timestamps (results.flatMap blocks)).Pairwise (· ≤ ·) := by
  decide +kernel

end Processor

end Axyl
