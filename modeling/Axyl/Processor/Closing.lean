import Axyl.Processor.Drain
import Axyl.Processor.Blocks

/-! The block that closes an epoch. Every output yields a block, and of an output that closes
the epoch exactly one block carries the seed; it is the last one unless the batch at the last
position makes parked batches executable, which are then executed after it. -/

namespace Axyl
open List CollectState Fallible

theorem collect_eq_error {s : CollectState} {v2 n : Bool} {q : PreparedBatch}
    {e : EngineError} (h : s.collect v2 n q = .error e) : e = .seqOverflow := by
  have hs : s.ordering.Within (fun _ => True) s.ordering.epoch := ⟨rfl, fun _ => trivial⟩
  exact (within_collect (AuthoritySeqState.kept_trivial q n) hs v2).error h

section
variable [HashFunction] {cfg : ProcessorConfig} {o : ConsensusOutput}

theorem length_preparedBatches (heven : o.flattenBatches.length = o.batchDigests.length) (n : Bool) :
    (preparedBatches cfg o n).length = o.flattenBatches.length := by
  have hbats : o.outputBatches.length = o.flattenBatches.length := by
    rw [ConsensusOutput.outputBatches, length_map, length_zip, ← heven, Nat.min_self]
  rw [preparedBatches, length_map, length_zipIdx, ← hbats]
  split
  · exact (normalizeAuthoritySeqOrder_perm _).length_eq
  · rfl

theorem map_batchIndex_preparedBatches (cfg : ProcessorConfig) (o : ConsensusOutput) (n : Bool) :
    (preparedBatches cfg o n).map PreparedBatch.batchIndex =
      List.range (preparedBatches cfg o n).length := by
  rw [preparedBatches, map_map, length_map, length_zipIdx, range_eq_range']
  exact zipIdx_map_snd 0 _

theorem preparedBatches_split {n : Bool} {init : List PreparedBatch} {q : PreparedBatch}
    (h : preparedBatches cfg o n = init ++ [q]) :
    q.batchIndex = init.length ∧ q.drained = false ∧ ∀ x ∈ init, x.batchIndex < init.length := by
  have hidx := map_batchIndex_preparedBatches cfg o n
  rw [h, map_append, length_append, length_singleton, range_succ] at hidx
  obtain ⟨hinit, hlast⟩ := append_inj' hidx rfl
  refine ⟨singleton_inj.mp hlast, ?_, fun x hx => ?_⟩
  · have hq : q ∈ preparedBatches cfg o n := by
      rw [h]
      exact mem_append_right _ mem_cons_self
    obtain ⟨b, -, index, rfl⟩ := mem_preparedBatches hq
    rfl
  · have hx' : x.batchIndex ∈ init.map PreparedBatch.batchIndex := mem_map_of_mem hx
    rw [hinit] at hx'
    exact mem_range.mp hx'

end

theorem mem_run_collect {s s' : CollectState} {ps : List PreparedBatch} {outcomes : List Collected}
    (h : Machine.run (CollectState.collect true true) s ps = .ok (outcomes, s')) :
    ∀ x ∈ outcomes.flatMap Collected.batches, x ∈ ps ∨ x.drained = true := by
  induction ps generalizing s outcomes with
  | nil =>
    cases h
    exact nofun
  | cons p ps ih =>
    obtain ⟨c, s₁, rest, hstep, hrest, rfl⟩ := Machine.run_cons_eq_ok.mp h
    intro x hx
    rcases mem_append.mp (flatMap_cons ▸ hx) with hx | hx
    · rcases (collect_spec hstep).mem x hx with rfl | ⟨_, _, q, -, rfl⟩
      · exact .inl mem_cons_self
      · exact .inr rfl
    · exact (ih hrest x hx).imp_left (mem_cons_of_mem p)

section
variable {σ : Type} [Evm σ] {e : EngineError}

theorem ExecState.execute_eq_error {cfg : ProcessorConfig} {v2 : Bool} {s : ExecState σ}
    {x : PreparedBatch × Option Nat} (h : s.execute cfg v2 x = .error e) : e = .reth := by
  unfold execute at h
  split at h
  · rename_i hbui
    exact Except.error.inj h ▸ buildBlockFromBatchPayload_eq_error hbui
  · split at h <;> cases h

end

theorem map_zipIdx_eq_replicate {seed closing : Option Nat} {l : List PreparedBatch} {k : Nat}
    (hk : ∀ i, k ≤ i → i < k + l.length → some i ≠ closing) :
    (l.zipIdx k).map (fun x => if some x.2 = closing then seed else none) =
      List.replicate l.length none := by
  rw [eq_replicate_iff]
  refine ⟨by simp, fun x hx => ?_⟩
  obtain ⟨⟨y, i⟩, hy, rfl⟩ := mem_map.mp hx
  obtain ⟨h₁, h₂, -⟩ := mem_zipIdx hy
  exact if_neg (hk i h₁ h₂)

theorem map_snd_withCloseEpoch (closing seed : Option Nat) (collected : List PreparedBatch) :
    (withCloseEpoch closing seed collected).map Prod.snd =
      collected.zipIdx.map fun x => if some x.2 = closing then seed else none := by
  rw [withCloseEpoch, map_map]
  rfl

theorem map_snd_withCloseEpoch_some (seed : Option Nat) (before after : List PreparedBatch)
    (q : PreparedBatch) :
    (withCloseEpoch (some before.length) seed (before ++ q :: after)).map Prod.snd =
      List.replicate before.length none ++ seed :: List.replicate after.length none := by
  rw [map_snd_withCloseEpoch, zipIdx_append, map_append, zipIdx_cons, map_cons,
    map_zipIdx_eq_replicate, map_zipIdx_eq_replicate, zero_add, if_pos rfl]
  · simp; omega
  · simp; omega

theorem lastCurrentOutputIdx_append {before after : List PreparedBatch} {n : Nat}
    (hbef : ∀ x ∈ before, x.drained = true ∨ x.batchIndex < n)
    (haft : ∀ x ∈ after.head?, x.drained = false ∧ x.batchIndex = n) :
    lastCurrentOutputIdx (n + 1) (before ++ after) =
      if after.isEmpty then none else some before.length := by
  have hnone : before.findIdx? (fun x => !x.drained && x.batchIndex == n) = none := by
    rw [List.findIdx?_eq_none_iff]
    intro x hx
    rcases hbef x hx with hx | hx
    · rw [hx, Bool.not_true, Bool.false_and]
    · rw [beq_false_of_ne (ne_of_lt hx), Bool.and_false]
  rw [lastCurrentOutputIdx, Nat.add_sub_cancel, List.findIdx?_append, hnone]
  cases after with
  | nil => rfl
  | cons x after =>
    obtain ⟨h₁, h₂⟩ := haft x rfl
    rw [List.findIdx?_cons, h₁, h₂]
    simp

namespace Processor

section
variable {σ : Type} [Evm σ] [HashFunction] {cfg : ProcessorConfig} {p : Processor σ}
  {o : ConsensusOutput}

def ClosesLast (o : ConsensusOutput) (blocks : List ExecutedBlock) : Prop :=
  ∃ earlier last, blocks = earlier ++ [last] ∧ (∀ b ∈ earlier, b.header.extraData = none) ∧
    last.header.extraData = if o.closeEpoch then some o.digest else none

def lastUnlocksNothing (cfg : ProcessorConfig) (p : Processor σ) (o : ConsensusOutput) : Bool :=
  match (preparedBatches cfg o true).getLast? with
  | none => true
  | some q =>
    match Machine.run (CollectState.collect true true)
      ⟨p.registry, (p.ordering.drainEpoch o.epoch).2⟩ (preparedBatches cfg o true).dropLast with
    | .error _ => true
    | .ok (_, s) => (s.unlocks q).isEmpty

variable {bs : List ExecutedBlock}

omit [Evm σ] in
theorem closesLast_iff :
    ClosesLast o bs ↔ ∃ n, bs.map (fun b => b.header.extraData) =
      List.replicate n none ++ [if o.closeEpoch then some o.digest else none] := by
  constructor
  · rintro ⟨earlier, last, rfl, hearl, hlast⟩
    refine ⟨earlier.length, ?_⟩
    rw [map_append, map_singleton, hlast, append_left_inj, eq_replicate_iff]
    exact ⟨length_map _, forall_mem_map.mpr hearl⟩
  · rintro ⟨n, h⟩
    obtain ⟨earlier, rest, rfl, hearl, hrest⟩ := map_eq_append_iff.mp h
    obtain ⟨last, tail, rfl, hlast, htail⟩ := map_eq_cons_iff.mp hrest
    obtain rfl := map_eq_nil_iff.mp htail
    refine ⟨earlier, last, rfl, fun b hb => ?_, hlast⟩
    have hmem : b.header.extraData ∈ List.replicate n none := hearl ▸ mem_map_of_mem hb
    exact eq_of_mem_replicate hmem

namespace Phases.Valid

variable {φ : Phases cfg p o}

section
variable (hspec : cfg.spec.AllActive)
include hspec

theorem map_extraData_blocks (h : φ.Valid) :
    φ.result.blocks.map (fun b => b.header.extraData) =
      (withCloseEpoch φ.closing φ.seed φ.collected).map Prod.snd ++
        if φ.empty then [φ.seed] else [] :=
  h.map_header_blocks hspec (fun b => b.extraData) _ (fun _ _ _ _ _ => rfl)
    fun _ _ _ hp => hp.closeEpoch

theorem collected_split (h : φ.Valid) :
    ∃ before after, φ.collected = before ++ after ∧
      φ.closing = (if after.isEmpty then none else some before.length) ∧
      (after.length ≤ 1 ↔ p.lastUnlocksNothing cfg o) := by
  have hlen : (preparedBatches cfg o true).length = o.flattenBatches.length :=
    length_preparedBatches h.even true
  have hcoll := h.collect_of_allActive hspec
  rw [lastUnlocksNothing]
  rcases eq_nil_or_concat (preparedBatches cfg o true) with hnil | ⟨init, q, hbats⟩
  · rw [hnil] at hlen hcoll ⊢
    refine ⟨[], [], ?_, ?_, ?_⟩
    · rw [collected, ← (Prod.mk.inj (Except.ok.inj hcoll)).1]
      rfl
    · rw [closing, ← hlen]
      rfl
    · simp
  · rw [concat_eq_append] at hbats
    obtain ⟨hidx, hdr, hinit⟩ := preparedBatches_split hbats
    rw [hbats] at hlen hcoll ⊢
    obtain ⟨outs, s, last, hrun, hlast, houts⟩ := Machine.run_append_eq_ok.mp hcoll
    obtain ⟨c, s', rest, hstep, hrest, rfl⟩ := Machine.run_cons_eq_ok.mp hlast
    obtain ⟨rfl, rfl⟩ := Prod.mk.inj (Except.ok.inj hrest)
    have hcol : φ.collected = outs.flatMap Collected.batches ++ c.batches := by
      rw [collected, houts, flatMap_append, flatMap_singleton]
    refine ⟨_, _, hcol, ?_, ?_⟩
    · rw [closing, hcol, ← hlen, length_append]
      apply lastCurrentOutputIdx_append
      · intro x hx
        exact (mem_run_collect hrun x hx).symm.imp_right (hinit x)
      · intro x hx
        rw [collect_batches hstep] at hx
        split at hx
        · cases hx
        · cases hx
          exact ⟨hdr, hidx⟩
    · rw [dropLast_concat]
      rw [hrun, collect_batches hstep]
      split
      · rename_i hwith
        simp [CollectState.unlocks, hwith]
      · simp

theorem seed_eq (h : φ.Valid) : φ.seed = if o.closeEpoch then some o.digest else none := by
  rw [seed, closeEpochValue, (h.drained_eq hspec).2, if_pos (hspec.epochCloseSeedV2 _)]

omit [Evm σ] [HashFunction] in
theorem empty_eq : φ.empty = (φ.collected.isEmpty || (o.closeEpoch && φ.closing.isNone)) := by
  rw [empty, produceEmpty, if_pos (hspec.emptyOutputBlock _)]

theorem seeds (h : φ.Valid) :
    ∃ before after, φ.result.blocks.map (fun b => b.header.extraData) =
        List.replicate before none ++ φ.seed :: List.replicate after none ∧
      (o.closeEpoch → (after = 0 ↔ p.lastUnlocksNothing cfg o)) := by
  obtain ⟨before, after, hcol, hclo, hunlocks⟩ := h.collected_split hspec
  rw [h.map_extraData_blocks hspec, empty_eq hspec]
  cases after with
  | cons q after =>
    rw [isEmpty_cons, if_neg Bool.false_ne_true] at hclo
    refine ⟨before.length, after.length, ?_, fun _ => ?_⟩
    · rw [hclo, hcol, map_snd_withCloseEpoch_some]
      simp
    · rw [← hunlocks, length_cons]
      omega
  | nil =>
    rw [isEmpty_nil, if_pos rfl] at hclo
    have hunlocked := hunlocks.mp (Nat.zero_le 1)
    rw [hclo, map_snd_withCloseEpoch, map_zipIdx_eq_replicate fun i _ _ => Option.some_ne_none i]
    cases hclose : o.closeEpoch with
    | true => exact ⟨φ.collected.length, 0, by simp, fun _ => iff_of_true rfl hunlocked⟩
    | false =>
      have hseed : φ.seed = none := by rw [h.seed_eq hspec, hclose, if_neg Bool.false_ne_true]
      refine ⟨φ.collected.length - 1, 0, ?_, fun hfalse => absurd hfalse Bool.false_ne_true⟩
      rw [hseed]
      cases φ.collected with
      | nil => rfl
      | cons x xs => simp [replicate_succ']

end

end Phases.Valid

theorem phases_of_noBlocks (hspec : cfg.spec.AllActive)
    (h : p.executeConsensusOutput cfg o = .error .noBlocks) :
    ∃ φ : Phases cfg p o, φ.Valid ∧ φ.result.blocks = [] := by
  rcases bind_eq_error.mp h with h | ⟨⟨drained, s⟩, hdrain, h⟩
  · rw [drainAndExecuteEpochParked, if_pos (hspec.outputSeqNormalization _)] at h
    cases h
  dsimp only at h
  split at h
  · cases h
  rename_i heven
  rcases bind_eq_error.mp h with h | ⟨⟨outcomes, c⟩, hcoll, h⟩
  · obtain ⟨t, q, hq⟩ := Machine.exists_of_run_eq_error h
    cases collect_eq_error hq
  rcases bind_eq_error.mp h with h | ⟨⟨executions, s'⟩, hexec, h⟩
  · obtain ⟨t, x, hx⟩ := Machine.exists_of_run_eq_error h
    cases ExecState.execute_eq_error hx
  rcases bind_eq_error.mp h with h | ⟨⟨fallback, s''⟩, hfb, h⟩
  · rcases (fallbackBlock_spec _ _ _ _ _).error h with he | he <;> cases he
  refine ⟨⟨drained, s, outcomes, c, executions, s', fallback, s''⟩,
    ⟨hdrain, not_not.mp heven, hcoll, hexec, hfb⟩, ?_⟩
  split at h
  · rename_i hbs
    exact isEmpty_iff.mp hbs.2
  · cases h

theorem closesLast_of_seeds (before after : Nat)
    (h : bs.map (fun b => b.header.extraData) = List.replicate before none ++
      (if o.closeEpoch then some o.digest else none) :: List.replicate after none) :
    ClosesLast o bs ↔ o.closeEpoch = false ∨ after = 0 := by
  rw [closesLast_iff, h]
  cases hclose : o.closeEpoch with
  | false =>
    refine iff_of_true ⟨before + after, ?_⟩ (.inl rfl)
    rw [if_neg Bool.false_ne_true, ← replicate_succ, ← replicate_succ', replicate_append_replicate]
    rfl
  | true =>
    rw [or_iff_right Bool.noConfusion]
    constructor
    · rintro ⟨n, hn⟩
      -- the last element is the seed, and a block after the seed has none
      have hlast := congrArg List.getLast? hn
      rw [List.getLast?_concat] at hlast
      cases after with
      | zero => rfl
      | succ after =>
        rw [replicate_succ', ← cons_append, ← append_assoc, List.getLast?_concat] at hlast
        cases hlast
    · rintro rfl
      exact ⟨before, rfl⟩

/-- The seed of an output that closes the epoch stands in one block, which is the last one
exactly if nothing parked follows the batch at the last position. -/
theorem executeConsensusOutput_closesLast_iff (hspec : cfg.spec.AllActive) (p : Processor σ)
    (o : ConsensusOutput) :
    p.executeConsensusOutput cfg o ≠ .error .noBlocks ∧
      ∀ r p', p.executeConsensusOutput cfg o = .ok (r, p') →
        r.blocks ≠ [] ∧
        (r.blocks.map fun b => b.header.extraData).reduceOption =
          (if o.closeEpoch then [o.digest] else []) ∧
        (ClosesLast o r.blocks ↔ o.closeEpoch = false ∨ p.lastUnlocksNothing cfg o) := by
  have hblocks : ∀ φ : Phases cfg p o, φ.Valid → φ.result.blocks ≠ [] := by
    intro φ hφ hnil
    obtain ⟨before, after, hseeds, -⟩ := hφ.seeds hspec
    rw [hnil] at hseeds
    exact append_ne_nil_of_right_ne_nil _ (cons_ne_nil _ _) hseeds.symm
  refine ⟨fun h => ?_, fun r p' h => ?_⟩
  · obtain ⟨φ, hφ, hnil⟩ := phases_of_noBlocks hspec h
    exact hblocks φ hφ hnil
  · obtain ⟨φ, hφ, rfl, rfl⟩ := phases_of_executeConsensusOutput h
    obtain ⟨before, after, hseeds, hafter⟩ := hφ.seeds hspec
    rw [hφ.seed_eq hspec] at hseeds
    refine ⟨hblocks φ hφ, ?_, ?_⟩
    · rw [hseeds, reduceOption_append, reduceOption_replicate_none, nil_append]
      split
      · rw [reduceOption_cons_of_some, reduceOption_replicate_none]
      · rw [reduceOption_cons_of_none, reduceOption_replicate_none]
    · rw [closesLast_of_seeds _ _ hseeds]
      cases hclose : o.closeEpoch with
      | false => exact iff_of_true (.inl rfl) (.inl rfl)
      | true => rw [hafter hclose]

end

/-- The batch at the last position is parked, and an empty block after the first one closes. -/
theorem executeConsensusOutput_closesLast_fallback :
    letI := HashFunction.polynomial
    let o := { ConsensusOutput.ofBatches 1 2 [numbered 1 11, numbered 3 12] with closeEpoch := true }
    ∃ r p', initial.executeConsensusOutput .allActive o = .ok (r, p') ∧
      r.blocks.length = 2 ∧ ClosesLast o r.blocks := by
  let _ := HashFunction.polynomial
  intro o
  obtain ⟨r, p', hok, hlength⟩ : ∃ r p',
      initial.executeConsensusOutput .allActive o = .ok (r, p') ∧
        r.blocks.length = 2 := by
    decide +kernel
  have hcloses := (executeConsensusOutput_closesLast_iff ChainSpec.allActive_spec
    initial o).2 r p' hok
  exact ⟨r, p', hok, hlength, hcloses.2.2.mpr (.inr (by decide +kernel))⟩

/-- Number three is parked, and number two at the last position of the closing output makes it
executable: its block comes after the block with the seed. -/
theorem closing_block_not_last :
    letI := HashFunction.polynomial
    let closing := { ConsensusOutput.ofBatches 1 4 [numbered 2 13] with closeEpoch := true }
    ∃ r₁ r₂ p', initial.run .allActive
        [.ofBatches 1 2 [numbered 1 11, numbered 3 12], closing] = .ok ([r₁, r₂], p') ∧
      r₂.blocks.map (fun b => b.header.extraData) = [some closing.digest, none] ∧
      ¬ ClosesLast closing r₂.blocks := by
  let _ := HashFunction.polynomial
  intro closing
  obtain ⟨results, p', hok, hseeds⟩ : ∃ results p', initial.run .allActive
      [.ofBatches 1 2 [numbered 1 11, numbered 3 12], closing] = .ok (results, p') ∧
        results.map (fun r => r.blocks.map fun b => b.header.extraData) =
          [[none], [some closing.digest, none]] := by
    decide +kernel
  obtain ⟨r₁, rest, rfl, -, hrest⟩ := map_eq_cons_iff.mp hseeds
  obtain ⟨r₂, tail, rfl, hr₂, hnil⟩ := map_eq_cons_iff.mp hrest
  obtain rfl := map_eq_nil_iff.mp hnil
  refine ⟨r₁, r₂, p', hok, hr₂, ?_⟩
  rw [closesLast_of_seeds 0 1 hr₂]
  decide

end Processor

end Axyl
