import Axyl.Processor.Dedup

/-! The blocks of a run with every fork active: their numbers, the digests in their headers, and
the outputs their batches come from. -/

namespace Axyl
open List
open Std (ExtTreeMap)

def Execution.Stamped (x : Execution) : Prop :=
  x.block.header.parentBeaconBlockRoot = x.prepared.outputDigest ∧
    x.block.header.mixHash = x.prepared.outputDigest ^^^ x.prepared.batchDigest

def Numbered (n : Nat) (blocks : List ExecutedBlock) : Prop :=
  blocks.map (fun b => b.header.number) = List.range' (n + 1) blocks.length

theorem Numbered.append {n : Nat} {bs bs' : List ExecutedBlock} (h : Numbered n bs)
    (h' : Numbered (n + bs.length) bs') : Numbered n (bs ++ bs') := by
  unfold Numbered at *
  rw [map_append, h, h', length_append, add_right_comm, List.range'_append_1]

theorem getElem?_extendChain {bs : List ExecutedBlock} (h : Numbered 0 bs) (n : Nat) :
    (extendChain ∅ bs)[n + 1]? = bs[n]? := by
  induction bs using List.reverseRecOn with
  | nil => rfl
  | append_singleton bs b ih =>
    rw [Numbered, map_append, length_append, length_singleton, List.range'_concat] at h
    obtain ⟨hinit, hlast⟩ := append_inj' h rfl
    have hb : b.header.number = bs.length + 1 := by
      have : b.header.number = 1 + 1 * bs.length := head_eq_of_cons_eq hlast
      omega
    rw [extendChain, foldl_append, foldl_cons, foldl_nil, hb, ExtTreeMap.getElem?_insert]
    rcases lt_trichotomy n bs.length with hn | rfl | hn
    · rw [if_neg (by rw [Nat.compare_eq_eq]; omega), List.getElem?_append_left hn]
      exact ih (by rw [Numbered, hinit])
    · rw [if_pos (Nat.compare_eq_eq.mpr rfl), List.getElem?_concat_length]
    · rw [if_neg (by rw [Nat.compare_eq_eq]; omega), List.getElem?_append_right (le_of_lt hn)]
      have hnone := ih (by rw [Numbered, hinit])
      rw [List.getElem?_eq_none (le_of_lt hn)] at hnone
      rw [List.getElem?_eq_none (Nat.sub_pos_of_lt hn)]
      exact hnone

section
variable {σ : Type} {cfg : ProcessorConfig} {s s' : ExecState σ}
    {ys : List (PreparedBatch × Option Nat)} {xs : List Execution} {p : PreparedBatch}

theorem Executes.stamped {x : Execution} (h : Executes cfg s p x s') : x.Stamped := by
  obtain ⟨_, _, _, _, hblk⟩ := h.block
  rw [Execution.Stamped, hblk, h.prepared]
  exact ⟨rfl, rfl⟩

theorem Executes.number {x : Execution} (h : Executes cfg s p x s') :
    x.block.header.number = s.head.number + 1 := by
  obtain ⟨_, _, _, _, hblk⟩ := h.block
  rw [hblk]
  rfl

variable [Evm σ]

theorem ExecState.run_execute_blocks
    (h : Machine.run (ExecState.execute cfg true) s ys = .ok (xs, s')) :
    (∀ x ∈ xs, x.Stamped ∧ x.Counted) ∧ Numbered s.head.number (xs.map Execution.block) ∧
      s'.head.number = s.head.number + xs.length := by
  induction ys generalizing s xs with
  | nil =>
    cases h
    exact ⟨nofun, rfl, rfl⟩
  | cons y ys ih =>
    obtain ⟨x, s₁, xs, hstep, hrest, rfl⟩ := Machine.run_cons_eq_ok.mp h
    have hx := execute_spec hstep
    obtain ⟨hall, hnum, hhead⟩ := ih hrest
    rw [hx.head, hx.number] at hnum hhead
    refine ⟨forall_mem_cons.mpr ⟨⟨hx.stamped, hx.counted⟩, hall⟩, ?_, ?_⟩
    · have hone : Numbered s.head.number [x.block] := by
        rw [Numbered, map_singleton, hx.number]
        rfl
      exact hone.append hnum
    · rw [length_cons]
      omega

theorem ExecState.run_execute_header {α : Type} {v2 : Bool}
    (h : Machine.run (ExecState.execute cfg v2) s ys = .ok (xs, s'))
    (f : ExecHeader → α) (g : PreparedBatch × Option Nat → α) (hfg : ∀ y head fee gas txs,
      f (cfg.spec.assembleBlock (y.1.buildPayload head y.2 fee) gas txs).header = g y) :
    xs.map (fun x => f x.block.header) = ys.map g := by
  induction ys generalizing s xs with
  | nil =>
    cases h
    rfl
  | cons y ys ih =>
    obtain ⟨x, s₁, xs, hstep, hrest, rfl⟩ := Machine.run_cons_eq_ok.mp h
    have hx : f x.block.header = g y := by
      unfold execute at hstep
      split at hstep
      · cases hstep
      · rename_i block counts state hbui
        obtain ⟨⟨gasUsed, comm, rfl⟩, -⟩ := buildBlockFromBatchPayload_spec hbui
        split at hstep <;> cases hstep <;> exact hfg y _ _ _ _
    rw [map_cons, map_cons, hx, ih hrest]

variable [HashFunction] {o : ConsensusOutput} {empty : Bool} {seed : Option Nat}
    {fallback : Option ExecutedBlock}

omit [Evm σ] in
theorem Fallback.header {α : Type} (h : Fallback cfg o seed s empty fallback s')
    (f : ExecHeader → α) {v : α} (hf : ∀ pay gas txs, EmptyPayload o seed s.head pay →
      f (cfg.spec.assembleBlock pay gas txs).header = v) :
    fallback.toList.map (fun b => f b.header) = if empty then [v] else [] := by
  cases h with
  | skip => rfl
  | block hpay gas txs st => exact congrArg (· :: []) (hf _ gas txs hpay)

omit [Evm σ] in
theorem Fallback.numbered (h : Fallback cfg o seed s empty fallback s') :
    Numbered s.head.number fallback.toList ∧
      s'.head.number = s.head.number + fallback.toList.length ∧
      ∀ b ∈ fallback, b.header.mixHash = b.header.parentBeaconBlockRoot := by
  cases h with
  | skip => exact ⟨rfl, rfl, fun b hb => absurd hb (Option.not_mem_none b)⟩
  | block hpay gas txs st =>
    have hnum : (cfg.spec.assembleBlock _ gas txs).header.number = s.head.number + 1 :=
      congrArg (fun head : ExecHeader => head.number + 1) hpay.parentHeader
    refine ⟨congrArg (· :: []) hnum, hnum, fun b hb => ?_⟩
    cases hb
    exact hpay.mixHash.trans hpay.consensusHeaderDigest.symm

end

theorem CollectState.run_collect_sourced {G : PreparedBatch → Prop}
    (hdrain : ∀ q, G q → G { q with drained := true }) {s s' : CollectState}
    {ps : List PreparedBatch} {outs : List Collected}
    (h : Machine.run (CollectState.collect true true) s ps = .ok (outs, s'))
    (hps : ∀ q ∈ ps, G q) (hs : ∀ (a k : Nat) q, (s.ordering.parked a)[k]? = some q → G q) :
    (∀ q ∈ outs.flatMap Collected.batches, G q) ∧
      ∀ (a k : Nat) q, (s'.ordering.parked a)[k]? = some q → G q := by
  induction ps generalizing s outs with
  | nil =>
    cases h
    exact ⟨nofun, hs⟩
  | cons x ps ih =>
    obtain ⟨c, s₁, rest, hstep, hrest, rfl⟩ := Machine.run_cons_eq_ok.mp h
    have hx := hps x mem_cons_self
    have hc := CollectState.collect_spec hstep
    obtain ⟨hcol, hpark⟩ := ih hrest (fun q hq => hps q (mem_cons_of_mem x hq))
      fun a k q hq => (hc.parkedFrom a k q hq).elim (hs a k q) fun heq => heq ▸ hx
    refine ⟨fun q hq => ?_, hpark⟩
    rcases mem_append.mp (flatMap_cons ▸ hq) with hq | hq
    · rcases hc.mem q hq with rfl | ⟨a, k, y, hy, rfl⟩
      · exact hx
      · exact hdrain y (hs a k y hy)
    · exact hcol q hq

theorem BatchOrderingState.parked_drainEpoch (ord : BatchOrderingState) (ep : Nat)
    {a k : Nat} {q : PreparedBatch} (h : ((ord.drainEpoch ep).2.parked a)[k]? = some q) :
    (ord.parked a)[k]? = some q := by
  unfold drainEpoch at h
  split at h
  · exact h
  · simp [parked, get, AuthoritySeqState.default] at h

namespace Processor

variable {σ : Type} [Evm σ] [HashFunction] {cfg : ProcessorConfig} {p p' : Processor σ}
  {o : ConsensusOutput} {r : OutputResult}

section
variable (hspec : cfg.spec.AllActive)
include hspec

theorem Phases.Valid.map_header_blocks {α : Type} {φ : Phases cfg p o} (h : φ.Valid)
    (f : ExecHeader → α) (g : PreparedBatch × Option Nat → α) {v : α} (hfg : ∀ y head fee gas txs,
      f (cfg.spec.assembleBlock (y.1.buildPayload head y.2 fee) gas txs).header = g y)
    (hf : ∀ pay gas txs, EmptyPayload o φ.seed φ.afterExecute.head pay →
      f (cfg.spec.assembleBlock pay gas txs).header = v) :
    φ.result.blocks.map (fun b => f b.header) =
      (withCloseEpoch φ.closing φ.seed φ.collected).map g ++ if φ.empty then [v] else [] := by
  rw [OutputResult.blocks, h.result_drained hspec, map_nil, nil_append, map_append,
    map_map, ← ExecState.run_execute_header h.execute f g hfg,
    ← (fallback_of_ok h.fallbackBlock).header f hf]
  rfl

structure OutputBlocks (p : Processor σ) (r : OutputResult) (p' : Processor σ) : Prop where
  executions : ∀ x ∈ r.executions, x.Stamped ∧ x.Counted
  fallback : ∀ b ∈ r.fallback, b.header.mixHash = b.header.parentBeaconBlockRoot
  drained : r.drained = []
  numbered : Numbered p.head.number r.blocks
  head : p'.head.number = p.head.number + r.blocks.length
  chain : p'.chain = extendChain p.chain r.blocks

theorem executeConsensusOutput_blocks (h : p.executeConsensusOutput cfg o = .ok (r, p')) :
    OutputBlocks p r p' := by
  obtain ⟨φ, hφ, rfl, rfl⟩ := phases_of_executeConsensusOutput h
  obtain ⟨hall, hnum, hhead⟩ := ExecState.run_execute_blocks (hφ.execute_of_allActive hspec)
  obtain ⟨hnum', hhead', hfb⟩ := (fallback_of_ok hφ.fallbackBlock).numbered
  have hdr := hφ.result_drained hspec
  have hbs : φ.result.blocks = φ.executions.map Execution.block ++ φ.fallback.toList := by
    rw [OutputResult.blocks, hdr]
    rfl
  refine ⟨hall, hfb, hdr, ?_, ?_, rfl⟩
  · rw [hbs]
    refine hnum.append ?_
    rw [length_map]
    rwa [hhead] at hnum'
  · rw [hbs, length_append, length_map]
    change φ.afterFallback.head.number = _
    rw [hhead', hhead, add_assoc]

structure Sourced (G : PreparedBatch → Prop) (p : Processor σ) : Prop where
  drained : ∀ q, G q → G { q with drained := true }
  parked : ∀ (a k : Nat) q, (p.ordering.parked a)[k]? = some q → G q

variable {G : PreparedBatch → Prop}

theorem Sourced.collected (hp : Sourced G p) {φ : Phases cfg p o} (hφ : φ.Valid)
    (hnew : ∀ b ∈ o.outputBatches, ∀ idx, G (prepare cfg o b idx)) :
    (∀ q ∈ φ.collected, G q) ∧ Sourced G φ.after := by
  obtain ⟨hcol, hpark⟩ := CollectState.run_collect_sourced hp.drained
    (hφ.collect_of_allActive hspec)
    (fun q hq => by
      obtain ⟨b, hb, idx, rfl⟩ := mem_preparedBatches hq
      exact hnew b hb idx)
    fun a k q hq => hp.parked a k q (BatchOrderingState.parked_drainEpoch _ _ hq)
  exact ⟨hcol, hp.drained, hpark⟩

theorem Sourced.output (hp : Sourced G p) (h : p.executeConsensusOutput cfg o = .ok (r, p'))
    (hnew : ∀ b ∈ o.outputBatches, ∀ idx, G (prepare cfg o b idx)) :
    (∀ x ∈ r.executions, G x.prepared) ∧ Sourced G p' := by
  obtain ⟨φ, hφ, rfl, rfl⟩ := phases_of_executeConsensusOutput h
  obtain ⟨hcol, hp'⟩ := hp.collected hspec hφ hnew
  refine ⟨fun x hx => hcol x.prepared ?_, hp'⟩
  have hprep := (hφ.executesAll hspec).2.prepared
  change φ.executions.map _ = φ.collected at hprep
  rw [← hprep]
  exact mem_map_of_mem hx

structure RunBlocks (G : PreparedBatch → Prop) (p : Processor σ) (results : List OutputResult)
    (p' : Processor σ) : Prop where
  outputs : ∀ r ∈ results, r.drained = [] ∧
    (∀ b ∈ r.fallback, b.header.mixHash = b.header.parentBeaconBlockRoot) ∧
    ∀ x ∈ r.executions, x.Stamped ∧ x.Counted ∧ G x.prepared
  numbered : Numbered p.head.number (results.flatMap OutputResult.blocks)
  head : p'.head.number = p.head.number + (results.flatMap OutputResult.blocks).length
  chain : p'.chain = extendChain p.chain (results.flatMap OutputResult.blocks)

theorem run_blocks (hp : Sourced G p) {outs : List ConsensusOutput} {results : List OutputResult}
    (h : p.run cfg outs = .ok (results, p'))
    (hnew : ∀ o ∈ outs, ∀ b ∈ o.outputBatches, ∀ idx, G (prepare cfg o b idx)) :
    RunBlocks G p results p' := by
  induction outs generalizing p results with
  | nil =>
    cases h
    exact ⟨nofun, rfl, rfl, rfl⟩
  | cons o outs ih =>
    obtain ⟨r, p₁, rest, hstep, hrest, rfl⟩ := Machine.run_cons_eq_ok.mp h
    obtain ⟨ho, hos⟩ := forall_mem_cons.mp hnew
    have hb := executeConsensusOutput_blocks hspec hstep
    obtain ⟨hG, hp₁⟩ := hp.output hspec hstep ho
    have hrun := ih hp₁ hrest hos
    refine ⟨forall_mem_cons.mpr ⟨⟨hb.drained, hb.fallback, fun x hx => ?_⟩, hrun.outputs⟩,
      ?_, ?_, ?_⟩
    · exact ⟨(hb.executions x hx).1, (hb.executions x hx).2, hG x hx⟩
    · exact hb.numbered.append (hb.head ▸ hrun.numbered)
    · rw [flatMap_cons, length_append, hrun.head, hb.head, add_assoc]
    · rw [hrun.chain, hb.chain]
      exact foldl_append.symm

end

end Processor

end Axyl
