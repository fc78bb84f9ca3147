import Axyl.Processor.Anchor
import Axyl.Processor.Recovery
import Axyl.StateSync.Replay

/-! A crash and a restart. The blocks come back as after one output and the row of the ordering
as after another; the registry is rebuilt from the blocks, the anchor is the last output they
belong to, and the saved headers above it are executed again. -/

namespace Axyl
open List ConsensusOutput
open Std (ExtTreeMap)
open BatchOrderingState

theorem headers_savedBlocks {saved : List ConsensusOutput}
    (h : (saved.map number).Pairwise (· < ·)) :
    (savedBlocks saved).headers = saved.map consensusHeader := by
  have hleft := (keyed_savedBlocks h).pairwise_headers
  refine eq_of_increasing hleft (pairwise_map.mpr (pairwise_map.mp h)) fun x => ?_
  rw [mem_headers_savedBlocks h, mem_map]

theorem number_le_last {init : List ConsensusOutput} {last : ConsensusOutput}
    (h : ((init ++ [last]).map number).Pairwise (· < ·)) :
    ∀ o ∈ init ++ [last], o.number ≤ last.number := by
  rw [map_append, pairwise_append] at h
  intro o ho
  rcases mem_append.mp ho with ho | ho
  · exact Nat.le_of_lt (h.2.2 _ (mem_map_of_mem ho) last.number mem_cons_self)
  · rw [mem_singleton.mp ho]

theorem getMissingConsensus_savedBlocks {pre after : List ConsensusOutput} {ep : Nat}
    (hnums : ((pre ++ after).map number).Pairwise (· < ·)) (hpos : ∀ o ∈ pre ++ after, 0 < o.number)
    (hep : ∀ o ∈ after, ep ≤ o.epoch) : getMissingConsensus (savedBlocks (pre ++ after)) ∅ ep
        ((pre.getLast?.map consensusHeader).getD .default) = after.map consensusHeader := by
  generalize hanc : (pre.getLast?.map consensusHeader).getD .default = anchor
  have hspl : (∀ o ∈ pre, o.number ≤ anchor.number) ∧ ∀ o ∈ after, anchor.number < o.number := by
    rcases eq_nil_or_concat pre with rfl | ⟨init, last, rfl⟩
    · rw [← hanc]
      exact ⟨nofun, hpos⟩
    · rw [concat_eq_append] at hanc hnums ⊢
      rw [List.getLast?_concat] at hanc
      rw [← hanc]
      rw [map_append, pairwise_append] at hnums
      refine ⟨number_le_last hnums.1, fun o ho => ?_⟩
      exact hnums.2.2 last.number
        (mem_map_of_mem (mem_append_right _ mem_cons_self)) _ (mem_map_of_mem ho)
  obtain ⟨hbef, haft⟩ := hspl
  apply getMissingConsensus_eq (keyed_savedBlocks hnums)
  · rw [headers_savedBlocks hnums, map_append]
  · exact forall_mem_map.mpr hbef
  · exact forall_mem_map.mpr haft
  · exact forall_mem_map.mpr hep

/-- What a crash leaves: blocks and their state, the row of the ordering, and what consensus has
saved. -/
structure Disk (σ : Type) where
  chain : ExtTreeMap Nat ExecutedBlock
  tip : ExecHeader
  state : σ
  row : Option OrderingRow
  blocks : ConsensusBlocks
  batches : Batches

section
variable {σ : Type} [HashFunction]

def Disk.ofCrash (executed written : Processor σ) (saved : List ConsensusOutput)
    (batches : Batches) : Disk σ where
  chain := executed.chain
  tip := executed.head
  state := executed.state
  row := written.row
  blocks := savedBlocks saved
  batches := batches

variable [Evm σ]

/-- The processor that comes up and the outputs it executes again. The epoch is read from the
state of the tip, and `fetch` completes a header with its batches. -/
def Disk.restart (disk : Disk σ) (epoch : Nat) (fetch : ConsensusHeader → ConsensusOutput) :
    EngineResult (Processor σ × List ConsensusOutput) := do
  let ordering ← fromHistory disk.row disk.batches disk.blocks epoch
  let anchor := recoverExecutedAnchor disk.chain disk.tip disk.blocks
  let registry := reconstructBatchDigests disk.chain disk.batches disk.state disk.tip.number
  return (
    { registry
      ordering
      row := disk.row
      head := disk.tip
      state := disk.state
      chain := disk.chain },
    (getMissingConsensus disk.blocks ∅ epoch (anchor.getD .default)).map fetch)

/-- What consensus guarantees of its outputs, and that their batches are saved. -/
structure Sequenced (batches : Batches) (outputs : List ConsensusOutput) : Prop where
  numbers : (outputs.map number).Pairwise (· < ·)
  positive : ∀ o ∈ outputs, 0 < o.number
  nonces : (outputs.map nonce).Pairwise (· < ·)
  digests : (outputs.map digest).Nodup
  nonzero : ∀ o ∈ outputs, o.digest ≠ 0 ∧ ∀ b ∈ o.outputBatches, b.digest ≠ 0
  rows : ∀ o ∈ outputs, ∀ b ∈ o.outputBatches, batches[b.digest]? = some b.batch

end

theorem fromHistory_eq {o : BatchOrderingState} {batches : Batches} {bs : ConsensusBlocks}
    {epoch : Nat} (h : o.BodiesIn batches) (hep : epoch = o.epoch ∨ epoch = o.epoch + 1)
    (hne : o.authorities ≠ ∅ ∨ epoch = o.epoch ∧ NoHistory bs batches epoch) :
    fromHistory (some (writeBatchOrderingState o)) batches bs epoch = .ok o := by
  by_cases hemp : o.authorities = ∅
  · obtain ⟨rfl, hno⟩ := hne.resolve_left (not_not.mpr hemp)
    rw [fromHistory_write h, recoverAuthoritiesFromHistory_of_noHistory hno, ← hemp]
    split <;> rfl
  · have hfrm : o.epoch = epoch ∨ o.epoch + 1 = epoch := hep.imp Eq.symm Eq.symm
    have hkeep : ¬(o.authorities.isEmpty = true ∨ ¬(o.epoch = epoch ∨ o.epoch + 1 = epoch)) := by
      rw [ExtTreeMap.isEmpty_iff]
      exact not_or.mpr ⟨hemp, not_not.mpr hfrm⟩
    rw [fromHistory, writeBatchOrderingState, readBatchOrderingState, reconstructParked_ofState h]
    exact if_neg hkeep

namespace Processor

section
variable {σ : Type} [Evm σ] [HashFunction] {cfg : ProcessorConfig} {p p₁ p₂ : Processor σ}
    {results : List OutputResult} {outs : List ConsensusOutput}

theorem Sourced.run {G : PreparedBatch → Prop} (hp : Sourced G p) (hspec : cfg.spec.AllActive)
    (h : p.run cfg outs = .ok (results, p₁))
    (hnew : ∀ o ∈ outs, ∀ b ∈ o.outputBatches, ∀ idx, G (prepare cfg o b idx)) : Sourced G p₁ := by
  induction outs generalizing p results with
  | nil =>
    cases h
    exact hp
  | cons o outs ih =>
    obtain ⟨r, q, rest, hstep, hrest, rfl⟩ := Machine.run_cons_eq_ok.mp h
    obtain ⟨ho, hos⟩ := forall_mem_cons.mp hnew
    exact ih (hp.output hspec hstep ho).2 hrest hos

theorem row_run (h : p.run cfg outs = .ok (results, p₁)) (hne : outs ≠ []) :
    p₁.row = some (writeBatchOrderingState p₁.ordering) := by
  obtain ⟨init, o, rfl⟩ := (eq_nil_or_concat outs).resolve_left hne
  rw [concat_eq_append] at h
  obtain ⟨rs, q, last, -, hlast, -⟩ := Machine.run_append_eq_ok.mp h
  obtain ⟨r, q', rest, hstep, hrest, -⟩ := Machine.run_cons_eq_ok.mp hlast
  cases hrest
  exact row_executeConsensusOutput hstep

theorem run_withRow (row : Option OrderingRow) (outs : List ConsensusOutput) :
    (run cfg { p with row } outs).map Prod.fst = (p.run cfg outs).map Prod.fst := by
  cases outs with
  | nil => rfl
  | cons o outs => rfl

/-- The outputs `before` are those whose blocks survive, and the row is as after the outputs
`written`. If it holds the ordering as it was at the end of the surviving blocks, and both rules
for retries agree there, the restarted node executes exactly the other saved outputs again and
builds the blocks of a node that did not crash, for these and for all that come later. -/
theorem restart_agrees (hspec : cfg.spec.AllActive) (hp : p.Fresh)
    {before after written : List ConsensusOutput} {results results' : List OutputResult}
    (h : p.run cfg before = .ok (results, p₁)) (hwritten : p.run cfg written = .ok (results', p₂))
    (hne : written ≠ []) {batches : Batches} (hseq : Sequenced batches (before ++ after))
    (fetch : ConsensusHeader → ConsensusOutput) (hfetch : ∀ o ∈ after, fetch o.consensusHeader = o)
    {epoch : Nat} (hepoch : epoch = p₁.ordering.epoch ∨ epoch = p₁.ordering.epoch + 1)
    (hafter : ∀ o ∈ after, epoch ≤ o.epoch) (htip : p₁.head.number < digestReconstructionDepth)
    (hrow : p₂.ordering = p₁.ordering) (htracked : p₁.ordering.authorities ≠ ∅ ∨
      epoch = p₁.ordering.epoch ∧ NoHistory (savedBlocks (before ++ after)) batches epoch)
    (hretry : ∀ d, RetryAgreesAt p₁.state (executionsOf results) d) :
    ∃ restarted, (Disk.ofCrash p₁ p₂ (before ++ after) batches).restart epoch fetch =
        .ok (restarted, after) ∧
      ∀ later, (restarted.run cfg (after ++ later)).map Prod.fst =
        (p₁.run cfg (after ++ later)).map Prod.fst := by
  have hbodies : p₁.ordering.BodiesIn batches := by
    have hsourced : Sourced (fun q => batches[q.batchDigest]? = some q.batch) p :=
      hp.sourced fun _ hq => hq
    exact (hsourced.run hspec h fun o ho b hb _ =>
      hseq.rows o (mem_append_left _ ho) b hb).parked
  have hordering : fromHistory p₂.row batches (savedBlocks (before ++ after))
      epoch = .ok p₁.ordering := by
    rw [row_run hwritten hne, hrow]
    exact fromHistory_eq hbodies hepoch htracked
  have hanchor : recoverExecutedAnchor p₁.chain p₁.head (savedBlocks (before ++ after)) =
      before.getLast?.map consensusHeader := by
    have hnonces := hseq.nonces
    rw [map_append] at hnonces
    exact recoverExecutedAnchor_eq hspec hp h (pairwise_append.mp hnonces).1
      (subset_append_left _ _) hseq.numbers hseq.digests fun o ho => (hseq.nonzero o ho).1
  have hreplay : ((after.map consensusHeader).map fetch) = after := by
    rw [map_map]
    exact (map_congr_left (g := id) hfetch).trans (map_id after)
  obtain ⟨-, halike⟩ := rebuilt_alike hspec hp h htip
    (fun o ho => hseq.rows o (mem_append_left _ ho))
    fun o ho => hseq.nonzero o (mem_append_left _ ho)
  generalize hrebuilt : reconstructBatchDigests p₁.chain batches p₁.state p₁.head.number = rebuilt
    at halike
  refine ⟨{ p₁.withRegistry rebuilt with row := p₂.row }, ?_, fun later => ?_⟩
  · unfold Disk.restart Disk.ofCrash
    dsimp only
    rw [hordering, hanchor, hrebuilt,
      getMissingConsensus_savedBlocks hseq.numbers hseq.positive hafter, hreplay]
    rfl
  · rw [run_withRow]
    exact ((halike hretry).run hspec _).symm

end

def digestsOf {σ : Type} (r : EngineResult (List OutputResult × Processor σ)) :
    Option (List (List Nat)) :=
  r.toOption.map fun r => r.1.map fun r => r.executions.map Execution.digest

/-- The blocks of the last output are lost, and with them the batch that closes a gap; the row is
of the output before. -/
theorem restart_agrees_gap :
    letI := HashFunction.polynomial
    let first := ofBatches 1 2 [numbered 1 11, numbered 3 13]
    let second := ofBatches 1 4 [numbered 2 12]
    let batches : Batches := .ofPairs [numbered 1 11, numbered 2 12, numbered 3 13]
    ∃ results p₁ restarted, initial.run .allActive [first] = .ok (results, p₁) ∧
      (Disk.ofCrash p₁ p₁ [first, second] batches).restart 1 (fun _ => second) =
        .ok (restarted, [second]) ∧
      digestsOf (restarted.run .allActive [second]) = some [[12, 13]] ∧
      ∀ later, (restarted.run .allActive ([second] ++ later)).map Prod.fst =
        (p₁.run .allActive ([second] ++ later)).map Prod.fst := by
  let _ := HashFunction.polynomial
  intro first second batches
  obtain ⟨results, p₁, hok, hepoch, htracked, htip, hdigests, d, replay, hd, hreplayed⟩ :
      ∃ results p₁, initial.run .allActive [first] = .ok (results, p₁) ∧
        p₁.ordering.epoch = 1 ∧ p₁.ordering.authorities.isEmpty = false ∧
        p₁.head.number < digestReconstructionDepth ∧
        (reconstructBatchDigests p₁.chain batches p₁.state p₁.head.number).digests =
          p₁.registry.digests ∧
        ∃ d replay, (Disk.ofCrash p₁ p₁ [first, second] batches).restart 1 (fun _ => second) =
          .ok (d, replay) ∧ digestsOf (d.run .allActive [second]) = some [[12, 13]] := by
    decide +kernel
  have hseq : Sequenced batches ([first] ++ [second]) := by
    constructor <;> decide +kernel
  have hfetch : ∀ o ∈ [second], (fun _ : ConsensusHeader => second) o.consensusHeader = o :=
    fun o ho => (mem_singleton.mp ho).symm
  have hfresh : initial.Fresh := ⟨rfl, rfl, rfl, rfl⟩
  have hretry := (rebuilt_alike ChainSpec.allActive_spec hfresh hok htip (by decide +kernel)
    (by decide +kernel)).1.mp fun d => congrArg (fun digests => digests.contains d) hdigests
  have hne : p₁.ordering.authorities ≠ ∅ := ExtTreeMap.isEmpty_eq_false_iff.mp htracked
  obtain ⟨restarted, hrestart, hlater⟩ := restart_agrees ChainSpec.allActive_spec hfresh hok hok
    (cons_ne_nil _ _) hseq (fun _ => second) hfetch (.inl hepoch.symm) (by decide +kernel) htip rfl
    (.inl hne) hretry
  cases hd.symm.trans hrestart
  exact ⟨results, p₁, d, hok, hrestart, hreplayed, hlater⟩

/-- The blocks survive up to the first output and the row is of the third, which has closed the
gap at number two. For the restarted node number three of the second output is stale and is
executed at once; the other one parks it. -/
theorem restart_with_later_row :
    letI := HashFunction.polynomial
    let first := ofBatches 1 2 [numbered 1 11]
    let second := ofBatches 1 4 [numbered 3 13]
    let third := ofBatches 1 6 [numbered 2 12]
    let batches : Batches := .ofPairs [numbered 1 11, numbered 2 12, numbered 3 13]
    let fetch : ConsensusHeader → ConsensusOutput := fun header =>
      if header = second.consensusHeader then second else third
    ∃ rs p₁ rs' p₃ restarted, initial.run .allActive [first] = .ok (rs, p₁) ∧
      initial.run .allActive [first, second, third] = .ok (rs', p₃) ∧
      (Disk.ofCrash p₁ p₃ [first, second, third] batches).restart 1 fetch =
        .ok (restarted, [second, third]) ∧
      digestsOf (p₁.run .allActive [second, third]) = some [[], [12, 13]] ∧
      digestsOf (restarted.run .allActive [second, third]) = some [[13], [12]] := by
  let _ := HashFunction.polynomial
  intro first second third batches fetch
  obtain ⟨rs, p₁, hok, rs', p₃, hok', restarted, replay, hrestart, rfl, hlive⟩ :
      ∃ rs p₁, initial.run .allActive [first] = .ok (rs, p₁) ∧
        ∃ rs' p₃, initial.run .allActive [first, second, third] = .ok (rs', p₃) ∧
        ∃ restarted replay, (Disk.ofCrash p₁ p₃ [first, second, third] batches).restart 1 fetch =
            .ok (restarted, replay) ∧ replay = [second, third] ∧
          digestsOf (p₁.run .allActive [second, third]) = some [[], [12, 13]] ∧
          digestsOf (restarted.run .allActive [second, third]) = some [[13], [12]] := by
    set_option synthInstance.maxSize 1000 in
    decide +kernel
  exact ⟨rs, p₁, rs', p₃, restarted, hok, hok', hrestart, hlive⟩

end Processor

end Axyl
