import Axyl.Consensus.ChainDigest
import Axyl.Processor.Orchestrator

/-! Execution of an output depends on what its digest covers: signatures and scores do not matter. -/

namespace Axyl
open List Function ConsensusOutput
open Fallible (map_guard map_bind_eq)

/-- The batches of the certificates, each the one that its digest stands for. -/
structure ConsensusOutput.Carries (address : Nat → Nat) (batchOf : Nat → Batch)
    (o : ConsensusOutput) : Prop where
  digests : o.batchDigests = o.subDag.certificates.flatMap fun c => c.header.payload.map Prod.fst
  batches : o.flattenBatches = o.subDag.certificates.flatMap fun c =>
    c.header.payload.map fun entry => (address c.origin, batchOf entry.1)

section
variable [HashFunction]

namespace Processor

variable {σ : Type} [Evm σ] {cfg : ProcessorConfig}

/-- Two nodes with the same parent block, ordering and registry, each with its own copy of the
output and of the leader's signatures. -/
theorem executes_agreed_data (hspec : cfg.spec.AllActive) (hhash : Injective HashFunction.hash)
    {o o' : ConsensusOutput} {address : Nat → Nat} {batchOf : Nat → Batch}
    (ho : o.Carries address batchOf) (ho' : o'.Carries address batchOf) {C : Set Certificate}
    (hC : C.InjOn Certificate.digest) (hd : o.subDag.DrawnFrom C) (hd' : o'.subDag.DrawnFrom C)
    (hclose : o.closeEpoch = o'.closeEpoch) (hdigest : o.digest = o'.digest) (p p' : Processor σ)
    (hp : p' = { p with row := p'.row, chain := p'.chain }) (sigs : ConsensusOutput → Nat) :
    (p.executeConsensusOutput cfg o).map Prod.fst =
      (p'.executeConsensusOutput { cfg with keccakLeaderSigs := sigs } o').map Prod.fst := by
  have hsub := CommittedSubDag.eq_of_digest_eq hhash hC hd hd'
    (ConsensusHeader.eq_of_digest_eq hhash hdigest).2.1
  have hflat : o'.flattenBatches = o.flattenBatches := by
    rw [ho.batches, ho'.batches, hsub]
  have hdigs : o'.batchDigests = o.batchDigests := by
    rw [ho.digests, ho'.digests, hsub]
  have hlead : o'.leader = o.leader := by
    rw [leader, hsub]
    rfl
  have hat : o'.committedAt = o.committedAt := by
    rw [committedAt, hsub]
    rfl
  have hprep : ∀ n, preparedBatches { cfg with keccakLeaderSigs := sigs } o' n =
      preparedBatches cfg o n := by
    intro n
    unfold preparedBatches outputBatches prepare nonce epoch
    rw [hflat, hdigs, hlead, hat, hdigest]
  have hseed : ∀ head, closeEpochValue { cfg with keccakLeaderSigs := sigs } o' head =
      closeEpochValue cfg o head := by
    intro head
    unfold closeEpochValue
    simp only [hspec.epochCloseSeedV2, if_true]
    rw [hclose, hdigest]
  have hblock : ∀ empty seed (s : ExecState σ),
      fallbackBlock { cfg with keccakLeaderSigs := sigs } o' empty seed s =
        fallbackBlock cfg o empty seed s := by
    intro empty seed s
    unfold fallbackBlock executeEmptyBlock nonce epoch
    rw [hlead, hat, hdigest]
  have hepoch : o'.epoch = o.epoch := congrArg Certificate.epoch hlead
  unfold executeConsensusOutput
  rw [hp]
  simp only [hprep, hseed, hflat, hdigs, ← hclose, hblock, hepoch]
  -- the nodes take the same way from here and differ in the chain that they extend
  refine map_bind_eq (f := id) rfl ?_
  rintro _ ⟨drained, s⟩ rfl
  refine map_guard fun _ => map_bind_eq (f := id) rfl ?_
  rintro _ ⟨outcomes, c⟩ rfl
  refine map_bind_eq (f := id) rfl ?_
  rintro _ ⟨executions, s'⟩ rfl
  refine map_bind_eq (f := id) rfl ?_
  rintro _ ⟨fallback, s''⟩ rfl
  exact map_guard fun _ => rfl

end Processor

end

/-- The closing output of an epoch with other scores. -/
theorem Processor.executes_agreed_data_scores :
    letI := HashFunction.encode
    let batch : Batch := ⟨[100], 1, 1, 7, 0, 1⟩
    let o := { ofBatches 1 2 [(batch, 11)] with closeEpoch := true }
    let o' := { o with subDag := { o.subDag with reputationScore := ⟨{(1, 5)}, true⟩ } }
    (initial.executeConsensusOutput .allActive o).map Prod.fst =
      (initial.executeConsensusOutput { ProcessorConfig.allActive with
        keccakLeaderSigs := fun o => o.subDag.reputationScore.totalAuthorities } o').map Prod.fst := by
  let _ := HashFunction.encode
  intro batch o o'
  have hcarries : ConsensusOutput.Carries (fun _ => 1) (fun _ => batch) o := ⟨rfl, rfl⟩
  have hd : o.subDag.DrawnFrom {o.leader} := ⟨rfl, by simp [o, ofBatches, CommittedSubDag.new, leader]⟩
  exact executes_agreed_data ChainSpec.allActive_spec Encodable.encode_injective hcarries
    ⟨rfl, rfl⟩ (Set.injOn_singleton _ o.leader) hd hd rfl rfl _ _ rfl _

end Axyl
