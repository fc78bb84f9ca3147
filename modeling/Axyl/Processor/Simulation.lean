import Axyl.Processor.Dedup

/-! Two processors that differ in the registry only, and there only in the retry counts of
registered digests, execute the same outputs alike. -/

namespace Axyl
open Fallible (Related)

namespace ExecutedBatchRegistry

/-- The same digests are registered, and the retry counts of those in `F` are the same. -/
structure Alike (F : Nat → Prop) (r r' : ExecutedBatchRegistry) : Prop where
  contains : ∀ d, r.contains d = r'.contains d
  retry : ∀ d, F d → r.retryCount d = r'.retryCount d

namespace Alike

variable {F : Nat → Prop} {r r' : ExecutedBatchRegistry}

theorem tryRegister (h : Alike F r r') (e : Nat) :
    (r.tryRegister e).1 = (r'.tryRegister e).1 ∧ Alike F (r.tryRegister e).2 (r'.tryRegister e).2 := by
  refine ⟨congrArg not (h.contains e), fun d => ?_, h.retry⟩
  rw [contains_tryRegister, contains_tryRegister, h.contains]

theorem dropDigest (h : Alike F r r') {e : Nat} (he : F e) :
    (r.dropDigest e).1 = (r'.dropDigest e).1 ∧ Alike F (r.dropDigest e).2 (r'.dropDigest e).2 := by
  rcases Nat.lt_or_ge (r.retryCount e) maxNonceTooHighRetries with hlt | hge
  · obtain ⟨h₁, h₂, h₃⟩ := dropDigest_of_lt hlt
    rw [h.retry e he] at hlt
    obtain ⟨k₁, k₂, k₃⟩ := dropDigest_of_lt hlt
    refine ⟨h₁.trans k₁.symm, fun d => ?_, fun d hd => ?_⟩
    · rw [h₂, k₂, h.contains]
    · rw [h₃, k₃, h.retry d hd]
  · obtain ⟨h₁, h₂, h₃⟩ := dropDigest_of_le hge
    rw [h.retry e he] at hge
    obtain ⟨k₁, k₂, k₃⟩ := dropDigest_of_le hge
    refine ⟨h₁.trans k₁.symm, fun d => ?_, fun d hd => ?_⟩
    · rw [h₂, k₂, h.contains]
    · rw [h₃, k₃, h.retry d hd]

end Alike

end ExecutedBatchRegistry

open ExecutedBatchRegistry (Alike)

variable {F : Nat → Prop} {r' r : ExecutedBatchRegistry}

theorem AuthoritySeqState.drainLoop_related (turns : Nat) (auth : AuthoritySeqState)
    (h : Alike F r r') :
    Related (fun x y => x.1 = y.1 ∧ x.2.1 = y.2.1 ∧ Alike F x.2.2 y.2.2)
      (drainLoop true turns auth r) (drainLoop true turns auth r') := by
  induction turns generalizing auth r r' with
  | zero => exact ⟨rfl, rfl, h⟩
  | succ turns ih =>
    rw [drainLoop, drainLoop]
    split
    · exact ⟨rfl, rfl, h⟩
    · refine (Related.of_eq rfl fun _ => rfl).bind (R := Eq) fun next _ _ heq => ?_
      subst heq
      split
      · exact ⟨rfl, rfl, h⟩
      · rename_i q _
        dsimp only
        obtain ⟨hnew, hreg⟩ := h.tryRegister q.batchDigest
        refine (ih _ hreg).bind fun x y _ hxy => ?_
        rw [hnew, hxy.1]
        exact ⟨rfl, hxy.2⟩

theorem BatchOrderingState.drainConsecutive_related {o : BatchOrderingState} {a : Nat}
    (h : Alike F r r') :
    Related (fun x y => x.1 = y.1 ∧ x.2.1 = y.2.1 ∧ Alike F x.2.2 y.2.2)
      (o.drainConsecutive a r true) (o.drainConsecutive a r' true) := by
  unfold drainConsecutive
  split
  · exact ⟨rfl, rfl, h⟩
  · rename_i auth _
    have hloop := AuthoritySeqState.drainLoop_related (auth.parked.size + 1) auth h
    revert hloop
    cases auth.drainLoop true (auth.parked.size + 1) r <;>
      cases auth.drainLoop true (auth.parked.size + 1) r' <;> intro hloop
    · exact hloop
    · exact hloop.elim
    · exact hloop.elim
    · obtain ⟨h₁, h₂, h₃⟩ := hloop
      exact ⟨h₁, congrArg (o.set a) h₂, h₃⟩

namespace CollectState

def Alike (F : Nat → Prop) (s t : CollectState) : Prop :=
  s.ordering = t.ordering ∧ ExecutedBatchRegistry.Alike F s.registry t.registry

variable {s t : CollectState}

theorem registerAndDrain_related (h : ExecutedBatchRegistry.Alike F s.registry t.registry)
    (disposition : Disposition) (p : PreparedBatch) (o : BatchOrderingState) :
    Related (fun x y => x.1 = y.1 ∧ Alike F x.2 y.2)
      (s.registerAndDrain disposition p o) (t.registerAndDrain disposition p o) := by
  obtain ⟨hnew, hreg⟩ := h.tryRegister p.batchDigest
  unfold registerAndDrain
  dsimp only
  rw [← hnew]
  split
  · refine (BatchOrderingState.drainConsecutive_related hreg).bind fun x y _ hxy => ?_
    exact ⟨congrArg (fun drained => (⟨disposition, p :: drained⟩ : Collected)) hxy.1, hxy.2⟩
  · exact ⟨rfl, rfl, hreg⟩

theorem collect_related (p : PreparedBatch) (h : Alike F s t) :
    Related (fun x y => x.1 = y.1 ∧ Alike F x.2 y.2) (s.collect true true p)
      (t.collect true true p) := by
  unfold collect
  rw [← h.2.contains p.batchDigest]
  split
  · exact ⟨rfl, h⟩
  · rw [collectV2, collectV2, ← h.1]
    refine (Related.of_eq rfl fun _ => rfl).bind (R := Eq) fun x _ _ heq => ?_
    subst heq
    obtain ⟨result, ordering⟩ := x
    cases result with
    | parked => exact ⟨rfl, rfl, h.2⟩
    | inOrder q | overflowForced q => exact registerAndDrain_related h.2 _ q ordering

end CollectState

section
variable {σ : Type} [Evm σ] {cfg : ProcessorConfig}

namespace ExecState

def Alike (F : Nat → Prop) (s t : ExecState σ) : Prop :=
  s.head = t.head ∧ s.state = t.state ∧ ExecutedBatchRegistry.Alike F s.registry t.registry

theorem execute_related {s t : ExecState σ} {y : PreparedBatch × Option Nat}
    (hF : F y.1.batchDigest) (h : Alike F s t) :
    Related (fun x y => x.1 = y.1 ∧ Alike F x.2 y.2) (s.execute cfg true y)
      (t.execute cfg true y) := by
  obtain ⟨hdrop, hreg⟩ := h.2.2.dropDigest hF
  unfold execute
  rw [← h.1, ← h.2.1]
  generalize s.registry.dropDigest y.1.batchDigest = drop at hdrop hreg ⊢
  generalize t.registry.dropDigest y.1.batchDigest = drop' at hdrop hreg ⊢
  split
  · rfl
  · split
    · exact ⟨by rw [hdrop], rfl, rfl, hreg⟩
    · exact ⟨rfl, rfl, rfl, h.2.2⟩

end ExecState

variable [HashFunction]

namespace Processor

/-- Two processors that differ in the registry, and there in the retry counts of registered
digests, if at all. -/
def Alike (p q : Processor σ) : Prop :=
  q = { p with registry := q.registry } ∧
    ExecutedBatchRegistry.Alike (fun d => p.registry.contains d = false) p.registry q.registry

theorem fallbackBlock_related {o : ConsensusOutput} {empty : Bool} {seed : Option Nat}
    {s t : ExecState σ} (h : s.Alike F t) :
    Related (fun x y => x.1 = y.1 ∧ ExecState.Alike F x.2 y.2) (fallbackBlock cfg o empty seed s)
      (fallbackBlock cfg o empty seed t) := by
  unfold fallbackBlock
  rw [← h.1, ← h.2.1]
  split
  · split
    · rfl
    · exact ⟨rfl, rfl, rfl, h.2.2⟩
  · exact ⟨rfl, h⟩

variable {p : Processor σ}

section
variable (hspec : cfg.spec.AllActive)
include hspec

theorem executeConsensusOutput_related (o : ConsensusOutput) {reg : ExecutedBatchRegistry}
    (h : ExecutedBatchRegistry.Alike (fun d => p.registry.contains d = false) p.registry reg) :
    Related (fun x y => x.1 = y.1 ∧ y.2 = { x.2 with registry := y.2.registry } ∧
        ExecutedBatchRegistry.Alike (fun d => p.registry.contains d = false)
          x.2.registry y.2.registry)
      (p.executeConsensusOutput cfg o) (executeConsensusOutput cfg { p with registry := reg } o) := by
  unfold executeConsensusOutput drainAndExecuteEpochParked
  simp only [hspec.outputSeqNormalization, hspec.batchDigestV2, if_true]
  refine Related.bind (R := fun x y => x.1 = y.1 ∧
    ExecState.Alike (fun d => p.registry.contains d = false) x.2 y.2 ∧
    x.2.registry = p.registry) ⟨rfl, ⟨rfl, rfl, h⟩, rfl⟩ fun x y _ hxy => ?_
  obtain ⟨drained, s⟩ := x
  obtain ⟨drained', t⟩ := y
  obtain ⟨rfl, hst, hs⟩ := hxy
  rw [← hst.1]
  split
  · rfl
  · have hstart : CollectState.Alike (fun d => p.registry.contains d = false)
        ⟨s.registry, (p.ordering.drainEpoch o.epoch).2⟩
        ⟨t.registry, (p.ordering.drainEpoch o.epoch).2⟩ := ⟨rfl, hst.2.2⟩
    refine (Machine.run_related (fun x _ _ _ => CollectState.collect_related x) hstart).bind
      fun x y hx hxy => ?_
    obtain ⟨outcomes, c⟩ := x
    obtain ⟨outcomes', c'⟩ := y
    obtain ⟨rfl, hcc⟩ := hxy
    have hcol := CollectState.run_collect_registers hx
    rw [hs] at hcol
    have hnext : ExecState.Alike (fun d => p.registry.contains d = false)
        ⟨c.registry, s.head, s.state⟩ ⟨c'.registry, s.head, t.state⟩ := ⟨rfl, hst.2.1, hcc.2⟩
    refine (Machine.run_related (fun y hy _ _ => ExecState.execute_related ?_) hnext).bind
      fun x y _ hxy => ?_
    · have hmem : y.1 ∈ outcomes.flatMap Collected.batches := by
        have hfst : y.1 ∈ (withCloseEpoch _ _ _).map Prod.fst := List.mem_map_of_mem hy
        rwa [map_fst_withCloseEpoch] at hfst
      exact Bool.eq_false_iff.mpr fun hc =>
        hcol.not_mem_of_contains hc (List.mem_map_of_mem hmem)
    · obtain ⟨executions, s'⟩ := x
      obtain ⟨rfl, hst'⟩ := hxy
      rw [← hst'.1]
      refine (fallbackBlock_related hst').bind fun x y _ hxy => ?_
      obtain ⟨fallback, s''⟩ := x
      obtain ⟨rfl, hst''⟩ := hxy
      split
      · rfl
      · refine ⟨rfl, ?_, hst''.2.2⟩
        rw [hst''.1, hst''.2.1, hcc.1]

variable {q : Processor σ}

theorem Alike.output (o : ConsensusOutput) (h : Alike p q) :
    Related (fun x y => x.1 = y.1 ∧ Alike x.2 y.2) (p.executeConsensusOutput cfg o)
      (q.executeConsensusOutput cfg o) := by
  rw [h.1]
  refine (executeConsensusOutput_related hspec o h.2).mono fun x y hx hxy => ?_
  refine ⟨hxy.1, hxy.2.1, hxy.2.2.contains, fun d hd => hxy.2.2.retry d ?_⟩
  have hsettles := executeConsensusOutput_settles hspec hx
  exact Bool.eq_false_iff.mpr fun hc =>
    Bool.false_ne_true (hd.symm.trans (hsettles.contains_mono hc))

theorem Alike.run (outputs : List ConsensusOutput) (h : Alike p q) :
    (p.run cfg outputs).map Prod.fst = (q.run cfg outputs).map Prod.fst :=
  (Machine.run_related (R := Alike) (fun o _ _ _ => Alike.output hspec o) h).map_eq
    fun _ _ hxy => hxy.1

end

end Processor

end

end Axyl
