import Axyl.Processor.Collect

/-! The ordering after a restart: what is read back from disk, the reseed from the history of
the epoch, and when it is the ordering that was lost. -/

namespace Axyl
open BatchOrderingState ConsensusOutput List HashFunction
open Std ExtTreeMap

namespace BatchOrderingState

variable {o : BatchOrderingState} {batches : Batches}

def BodiesIn (o : BatchOrderingState) (batches : Batches) : Prop :=
  ∀ (a k : Nat) q, (o.parked a)[k]? = some q → batches[q.batchDigest]? = some q.batch

theorem bodiesIn_iff : o.BodiesIn batches ↔ ∀ e ∈ o.authorities.toList, ∀ x ∈ e.2.parked.toList,
    batches[x.2.batchDigest]? = some x.2.batch := by
  constructor
  · intro h e he x hx
    apply h e.1 x.1
    rw [parked, get, mem_toList_iff_getElem?_eq_some.mp he]
    exact mem_toList_iff_getElem?_eq_some.mp hx
  · intro h a k q hq
    rw [parked, get] at hq
    cases ha : o.authorities[a]? with
    | none => simp [ha, AuthoritySeqState.default] at hq
    | some auth =>
      rw [ha] at hq
      exact h (a, auth) (mem_toList_iff_getElem?_eq_some.mpr ha) (k, q)
        (mem_toList_iff_getElem?_eq_some.mpr hq)

instance (o : BatchOrderingState) (batches : Batches) : Decidable (o.BodiesIn batches) :=
  decidable_of_iff _ bodiesIn_iff.symm

theorem reconstructParked_ofState (h : o.BodiesIn batches) :
    (StoredBatchOrderingState.ofState o).reconstructParked batches = o := by
  obtain ⟨epoch, authorities⟩ := o
  have hauth : ∀ (a : Nat) auth, authorities[a]? = some auth →
      (auth.parked.map fun _ => ParkedRef.ofPrepared).filterMap (fun _ reference =>
        (batches[reference.batchDigest]?).map reference.intoPrepared) = auth.parked := by
    intro a auth ha
    apply ExtTreeMap.ext_getElem?
    intro k
    rw [ExtTreeMap.getElem?_filterMap', ExtTreeMap.getElem?_map]
    cases hk : auth.parked[k]? with
    | none => rfl
    | some q =>
      have hbody := h a k q (by simpa [parked, get, ha] using hk)
      change (batches[q.batchDigest]?).map (ParkedRef.ofPrepared q).intoPrepared = _
      rw [hbody, Option.map_some, ParkedRef.intoPrepared_ofPrepared]
  rw [StoredBatchOrderingState.ofState]
  refine congrArg (mk epoch) (ext_getElem? fun a => ?_)
  rw [ExtTreeMap.getElem?_map, ExtTreeMap.getElem?_map]
  cases ha : authorities[a]? with
  | none => rfl
  | some auth =>
    obtain ⟨last, parked⟩ := auth
    exact congrArg (fun parked => some (⟨last, parked⟩ : AuthoritySeqState)) (hauth a _ ha)

end BatchOrderingState

theorem getElem?_raiseSeq (seqs : ExtTreeMap Nat Nat) (b : Batch) (a : Nat) :
    (raiseSeq seqs b)[a]?.isSome = (decide (b.beneficiary = a) || seqs[a]?.isSome) := by
  rw [raiseSeq]
  by_cases h : b.beneficiary = a <;> simp [h]

theorem isSome_foldl_raiseSeq (bs : List Batch) (seqs : ExtTreeMap Nat Nat) (a : Nat) :
    (bs.foldl raiseSeq seqs)[a]?.isSome =
      (bs.any (fun b => decide (b.beneficiary = a)) || seqs[a]?.isSome) := by
  induction bs generalizing seqs with
  | nil => simp
  | cons b bs ih =>
    rw [foldl_cons, ih, getElem?_raiseSeq, any_cons, ← Bool.or_assoc]
    rw [Bool.or_comm (bs.any _)]

def NoHistory (blocks : ConsensusBlocks) (batches : Batches) (epoch : Nat) : Prop :=
  ∀ header ∈ historyOf blocks epoch, ∀ digest ∈ header.batchDigests, batches[digest]? = none

section
variable {blocks : ConsensusBlocks} {bats : Batches} {epoch : Nat}

theorem historyBatches_eq_nil_iff :
    historyBatches blocks bats epoch = [] ↔ NoHistory blocks bats epoch := by
  rw [historyBatches, filterMap_eq_nil_iff]
  constructor
  · intro h hdr hh dig hd
    exact h dig (mem_flatMap.mpr ⟨hdr, hh, hd⟩)
  · intro h dig hd
    obtain ⟨hdr, hh, hd⟩ := mem_flatMap.mp hd
    exact h hdr hh dig hd

theorem recoverAuthoritiesFromHistory_of_noHistory (h : NoHistory blocks bats epoch) :
    recoverAuthoritiesFromHistory blocks bats epoch = ∅ := by
  rw [recoverAuthoritiesFromHistory, historyBatches_eq_nil_iff.mpr h]
  simp

theorem exists_recovered (h : ¬NoHistory blocks bats epoch) :
    ∃ (a : Nat) (seq : Nat), (recoverAuthoritiesFromHistory blocks bats epoch)[a]? =
      some ⟨some seq, ∅⟩ := by
  obtain ⟨b, bs, hbs⟩ := exists_cons_of_ne_nil (mt historyBatches_eq_nil_iff.mp h)
  have hsome := isSome_foldl_raiseSeq (historyBatches blocks bats epoch) ∅ b.beneficiary
  rw [hbs, any_cons, decide_eq_true rfl, ← hbs] at hsome
  obtain ⟨seq, hseq⟩ := Option.isSome_iff_exists.mp hsome
  refine ⟨b.beneficiary, seq, ?_⟩
  rw [recoverAuthoritiesFromHistory, ExtTreeMap.getElem?_map, hseq]
  rfl

theorem fromHistory_write {o : BatchOrderingState} (h : o.BodiesIn bats) :
    fromHistory (some (writeBatchOrderingState o)) bats blocks o.epoch =
      .ok (if o.authorities.isEmpty then
        ⟨o.epoch, recoverAuthoritiesFromHistory blocks bats o.epoch⟩ else o) := by
  unfold fromHistory
  rw [writeBatchOrderingState, readBatchOrderingState, reconstructParked_ofState h]
  change (if o.authorities.isEmpty = true ∨ ¬(o.epoch = o.epoch ∨ o.epoch + 1 = o.epoch) then _
    else _) = _
  simp only [true_or, not_true_eq_false, or_false]
  split <;> rfl

end

namespace Processor

section
variable {σ : Type} [Evm σ] [HashFunction] {cfg : ProcessorConfig} {p p' : Processor σ}

def withOrdering (p : Processor σ) (ordering : BatchOrderingState) : Processor σ :=
  { p with ordering }

theorem row_executeConsensusOutput {o : ConsensusOutput} {r : OutputResult}
    (h : p.executeConsensusOutput cfg o = .ok (r, p')) :
    p'.row = some (writeBatchOrderingState p'.ordering) := by
  obtain ⟨φ, -, -, rfl⟩ := phases_of_executeConsensusOutput h
  rfl

theorem epoch_run_le {outs : List ConsensusOutput} {results : List OutputResult} {epoch : Nat}
    (h : p.run cfg outs = .ok (results, p')) (hp : p.ordering.epoch ≤ epoch)
    (hle : ∀ o ∈ outs, o.epoch ≤ epoch) : p'.ordering.epoch ≤ epoch := by
  induction outs generalizing p results with
  | nil =>
    cases h
    exact hp
  | cons o outs ih =>
    obtain ⟨r, p₁, rest, hstep, hrest, rfl⟩ := Machine.run_cons_eq_ok.mp h
    refine ih hrest ?_ fun o' ho' => hle o' (mem_cons_of_mem o ho')
    rw [epoch_executeConsensusOutput hstep]
    exact max_le hp (hle o mem_cons_self)

/-- A restart after the last of some outputs, none of a later epoch than it: the ordering comes
back exactly when it tracked an authority or there is no history for the epoch, and then every
later output yields the same. -/
theorem restored_agrees_iff {outputs : List ConsensusOutput} {o : ConsensusOutput}
    {results : List OutputResult} (h : p.run cfg (outputs ++ [o]) = .ok (results, p'))
    (hepoch : p.ordering.epoch ≤ o.epoch) (hlast : ∀ o' ∈ outputs, o'.epoch ≤ o.epoch)
    {batches : Batches} (hbodies : p'.ordering.BodiesIn batches) (blocks : ConsensusBlocks) :
    ∃ restored, fromHistory p'.row batches blocks o.epoch = .ok restored ∧
      ((∀ a, restored.lastExecutedSeq a = p'.ordering.lastExecutedSeq a ∧
          restored.parked a = p'.ordering.parked a) ↔
        p'.ordering.authorities ≠ ∅ ∨ NoHistory blocks batches o.epoch) ∧
      (p'.ordering.authorities ≠ ∅ ∨ NoHistory blocks batches o.epoch →
        ∀ later, (p'.withOrdering restored).run cfg later = p'.run cfg later) := by
  obtain ⟨rs, p₁, rs', hrun, hone, -⟩ := Machine.run_append_eq_ok.mp h
  obtain ⟨r, p₂, _, hstep, hnil, -⟩ := Machine.run_cons_eq_ok.mp hone
  cases hnil
  have hcur : p'.ordering.epoch = o.epoch := by
    rw [epoch_executeConsensusOutput hstep]
    exact max_eq_right (epoch_run_le hrun hepoch hlast)
  rw [row_executeConsensusOutput hstep, ← hcur, fromHistory_write hbodies]
  refine ⟨_, rfl, ?_⟩
  by_cases hne : p'.ordering.authorities = ∅
  · rw [if_pos (by rw [hne]; rfl)]
    by_cases hno : NoHistory blocks batches p'.ordering.epoch
    · have hsame : (⟨p'.ordering.epoch, recoverAuthoritiesFromHistory blocks batches
          p'.ordering.epoch⟩ : BatchOrderingState) = p'.ordering := by
        rw [recoverAuthoritiesFromHistory_of_noHistory hno, ← hne]
      rw [hsame]
      exact ⟨⟨fun _ => .inr hno, fun _ a => ⟨rfl, rfl⟩⟩, fun _ later => rfl⟩
    · refine ⟨⟨fun hall => ?_, fun hcond => ?_⟩, fun hcond => ?_⟩
      · obtain ⟨a, seq, ha⟩ := exists_recovered hno
        have hseq := (hall a).1
        simp [BatchOrderingState.lastExecutedSeq, BatchOrderingState.get, ha, hne,
          AuthoritySeqState.default] at hseq
      · exact absurd hcond (not_or.mpr ⟨not_not.mpr hne, hno⟩)
      · exact absurd hcond (not_or.mpr ⟨not_not.mpr hne, hno⟩)
  · rw [if_neg (by rwa [ExtTreeMap.isEmpty_iff])]
    exact ⟨⟨fun _ => .inl hne, fun _ a => ⟨rfl, rfl⟩⟩, fun _ later => rfl⟩

end

/-- A batch parked behind a gap is back after the restart. -/
theorem restored_agrees_iff_parked :
    letI := polynomial
    let o := ofBatches 1 2 [numbered 1 11, numbered 3 12]
    let batches : Batches := .ofPairs [numbered 1 11, numbered 3 12]
    let blocks : ConsensusBlocks := .ofList [(2, o.consensusHeader)]
    ∃ results p' restored, initial.run .allActive [o] = .ok (results, p') ∧
      fromHistory p'.row batches blocks 1 = .ok restored ∧
      ((p'.ordering.parked 1)[3]?).map PreparedBatch.batchDigest = some 12 ∧
      (∀ a, restored.lastExecutedSeq a = p'.ordering.lastExecutedSeq a ∧
        restored.parked a = p'.ordering.parked a) ∧
      ∀ later, (p'.withOrdering restored).run .allActive later = p'.run .allActive later := by
  let _ := polynomial
  intro o batches blocks
  obtain ⟨results, p', hok, hbodies, hne, hparked⟩ : ∃ results p',
      initial.run .allActive ([] ++ [o]) = .ok (results, p') ∧
        p'.ordering.BodiesIn batches ∧ p'.ordering.authorities.isEmpty = false ∧
        ((p'.ordering.parked 1)[3]?).map PreparedBatch.batchDigest = some 12 := by
    decide +kernel
  have hcond : p'.ordering.authorities ≠ ∅ := ExtTreeMap.isEmpty_eq_false_iff.mp hne
  obtain ⟨restored, hrestored, hiff, hlater⟩ :=
    restored_agrees_iff hok (by decide) (by decide) hbodies blocks
  exact ⟨results, p', restored, hok, hrestored, hparked, hiff.mpr (.inl hcond), hlater (.inl hcond)⟩

/-- In the new epoch the only batch so far is a duplicate of the old one, with number five. The
live ordering has seen nothing; the reseed takes five for executed. Number three is then parked
by the live node and executed, as stale, by the other. -/
theorem restored_counts_duplicates :
    letI := polynomial
    let first := ofBatches 1 2 [numbered 5 11]
    let second := ofBatches 2 2 [numbered 5 11]
    let batches : Batches := .ofPairs [numbered 5 11]
    let blocks : ConsensusBlocks := .ofList [(1, first.consensusHeader), (2, second.consensusHeader)]
    let next := ofBatches 2 4 [numbered 1 12, numbered 3 13]
    ∃ results p' restored, initial.run .allActive [first, second] = .ok (results, p') ∧
      p'.ordering.BodiesIn batches ∧
      fromHistory p'.row batches blocks 2 = .ok restored ∧
      p'.ordering.lastExecutedSeq 1 = none ∧ restored.lastExecutedSeq 1 = some 5 ∧
      p'.verdicts next = some ([.inOrder, .parked], [12]) ∧
      (p'.withOrdering restored).verdicts next = some ([.inOrder, .inOrder], [12, 13]) := by
  let _ := polynomial
  intro first second batches blocks next
  obtain ⟨results, p', hok, hbodies, hlast, hlive, restored, hrestored⟩ : ∃ results p',
      initial.run .allActive [first, second] = .ok (results, p') ∧
        p'.ordering.BodiesIn batches ∧ p'.ordering.lastExecutedSeq 1 = none ∧
        p'.verdicts next = some ([.inOrder, .parked], [12]) ∧
        ∃ restored, fromHistory p'.row batches blocks 2 = .ok restored ∧
          restored.lastExecutedSeq 1 = some 5 ∧
          (p'.withOrdering restored).verdicts next = some ([.inOrder, .inOrder], [12, 13]) := by
    decide +kernel
  exact ⟨results, p', restored, hok, hbodies, hrestored.1, hlast, hrestored.2.1, hlive, hrestored.2.2⟩

end Processor

end Axyl
