import Axyl.Storage.ConsensusStore

/-! The highest sequence number of a worker's own batches, read back from the consensus chain. -/

namespace Axyl
open List

/-- Whose batches are looked for, and the table of batches, here with their sequence numbers. -/
structure SeqQuery where
  batches : Nat → Option Nat
  workerId : Nat
  authorityId : Nat
  currentEpoch : Nat

namespace SeqQuery

variable (q : SeqQuery)

def scanEntry (acc : Option Nat × Bool) (entry : Nat × Nat) : Option Nat × Bool :=
  if entry.2 ≠ q.workerId then acc
  else match q.batches entry.1 with
    | some seq => (some (acc.1.elim seq (max · seq)), true)
    | none => acc

def scanCert (acc : Option Nat × Bool) (cert : Certificate) : Option Nat × Bool :=
  if cert.header.author ≠ q.authorityId then acc else cert.header.payload.foldl q.scanEntry acc

def walk (maxSeq : Option Nat) : List CommittedSubDag → Option Nat
  | [] => maxSeq
  | d :: earlier =>
    if d.leaderEpoch < q.currentEpoch then maxSeq
    else
      let (maxSeq, foundInBlock) := d.certificates.foldl q.scanCert (maxSeq, false)
      if foundInBlock then maxSeq else walk maxSeq earlier

def walkConsensusBlocksForMaxSeq (blocks : ConsensusBlocks) : Option Nat :=
  q.walk none blocks.subDags.reverse

def ownSeqs (d : CommittedSubDag) : List Nat :=
  (d.certificates.filter fun cert => cert.header.author = q.authorityId).flatMap fun cert =>
    (cert.header.payload.filter fun entry => entry.2 = q.workerId).filterMap
      fun entry => q.batches entry.1

def epochBlocks (blocks : ConsensusBlocks) : List CommittedSubDag :=
  blocks.subDags.filter fun d => d.leaderEpoch = q.currentEpoch

/-- The newest block of the epoch with own batches has one that is as high as all before it. -/
def NewestHighest (blocks : ConsensusBlocks) : Prop :=
  ∀ earlier d later, q.epochBlocks blocks = earlier ++ d :: later → q.ownSeqs d ≠ [] →
    (∀ e ∈ later, q.ownSeqs e = []) →
    ∀ e ∈ earlier, ∀ seq ∈ q.ownSeqs e, ∃ seq' ∈ q.ownSeqs d, seq ≤ seq'

variable {q}

theorem scan_eq (d : CommittedSubDag) (acc : Option Nat × Bool) :
    d.certificates.foldl q.scanCert acc = (q.ownSeqs d).foldl
      (fun acc seq => (some (acc.1.elim seq (max · seq)), true)) acc := by
  rw [ownSeqs, foldl_flatMap, foldl_filter]
  congr 1
  funext acc cert
  rw [scanCert, ite_not, foldl_filterMap, foldl_filter]
  simp only [decide_eq_true_eq]
  congr 2
  funext acc entry
  rw [scanEntry, ite_not]
  cases q.batches entry.1 <;> rfl

theorem foldl_raise (seqs : List Nat) (m : Nat) :
    seqs.foldl (fun (acc : Option Nat × Bool) seq => (some (acc.1.elim seq (max · seq)), true))
      (some m, true) = (some (seqs.foldl max m), true) := by
  induction seqs generalizing m with
  | nil => rfl
  | cons seq seqs ih => exact ih (max m seq)

theorem walk_eq (ds : List CommittedSubDag) : q.walk none ds =
    (ds.takeWhile fun d => !decide (d.leaderEpoch < q.currentEpoch)).findSome? fun d =>
      (q.ownSeqs d).max? := by
  induction ds with
  | nil => rfl
  | cons d ds ih =>
    rw [walk, takeWhile_cons, scan_eq]
    by_cases hd : d.leaderEpoch < q.currentEpoch
    · simp [hd]
    · cases hown : q.ownSeqs d with
      | nil => simp [hd, hown, ih]
      | cons seq seqs =>
        simp only [hd, hown, decide_false, Bool.not_false, if_true, if_false, foldl_cons,
          findSome?_cons, max?_cons', Option.elim_none, foldl_raise]

theorem walkConsensusBlocksForMaxSeq_eq {bs : ConsensusBlocks}
    (hsort : bs.subDags.Pairwise fun d d' => d.leaderEpoch ≤ d'.leaderEpoch)
    (hcur : ∀ d ∈ bs.subDags, d.leaderEpoch ≤ q.currentEpoch) :
    q.walkConsensusBlocksForMaxSeq bs =
      (q.epochBlocks bs).reverse.findSome? fun d => (q.ownSeqs d).max? := by
  rw [walkConsensusBlocksForMaxSeq, walk_eq, epochBlocks, ← filter_reverse]
  congr 1
  replace hsort := pairwise_reverse.mpr hsort
  replace hcur : ∀ d ∈ bs.subDags.reverse, d.leaderEpoch ≤ q.currentEpoch :=
    fun d hd => hcur d (mem_reverse.mp hd)
  generalize bs.subDags.reverse = ds at hsort hcur
  induction ds with
  | nil => rfl
  | cons d ds ih =>
    obtain ⟨hd, hds⟩ := forall_mem_cons.mp hcur
    obtain ⟨hle, hsort⟩ := pairwise_cons.mp hsort
    by_cases heq : d.leaderEpoch = q.currentEpoch
    · simp [heq, ih hsort hds]
    · have hlt : d.leaderEpoch < q.currentEpoch := by omega
      have hnone : ∀ e ∈ ds, ¬ e.leaderEpoch = q.currentEpoch := by
        intro e he
        have := hle e he
        omega
      simpa [heq, hlt] using hnone

/-- The epochs of the chain do not go down, and there is none beyond the current one. -/
theorem walk_finds_max_iff {blocks : ConsensusBlocks}
    (hsort : blocks.subDags.Pairwise fun d d' => d.leaderEpoch ≤ d'.leaderEpoch)
    (hcur : ∀ d ∈ blocks.subDags, d.leaderEpoch ≤ q.currentEpoch) :
    q.walkConsensusBlocksForMaxSeq blocks = ((q.epochBlocks blocks).flatMap q.ownSeqs).max? ↔
      q.NewestHighest blocks := by
  rw [walkConsensusBlocksForMaxSeq_eq hsort hcur]
  unfold NewestHighest
  generalize q.epochBlocks blocks = ds
  constructor
  · rintro hmax earlier d later rfl hown hlater e he seq hseq
    have hnone : later.reverse.findSome? (fun d => (q.ownSeqs d).max?) = none := by
      simpa using hlater
    obtain ⟨m, hm⟩ := Option.ne_none_iff_exists'.mp (max?_eq_none_iff.not.mpr hown)
    rw [reverse_append, reverse_cons, append_assoc, findSome?_append, hnone, Option.none_or,
      singleton_append, findSome?_cons, hm] at hmax
    refine ⟨m, (max?_eq_some_iff.mp hm).1, (max?_eq_some_iff.mp hmax.symm).2 seq ?_⟩
    exact mem_flatMap.mpr ⟨e, mem_append_left _ he, hseq⟩
  · intro h
    cases hres : ds.reverse.findSome? fun d => (q.ownSeqs d).max? with
    | none =>
      have hnone : ds.flatMap q.ownSeqs = [] := by
        simpa using hres
      rw [hnone]
      rfl
    | some m =>
      obtain ⟨later, d, earlier, hds, hm, hlater⟩ := findSome?_eq_some_iff.mp hres
      have hds : ds = earlier.reverse ++ d :: later.reverse := by
        rw [← reverse_reverse ds, hds]
        simp
      have hm := max?_eq_some_iff.mp hm
      have hlater : ∀ e ∈ later.reverse, q.ownSeqs e = [] :=
        fun e he => max?_eq_none_iff.mp (hlater e (mem_reverse.mp he))
      refine (max?_eq_some_iff.mpr ⟨mem_flatMap.mpr ⟨d, by simp [hds], hm.1⟩, fun seq hseq => ?_⟩).symm
      obtain ⟨e, he, hseq⟩ := mem_flatMap.mp hseq
      rw [hds, mem_append, mem_cons] at he
      rcases he with he | rfl | he
      · obtain ⟨seq', hseq', hle⟩ := h _ d _ hds (ne_nil_of_mem hm.1) hlater e he seq hseq
        exact hle.trans (hm.2 seq' hseq')
      · exact hm.2 seq hseq
      · rw [hlater e he] at hseq
        cases hseq

/-- Two blocks, each with one batch of authority seven; batch `d` has the number `d - 10`. -/
def ownChain (first second : Nat) : ConsensusBlocks :=
  let block : Nat → Nat → Nat × ConsensusHeader := fun round digest =>
    let cert : Certificate := ⟨⟨7, round, 1, round, [(digest, 0)], [], round⟩⟩
    (round, ⟨0, .new [cert] cert .default none, round⟩)
  .ofList [block 2 first, block 4 second]

def ownQuery : SeqQuery := ⟨fun d => some (d - 10), 0, 7, 1⟩

theorem walk_finds_max_in_order :
    ownQuery.walkConsensusBlocksForMaxSeq (ownChain 13 15) = some 5 ∧
      ownQuery.NewestHighest (ownChain 13 15) := by
  refine ⟨by decide +kernel, (walk_finds_max_iff ?_ ?_).mp ?_⟩
  all_goals decide +kernel

/-- The batch with number three was queued again and comes after the one with number five. -/
theorem walk_misses_max : ownQuery.walkConsensusBlocksForMaxSeq (ownChain 15 13) = some 3 ∧
    ((ownQuery.epochBlocks (ownChain 15 13)).flatMap ownQuery.ownSeqs).max? = some 5 := by
  decide +kernel

end SeqQuery

end Axyl
