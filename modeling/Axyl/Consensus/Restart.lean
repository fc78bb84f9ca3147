import Axyl.Consensus.Recovery
import Axyl.Consensus.Integrity

/-! Restart: a node rebuilt from its storage goes on where the stored sub-dags end. The
view it is rebuilt with is the view after those sub-dags, although only fifty blocks,
the certificates above the garbage collection round and the last final scores are read. -/

namespace Axyl
open List LeaderSchedule CertificateDag View
open Std (ExtTreeMap)

namespace SoundDag

variable {com : Committee} {G : CertificateDag com} {g : Nat} {dag : Dag}

open ConsensusState in
theorem tryInsertInDag_spec (h : SoundDag G g dag) {c : Certificate} (hc : c ∈ G.certs)
    (lastCommitted : ExtTreeMap Nat Nat) :
    (∃ e, checkParents c dag g = .error e ∧ tryInsertInDag dag lastCommitted g c = (.error e, dag)) ∨
    ∃ b dag', tryInsertInDag dag lastCommitted g c = (.ok b, dag') ∧ SoundDag G g dag' ∧
      ∀ d, dag'.Holds d ↔ (d = c ∧ g < c.round) ∨ dag.Holds d := by
  rcases tryInsertInDag_cases dag lastCommitted g c with ⟨hr, heq⟩ | ⟨hr, e, he, heq⟩ |
    ⟨hr, -, d, hd, hne, -⟩ | ⟨hr, hp, -, heq⟩
  · refine .inr ⟨false, dag, heq, h, fun d => ?_⟩
    simp [Nat.not_lt.mpr hr]
  · exact .inl ⟨e, he, heq⟩
  · obtain ⟨hdm, hdr, hdo⟩ := h.mem hd
    exact absurd (congrArg _ (G.unique d hdm c hc hdo hdr)) hne
  · refine .inr ⟨_, _, heq, h.insert hc hr (le_refl _) hp, fun d => ?_⟩
    simp [h.holds_insert_iff hc, hr]

section
variable {epoch : Nat} (hG : ∀ c ∈ G.certs, c.epoch = epoch) (lastCommitted : ExtTreeMap Nat Nat)
include hG

open ConsensusState in
theorem constructDag_cons (h : SoundDag G g dag) {c : Certificate}
    (hc : c.epoch = epoch → c ∈ G.certs) (l : List Certificate) :
    ∃ dag', constructDag lastCommitted g epoch (c :: l) dag =
        constructDag lastCommitted g epoch l dag' ∧ SoundDag G g dag' ∧
      (∀ d, dag.Holds d → dag'.Holds d) ∧
      (c ∈ G.certs → g < c.round → (∀ p, G.Parent c p → g < p.round → dag.Holds p) →
        dag'.Holds c) := by
  by_cases hep : c.epoch = epoch
  · rcases h.tryInsertInDag_spec (hc hep) lastCommitted with ⟨e, he, heq⟩ | ⟨b, dag₁, heq, h₁, hhold⟩
    · refine ⟨dag, ?_, h, fun _ => id, fun hcG _ hpars => ?_⟩
      · rw [constructDag, if_neg (not_not.mpr hep), heq]
        rcases checkParents_eq_error he with rfl | ⟨p, -, rfl⟩ <;> rfl
      · rw [h.checkParents_of_holds hcG hpars] at he
        cases he
    · refine ⟨dag₁, ?_, h₁, fun d hd => (hhold d).mpr (.inr hd), fun _ hg _ => ?_⟩
      · rw [constructDag, if_neg (not_not.mpr hep), heq]
      · exact (hhold c).mpr (.inl ⟨rfl, hg⟩)
  · refine ⟨dag, ?_, h, fun _ => id, fun hcG => absurd (hG c hcG) hep⟩
    rw [constructDag, if_pos hep]

open ConsensusState in
theorem constructDag_spec (h : SoundDag G g dag) {l : List Certificate}
    (hl : ∀ c ∈ l, c.epoch = epoch → c ∈ G.certs) :
    ∃ dag', constructDag lastCommitted g epoch l dag = .ok dag' ∧ SoundDag G g dag' ∧
      (∀ d, dag.Holds d → dag'.Holds d) ∧
      (l.Pairwise (fun a b => a.round ≤ b.round) →
        (∀ c ∈ l, c ∈ G.certs → ∀ p, G.Parent c p → g < p.round → dag.Holds p ∨ p ∈ l) →
        ∀ c ∈ l, c ∈ G.certs → g < c.round → dag'.Holds c) := by
  induction l generalizing dag with
  | nil => exact ⟨dag, rfl, h, fun _ hd => hd, by simp⟩
  | cons c l ih =>
    obtain ⟨hc, hl⟩ := forall_mem_cons.mp hl
    obtain ⟨dag₁, heq, h₁, hkept, hown⟩ := h.constructDag_cons hG lastCommitted hc l
    obtain ⟨dag', hdag', hs, hmono, hall⟩ := ih h₁ hl
    refine ⟨dag', heq.trans hdag', hs, fun d hd => hmono d (hkept d hd), fun hsort hpars => ?_⟩
    obtain ⟨hle, hsort⟩ := pairwise_cons.mp hsort
    -- in a sorted list the parents have been inserted already
    have hfst (hcG : c ∈ G.certs) (hg : g < c.round) : dag₁.Holds c := by
      refine hown hcG hg fun p hp hgp => ?_
      refine (hpars c mem_cons_self hcG p hp hgp).resolve_right fun hmem => ?_
      have hrnd := hp.2.2
      rcases mem_cons.mp hmem with rfl | hmem
      · omega
      · have := hle p hmem
        omega
    intro d hd hdG hdg
    rcases mem_cons.mp hd with rfl | hd
    · exact hmono d (hfst hdG hdg)
    · refine hall hsort (fun x hx hxG p hp hgp => ?_) d hd hdG hdg
      rcases hpars x (mem_cons_of_mem _ hx) hxG p hp hgp with hheld | hmem
      · exact .inl (hkept p hheld)
      · rcases mem_cons.mp hmem with rfl | hmem
        · exact .inl (hfst hp.1 hgp)
        · exact .inr hmem

end

end SoundDag

theorem dropBelow_congr {g w w' : Nat} (h : ∀ r, g ≤ r → (w ≤ r ↔ w' ≤ r)) :
    dropBelow g w = dropBelow g w' := by
  have h1 := h (max g w) (le_max_left _ _)
  have h2 := h (max g w') (le_max_left _ _)
  unfold dropBelow
  split <;> split <;> omega

namespace View

variable [StdRng] {committee : Committee} {G : CertificateDag committee} {v v' : View}
  {gcDepth num threshold : Nat} {ds : List CommittedSubDag} {d : CommittedSubDag}

variable (committee gcDepth num threshold) in
/-- What the storage has to supply to resume at the view: the last sub-dag, the last final
scores, and rounds that lie behind by two for every later sub-dag. -/
structure Resumable (ds : List CommittedSubDag) (v : View) : Prop where
  gcDepth_eq : v.gcDepth = gcDepth
  committee_eq : v.protocol.committee = committee
  num_eq : v.protocol.numSubDagsPerSchedule = num
  threshold_eq : v.protocol.badNodesStakeThreshold = threshold
  schedule : ofFinalScores committee threshold
    (ds.reverse.find? fun d => d.reputationScore.finalOfSchedule) = .ok v.protocol.leaderSchedule
  last : v.last = ds.getLast?
  covers : ∀ d ∈ ds, d.reputationScore.Covers committee
  leader_mem : ∀ d ∈ ds, d.leader ∈ d.certificates
  leader_pos : ∀ d ∈ ds, 0 < d.leaderRound
  spaced : ∀ old recent, ds = old ++ recent → ∀ c ∈ sequenceOf old,
    c.round + 2 * recent.length ≤ v.committedRound

section
variable (h : Resumable committee gcDepth num threshold ds v)
include h

theorem Resumable.schedule_snoc (hstep : Step G v d v') :
    v'.protocol.committee = committee ∧ v'.protocol.numSubDagsPerSchedule = num ∧
      v'.protocol.badNodesStakeThreshold = threshold ∧
      ofFinalScores committee threshold
        ((ds ++ [d]).reverse.find? fun d => d.reputationScore.finalOfSchedule) =
          .ok v'.protocol.leaderSchedule := by
  obtain ⟨changed, hupd⟩ := hstep.schedule
  have hcom := ofFinalScores_committee h.schedule
  rw [reverse_concat, List.find?_cons]
  unfold Bullshark.updateLeaderSchedule at hupd
  cases hfin : d.reputationScore.finalOfSchedule with
  | false =>
    simp only [hfin, Bool.false_eq_true, if_false, Except.ok.injEq, Prod.mk.injEq] at hupd
    rw [← hupd.2]
    exact ⟨h.committee_eq, h.num_eq, h.threshold_eq, h.schedule⟩
  | true =>
    rw [hfin, if_pos rfl, h.committee_eq, h.threshold_eq] at hupd
    cases htab : LeaderSwapTable.new committee d.leader.round d.reputationScore threshold with
    | error e =>
      rw [htab] at hupd
      cases hupd
    | ok table =>
      rw [htab] at hupd
      simp only [bind, Except.bind, pure, Except.pure, Except.ok.injEq, Prod.mk.injEq] at hupd
      rw [← hupd.2]
      refine ⟨rfl, h.num_eq, rfl, ?_⟩
      simp only [ofFinalScores, CommittedSubDag.leaderRound, htab]
      simp only [bind, Except.bind, pure, Except.pure, updateLeaderSwapTable, hcom]

theorem Resumable.snoc (hreached : Reached G ds v) (hstep : Step G v d v') :
    Resumable committee gcDepth num threshold (ds ++ [d]) v' := by
  obtain ⟨hldr, habv, heven⟩ := hstep.leader.mem
  obtain ⟨h1, h2, h3, hschedule⟩ := h.schedule_snoc hstep
  have hrnd := hstep.committedRound
  refine ⟨hstep.gcDepth.trans h.gcDepth_eq, h1, h2, h3, hschedule, ?_, ?_, ?_, ?_, ?_⟩
  · rw [hstep.last, List.getLast?_concat]
  · refine forall_mem_append.mpr ⟨h.covers, forall_mem_singleton.mpr ?_⟩
    rw [hstep.eq_new]
    apply Bullshark.covers_nextScores h.committee_eq
    · intro e he
      rw [h.last] at he
      exact h.covers e (mem_of_getLast? he)
    · intro c hc
      exact G.author_mem c (((hstep.subDag.mem_iff c).mp hc).path.mem hldr.1)
  · refine forall_mem_append.mpr ⟨h.leader_mem, forall_mem_singleton.mpr ?_⟩
    exact (hstep.subDag.mem_iff _).mpr .refl
  · exact forall_mem_append.mpr ⟨h.leader_pos, forall_mem_singleton.mpr (Nat.zero_lt_of_lt habv)⟩
  · intro old recent heq c hc
    rcases eq_nil_or_concat recent with rfl | ⟨init, e, rfl⟩
    · rw [append_nil] at heq
      subst heq
      exact ((hreached.snoc hstep).round_le c hc).2
    · rw [concat_eq_append, ← append_assoc] at heq
      obtain ⟨rfl, -⟩ := append_inj' heq rfl
      have := h.spaced old init rfl c hc
      have := v.committedRound_even
      simp only [concat_eq_append, length_append, length_singleton]
      omega

omit [StdRng] in
/-- The last fifty sub-dags supply the watermarks: what older ones committed has been
collected. -/
theorem Resumable.watermark_eq (hreached : Reached G ds v) (hgc : gcDepth ≤ 100) (a : Nat) :
    dropBelow (v.committedRound - v.gcDepth)
      (lastRoundOf ((ds.reverse.take 50).flatMap fun d => d.leader :: d.certificates) a) =
        v.watermark a := by
  rw [hreached.watermark]
  apply dropBelow_congr
  intro r hr
  rw [lastRoundOf_le_iff, lastRoundOf_le_iff]
  have hspl : ds.reverse.take 50 = (ds.drop (ds.length - 50)).reverse := take_reverse
  constructor
  · intro hall c hc ha
    have hds := take_append_drop (ds.length - 50) ds
    rw [← hds, sequenceOf_append] at hc
    rcases mem_append.mp hc with hc | hc
    · have hspaced := h.spaced _ _ hds.symm c hc
      have hne : ds.take (ds.length - 50) ≠ [] := by
        intro he
        simp [he, sequenceOf] at hc
      have hlen : 50 < ds.length := by
        apply Nat.lt_of_sub_pos
        apply Nat.pos_of_ne_zero
        intro h0
        exact hne (by rw [h0, take_zero])
      have := h.gcDepth_eq
      rw [length_drop] at hspaced
      omega
    · apply hall c _ ha
      rw [hspl]
      obtain ⟨d, hd, hcd⟩ := mem_flatMap.mp hc
      exact mem_flatMap.mpr ⟨d, mem_reverse.mpr hd, mem_cons_of_mem _ hcd⟩
  · intro hall c hc ha
    obtain ⟨d, hd, hcd⟩ := mem_flatMap.mp hc
    have hd' := mem_reverse.mp (mem_of_mem_take hd)
    apply hall c _ ha
    apply mem_flatMap.mpr ⟨d, hd', _⟩
    rcases mem_cons.mp hcd with rfl | hcd
    · exact h.leader_mem d hd'
    · exact hcd

end

end View

namespace Consensus

variable [StdRng] {committee : Committee} {G : CertificateDag committee}
  {older ds : List CommittedSubDag} {storage : NodeStorage}

variable (G) in
/-- The storage of a node whose chain ends with the sub-dags `ds` of this epoch. What it
holds of the epoch are certificates of the set, each with its parents. -/
structure Persisted (older ds : List CommittedSubDag) (storage : NodeStorage) : Prop where
  subDags_eq : storage.consensusBlocks.subDags = older ++ ds
  older_lt : ∀ d ∈ older, d.leaderEpoch < committee.epoch
  indexed : storage.certificateStore.Indexed
  current : ∀ c, storage.certificateStore.Holds c → c.epoch = committee.epoch → c ∈ G.certs
  closed : ∀ c p, storage.certificateStore.Holds c → G.Parent c p →
    storage.certificateStore.Holds p

omit [StdRng] in
theorem Persisted.constructDag (h : Persisted G older ds storage)
    (hep : G.epoch = committee.epoch) (lastCommitted : ExtTreeMap Nat Nat) (g : Nat) :
    ∃ dag, ConsensusState.constructDagFromCertStore storage.certificateStore lastCommitted g
        committee.epoch = .ok dag ∧ SoundDag G g dag ∧
      ∀ c, storage.certificateStore.Holds c → c ∈ G.certs → g < c.round → dag.Holds c := by
  obtain ⟨certs, hcs, hmem⟩ := h.indexed.afterRound (g + 1)
  have hmem' : ∀ c, c ∈ certs.insertionSort (fun a b => a.round ≤ b.round) ↔
      storage.certificateStore.Holds c ∧ g + 1 ≤ c.round := by
    intro c
    rw [mem_insertionSort, hmem]
  have hsort : (certs.insertionSort fun a b => a.round ≤ b.round).Pairwise
      fun a b => a.round ≤ b.round := by
    exact pairwise_insertionSort _ _
  obtain ⟨dag, hdag, hsnd, -, hall⟩ := (SoundDag.empty G g).constructDag_spec
    (fun c hc => (G.epoch_eq c hc).trans hep) lastCommitted
    (l := certs.insertionSort fun a b => a.round ≤ b.round)
    (fun c hc => h.current c ((hmem' c).mp hc).1)
  refine ⟨dag, ?_, hsnd, fun c hc hcG hcr => ?_⟩
  · simp only [ConsensusState.constructDagFromCertStore, hcs, hdag]
  · apply hall hsort _ c ((hmem' c).mpr ⟨hc, hcr⟩) hcG hcr
    intro x hx _ p hp hgp
    exact .inr ((hmem' p).mpr ⟨h.closed x p ((hmem' x).mp hx).1 hp, hgp⟩)

variable {v : View} {gcDepth num threshold : Nat}

omit [StdRng] in
theorem Persisted.epochChain (h : Persisted G older ds storage) (hep : G.epoch = committee.epoch)
    (hreached : Reached G ds v) (hres : Resumable committee gcDepth num threshold ds v) :
    storage.consensusBlocks.EpochChain committee.epoch older ds := by
  refine { h with epoch_eq := fun d hd => ?_ }
  have hmem : d.leader ∈ sequenceOf ds := mem_flatMap.mpr ⟨d, hd, hres.leader_mem d hd⟩
  exact (G.epoch_eq _ (hreached.round_le _ hmem).1).trans hep

section
variable {bs : ConsensusBlocks}
  (hchain : bs.EpochChain committee.epoch older ds) (hreached : Reached G ds v)
  (hres : Resumable committee gcDepth num threshold ds v)
include hchain hreached hres

omit [StdRng] in
/-- The executed anchor is never ahead of the stored chain. -/
theorem primeConsensus_le {anchor : ConsensusHeader}
    (hanc : anchor = .default ∨ anchor ∈ bs.headers) :
    primeConsensus committee.epoch anchor ≤ v.committedRound := by
  unfold primeConsensus
  rcases hanc with rfl | hmem
  · simp [ConsensusHeader.default, CommittedSubDag.new, CommittedSubDag.leaderRound,
      Certificate.default, Certificate.round]
  · have hsub : anchor.subDag ∈ older ++ ds := hchain.subDags_eq ▸ mem_map_of_mem hmem
    rcases mem_append.mp hsub with hold | hds
    · rw [if_pos (hchain.older_lt _ hold)]
      omega
    · rw [if_neg (by rw [hchain.epoch_eq _ hds]; omega), if_pos (hres.leader_pos _ hds)]
      exact hreached.leader_le _ hds

omit [StdRng] hres in
/-- The highest recovered round is the round of the last stored leader. -/
theorem highestRound_readLastCommitted :
    highestRound (bs.readLastCommitted committee.epoch) = v.committedRound := by
  apply le_antisymm
  · rw [highestRound_le_iff]
    intro a
    rw [hchain.getD_readLastCommitted, lastRoundOf_le_iff]
    intro c hc _
    obtain ⟨d, hd, hcd⟩ := mem_flatMap.mp hc
    have hd' := mem_reverse.mp (mem_of_mem_take hd)
    rcases mem_cons.mp hcd with rfl | hcd
    · exact hreached.leader_le d hd'
    · exact (hreached.round_le c (mem_flatMap.mpr ⟨d, hd', hcd⟩)).2
  · rcases eq_nil_or_concat ds with rfl | ⟨init, d, rfl⟩
    · rw [hreached.committedRound]
      exact Nat.zero_le _
    · have hlast : v.committedRound = d.leader.round := by
        rw [hreached.committedRound, concat_eq_append, List.getLast?_concat]
        rfl
      rw [hlast]
      apply le_trans _ (highestRound_le_iff.mp (le_refl _) d.leader.origin)
      rw [hchain.getD_readLastCommitted]
      apply round_le_lastRoundOf
      simp

end

omit [StdRng] in
/-- The view of the rebuilt node is the view after the stored sub-dags, and the dag has
every stored certificate above the garbage collection round. -/
theorem Persisted.spawn (h : Persisted G older ds storage) (hep : G.epoch = committee.epoch)
    (hgc : gcDepth ≤ 100) (ht : threshold ≤ 33) (hreached : Reached G ds v)
    (hres : Resumable committee gcDepth num threshold ds v) {anchor : ConsensusHeader}
    (hanc : anchor = .default ∨ anchor ∈ storage.consensusBlocks.headers) :
    ∃ n, spawn committee gcDepth num threshold storage anchor = .ok n ∧
      ∃ hn : n.Sound G, n.view hn.even = v ∧ ∀ c, storage.certificateStore.Holds c → c ∈ G.certs →
        n.state.lastRound.gcRound < c.round → n.state.dag.Holds c := by
  have hchain := h.epochChain hep hreached hres
  have hrnd : max (primeConsensus committee.epoch anchor)
      (highestRound (storage.consensusBlocks.readLastCommitted committee.epoch)) =
        v.committedRound := by
    rw [highestRound_readLastCommitted hchain hreached]
    exact max_eq_right (primeConsensus_le hchain hreached hres hanc)
  obtain ⟨dag, hdag, hsnd, hheld⟩ := h.constructDag hep
    (storage.consensusBlocks.readLastCommitted committee.epoch) (v.committedRound - gcDepth)
  let n : Consensus := ⟨⟨committee, num, v.protocol.leaderSchedule, threshold⟩,
      ⟨.newWithGcDepth v.committedRound gcDepth, gcDepth,
        storage.consensusBlocks.readLastCommitted committee.epoch, ds.getLast?, dag⟩⟩
  have hn : n.Sound G := by
    refine ⟨rfl, ht, v.committedRound_even, rfl, hsnd, le_refl _, .inl (le_refl _), ?_⟩
    intro d hd
    exact hres.covers d (mem_of_getLast? hd)
  refine ⟨n, ?_, hn, ?_, hheld⟩
  · have hbehind : ¬ (ds.getLast?.any fun d => v.committedRound < d.leaderRound) = true := by
      rw [hreached.committedRound]
      cases ds.getLast? <;> simp
    simp only [Consensus.spawn, fromStore, hchain.readLatestCommit_eq, hres.schedule,
      hrnd, hchain.getLatestSubDag_filter, ConsensusState.newFromStore,
      ConsensusRound.newWithGcDepth, hdag, bind, Except.bind, pure, Except.pure]
    rw [if_neg hbehind]
    rfl
  · apply View.ext
    · exact Bullshark.ext hres.committee_eq.symm hres.num_eq.symm rfl hres.threshold_eq.symm
    · exact hres.gcDepth_eq.symm
    · rfl
    · funext a
      rw [← hres.watermark_eq hreached hgc a, hres.gcDepth_eq, ← hchain.getD_readLastCommitted]
      rfl
    · exact hres.last.symm

theorem resumable_of_run
    (hrun : Trace.Run (Step G) ((new committee gcDepth num threshold .default).view rfl) ds v) :
    Reached G ds v ∧ Resumable committee gcDepth num threshold ds v := by
  apply hrun.history (P := fun ds v =>
    Reached G ds v ∧ Resumable committee gcDepth num threshold ds v)
  · refine ⟨⟨rfl, fun a => ?_, by simp, by simp [sequenceOf], by simp [sequenceOf]⟩,
      ⟨rfl, rfl, rfl, rfl, rfl, rfl, by simp, by simp, by simp, ?_⟩⟩
    · simp [new, ConsensusState.new, Consensus.view, dropBelow, sequenceOf, lastRoundOf]
    · intro old recent heq
      rw [(append_eq_nil_iff.mp heq.symm).1]
      simp [sequenceOf]
  · intro ds v d w _ hp hstep
    exact ⟨hp.1.snoc hstep, hp.2.snoc hp.1 hstep⟩

/-- A node that stops after certificates `cs`, with the first `k` sub-dags stored, and is
rebuilt from its storage commits on: with whatever it receives next, the stored sub-dags
and the new ones are comparable with the commits of every run that never stopped. -/
theorem spawn_deliver_comparable (G : CertificateDag committee) (hepoch : G.epoch = committee.epoch)
    {gcDepth threshold : Nat} (num : Nat) (hgc : gcDepth ≤ 100) (ht : threshold ≤ 33)
    {cs : List Certificate} (hcs : G.Causal cs) (k : Nat) {older : List CommittedSubDag}
    {storage : NodeStorage} (hstorage : Persisted G older
      (((new committee gcDepth num threshold .default).deliver cs).1.take k) storage)
    {anchor : ConsensusHeader}
    (hanchor : anchor = .default ∨ anchor ∈ storage.consensusBlocks.headers)
    {held more : List Certificate} (hheld : ∀ c ∈ held, c ∈ G.certs ∧ storage.certificateStore.Holds c)
    (hmore : G.CausalFrom held more) :
    ∃ n, spawn committee gcDepth num threshold storage anchor = .ok n ∧
      (∃ m, (n.deliver more).2 = .ok m) ∧
      ∀ cs', G.Causal cs' → Trace.Comparable
        (((new committee gcDepth num threshold .default).deliver cs).1.take k ++ (n.deliver more).1)
        ((new committee gcDepth num threshold .default).deliver cs').1 := by
  have hstart := new_sound G gcDepth num ht .default
  obtain ⟨_, _, hrun⟩ := deliver_run hstart hcs.mem
  rw [← take_append_drop k ((new committee gcDepth num threshold .default).deliver cs).1] at hrun
  obtain ⟨v, hstored, -⟩ := hrun.split
  obtain ⟨hreached, hres⟩ := resumable_of_run hstored
  obtain ⟨n, hspawn, hn, hview, hdag⟩ := hstorage.spawn hepoch hgc ht hreached hres hanchor
  obtain ⟨_, _, hnew⟩ := deliver_run hn hmore.mem
  rw [hview] at hnew
  refine ⟨n, hspawn, deliver_ok hn (fun c hc => ?_) hmore, fun cs' hcs' => ?_⟩
  · exact hdag c (hheld c hc).2 (hheld c hc).1
  · obtain ⟨_, _, hrun'⟩ := deliver_run hstart hcs'.mem
    exact (hstored.append hnew).comparable View.step_deterministic hrun'

omit [StdRng] in
/-- The node stops after four rounds with its first commit stored and receives the fifth
round after the restart. -/
theorem spawn_deliver_comparable_fullRounds :
    letI := StdRng.first
    let first := ((new fourAuthorities 50 2 33 .default).deliver (fullRounds 4)).1
    let storage := NodeStorage.ofChain (fullRounds 4) (first.take 1)
    ∃ n, spawn fourAuthorities 50 2 33 storage .default = .ok n ∧
      (n.deliver ((fullRounds 5).drop 16)).1.map (fun d => d.leader.digest) = [41] ∧
      Trace.Comparable (first.take 1 ++ (n.deliver ((fullRounds 5).drop 16)).1)
        ((new fourAuthorities 50 2 33 .default).deliver (fullRounds 5)).1 := by
  let _ := StdRng.first
  intro first storage
  let G := ofList fourAuthorities 0 (fullRounds 5) (by decide +kernel)
  obtain ⟨hindexed, hholds⟩ := CertificateStore.foldl_write_spec (fullRounds 4) (by decide +kernel)
  have hsub : ∀ c ∈ fullRounds 4, c ∈ fullRounds 5 := by decide +kernel
  have hstorage : Persisted G [] (first.take 1) storage := by
    refine ⟨by decide +kernel, by simp, hindexed, fun c hc _ => hsub c ((hholds c).mp hc),
      fun c p hc hp => ?_⟩
    · have hclosed : ∀ c ∈ fullRounds 4, ∀ p ∈ fullRounds 5, p.round + 1 = c.round →
          p ∈ fullRounds 4 := by decide +kernel
      exact (hholds p).mpr (hclosed c ((hholds c).mp hc) p hp.1 hp.2.2)
  have hmore : G.CausalFrom (fullRounds 4) ((fullRounds 5).drop 16) :=
    causalFrom_ofList (by decide +kernel)
  obtain ⟨n, hspawn, -, hcomparable⟩ := spawn_deliver_comparable G rfl 2 (by decide : 50 ≤ 100)
    (by decide : 33 ≤ 33) (causalFrom_ofList (by decide +kernel)) 1 hstorage
    (.inl rfl) (fun c hc => ⟨hsub c hc, (hholds c).mpr hc⟩) hmore
  refine ⟨n, hspawn, ?_, hcomparable _ (causalFrom_ofList (by decide +kernel))⟩
  have heval : (spawn fourAuthorities 50 2 33 storage .default).toOption.map (fun n =>
      (n.deliver ((fullRounds 5).drop 16)).1.map fun d => d.leader.digest) = some [41] := by
    decide +kernel
  rw [hspawn] at heval
  exact Option.some.inj heval

end Consensus

end Axyl
