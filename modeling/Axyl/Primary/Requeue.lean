import Axyl.Primary.PrimaryNode

/-! A header whose digests are queued again because of an own commit above it, or because its round
was garbage collected, is never committed. -/

namespace Axyl
open List Proposer Consensus
open Std (ExtTreeMap)

def Consensus.Closed (n : Consensus) (author round : Nat) : Prop :=
  round < n.state.lastCommitted[author]?.getD 0 ∨ round ≤ n.state.lastRound.gcRound

theorem Consensus.Closed.raise {n n' : Consensus} {author round : Nat} {certs : List Certificate}
    (h : n.Closed author round) (hrsd : n.state.Raised certs n'.state)
    (hgc : n.state.GcConsistent) : n'.Closed author round ∧ round ∉ ownRounds author certs := by
  constructor
  · unfold Closed at h ⊢
    have hrnd := hrsd.gcRound_le hgc
    rw [hrsd.lastCommitted]
    omega
  · intro hmem
    obtain ⟨c, hc, rfl, rfl⟩ := mem_ownRounds.mp hmem
    have habv := hrsd.above c hc
    unfold Closed at h
    omega

namespace PrimaryNode

variable {cfg : ProposerConfig} {fx gx : List ProposerEffect} {a : PrimaryNode}
  {n n' : Consensus} {certs : List Certificate}

structure Marks (cfg : ProposerConfig) (a : PrimaryNode) (n : Consensus) : Prop where
  ranked : n.state.Ranked
  gcDepth : n.state.gcDepth = cfg.gcDepth
  watch : a.proposer.committedRound ≤ n.state.lastRound.committedRound
  pending : ∀ own ∈ a.pendingNotices cfg, ∀ r ∈ own,
    r ≤ n.state.lastCommitted[cfg.authorityId]?.getD 0

structure Excluded (cfg : ProposerConfig) (a : PrimaryNode) (round : Nat) : Prop where
  fresh : round ∉ ownRounds cfg.authorityId a.committed
  closed : ∀ n, a.consensus = .ok n → n.Closed cfg.authorityId round

structure Airtight (cfg : ProposerConfig) (fx : List ProposerEffect) (a : PrimaryNode) : Prop where
  covered : ∀ r ∈ ownRounds cfg.authorityId a.committed,
    r ∈ a.noticed ∨ ∃ own ∈ a.pendingNotices cfg, r ∈ own
  rising : (a.pendingNotices cfg).Pairwise fun x y => ∀ r ∈ x, ∀ s ∈ y, r < s
  tracked : ∀ r h, a.proposer.proposedHeaders[r]? = some h → h.round = r ∧ r ∉ a.noticed
  marks : ∀ n, a.consensus = .ok n → Marks cfg a n
  requeued : ∀ reason h, .requeued reason h ∈ fx → reason ≠ .commitLag false →
    Excluded cfg a h.round

theorem ownRounds_append (authorityId : Nat) (xs ys : List Certificate) :
    ownRounds authorityId (xs ++ ys) = ownRounds authorityId xs ++ ownRounds authorityId ys := by
  simp [ownRounds]

theorem pendingNotices_reportCommit (cfg : ProposerConfig) (a : PrimaryNode) (n : Consensus)
    (certs : List Certificate) : (a.reportCommit n certs).pendingNotices cfg =
      a.pendingNotices cfg ++ if certs = [] then [] else [ownRounds cfg.authorityId certs] := by
  unfold pendingNotices reportCommit
  cases certs with
  | nil => simp
  | cons c certs => simp [List.max?_cons]

theorem Airtight.reportCommit (h : Airtight cfg fx a) (hn : a.consensus = .ok n)
    (hrsd : n.state.Raised certs n'.state) : Airtight cfg fx (a.reportCommit n' certs) := by
  obtain ⟨hrank, hdep, hwat, hpend⟩ := h.marks n hn
  have hnew : ∀ own ∈ (if certs = [] then [] else [ownRounds cfg.authorityId certs] : List (List Nat)),
      own = ownRounds cfg.authorityId certs := by
    intro own hown
    split at hown
    · cases hown
    · exact mem_singleton.mp hown
  refine ⟨?_, ?_, h.tracked, ?_, ?_⟩
  · intro r hr
    rw [pendingNotices_reportCommit]
    change r ∈ ownRounds cfg.authorityId (a.committed ++ certs) at hr
    rw [ownRounds_append, mem_append] at hr
    rcases hr with hr | hr
    · refine (h.covered r hr).imp_right ?_
      rintro ⟨own, hown, hmem⟩
      exact ⟨own, mem_append_left _ hown, hmem⟩
    · refine .inr ⟨_, mem_append_right _ ?_, hr⟩
      have hne : certs ≠ [] := by
        rintro rfl
        cases hr
      rw [if_neg hne]
      exact mem_singleton_self _
  · rw [pendingNotices_reportCommit, pairwise_append]
    refine ⟨h.rising, ?_, ?_⟩
    · split
      · exact List.Pairwise.nil
      · exact pairwise_singleton _ _
    · intro own hown own' hown' r hr s hs
      rw [hnew own' hown'] at hs
      obtain ⟨c, hc, horig, rfl⟩ := mem_ownRounds.mp hs
      have habv := (hrsd.above c hc).2
      rw [horig] at habv
      exact lt_of_le_of_lt (hpend own hown r hr) habv
  · intro m hm
    cases hm
    refine ⟨hrsd.ranked, hrsd.gcDepth.trans hdep, le_trans hwat hrsd.committedRound, ?_⟩
    intro own hown r hr
    rw [pendingNotices_reportCommit, mem_append] at hown
    rw [hrsd.lastCommitted]
    rcases hown with hown | hown
    · exact le_trans (hpend own hown r hr) (by omega)
    · rw [hnew own hown] at hr
      obtain ⟨c, hc, horig, rfl⟩ := mem_ownRounds.mp hr
      exact le_trans (horig ▸ round_le_lastRoundOf hc) (by omega)
  · intro reason header hmem hwhy
    obtain ⟨hfre, hcls⟩ := h.requeued reason header hmem hwhy
    obtain ⟨hlat, hnot⟩ := (hcls n hn).raise hrsd hrank.gc
    refine ⟨?_, ?_⟩
    · change header.round ∉ ownRounds cfg.authorityId (a.committed ++ certs)
      rw [ownRounds_append, mem_append]
      exact fun hor => hor.elim hfre hnot
    · intro m hm
      cases hm
      exact hlat

theorem Airtight.stop (h : Airtight cfg fx a) (e : Failure) :
    Airtight cfg fx { a with consensus := .error e } :=
  ⟨h.covered, h.rising, h.tracked, nofun, fun reason header hmem hwhy =>
    ⟨(h.requeued reason header hmem hwhy).fresh, nofun⟩⟩

theorem Airtight.newCertificate [StdRng] (h : Airtight cfg fx a) (hn : a.consensus = .ok n)
    (c : Certificate) : Airtight cfg fx (a.newCertificate n c) := by
  unfold PrimaryNode.newCertificate
  split
  · exact h.stop _
  · exact h.stop _
  · next hok =>
    exact h.reportCommit hn (newCertificate_raised (h.marks n hn).ranked hok)

theorem pendingNotices_handleSequenced (cfg : ProposerConfig) (a : PrimaryNode) :
    (a.handleSequenced cfg).pendingNotices cfg = a.pendingNotices cfg := by
  unfold handleSequenced
  split
  · rfl
  · next hcs => simp [pendingNotices, hcs]

section
variable (h : Airtight cfg fx a)
include h

theorem Airtight.handleSequenced : Airtight cfg fx (a.handleSequenced cfg) := by
  have hpend := pendingNotices_handleSequenced cfg a
  unfold PrimaryNode.handleSequenced at hpend ⊢
  split at hpend
  · next heq => simpa only [heq] using h
  · refine ⟨?_, ?_, h.tracked, ?_, ?_⟩
    · rw [hpend]
      exact h.covered
    · rw [hpend]
      exact h.rising
    · intro n hn
      refine { h.marks n hn with pending := ?_ }
      rw [hpend]
      exact (h.marks n hn).pending
    · exact fun reason header hmem hwhy => { h.requeued reason header hmem hwhy with }

theorem Airtight.move {q : Proposer} (htr : ∀ r header, q.proposedHeaders[r]? = some header →
      header.round = r ∧ r ∉ a.noticed) (hwat : q.committedRound = a.proposer.committedRound)
    (hnew : ∀ reason header, .requeued reason header ∈ gx → reason ≠ .commitLag false →
      Excluded cfg a header.round) : Airtight cfg (fx ++ gx) { a with proposer := q } := by
  refine ⟨h.covered, h.rising, htr, ?_, ?_⟩
  · exact fun n hn => { h.marks n hn with watch := hwat ▸ (h.marks n hn).watch }
  · intro reason header hmem hwhy
    rcases mem_append.mp hmem with hmem | hmem
    · exact { h.requeued reason header hmem hwhy with }
    · exact { hnew reason header hmem hwhy with }

theorem Airtight.keep {q : Proposer} (hhs : q.proposedHeaders = a.proposer.proposedHeaders)
    (hwat : q.committedRound = a.proposer.committedRound)
    (hnone : ∀ reason header, .requeued reason header ∉ gx) :
    Airtight cfg (fx ++ gx) { a with proposer := q } := by
  refine h.move ?_ hwat fun reason header hmem => absurd hmem (hnone reason header)
  rw [hhs]
  exact h.tracked

theorem Airtight.fresh {r : Nat} (hnot : r ∉ a.noticed)
    (hpend : ∀ own ∈ a.pendingNotices cfg, r ∉ own) :
    r ∉ ownRounds cfg.authorityId a.committed := by
  intro hmem
  rcases h.covered r hmem with hr | ⟨own, hown, hr⟩
  · exact hnot hr
  · exact hpend own hown hr

end

variable {env : LoopEnv}

section
variable (h : Airtight cfg fx a)
include h

theorem Airtight.handleResult {header : Header}
    (htask : a.proposer.pendingHeader = some (.done header))
    (htim : a.Timely cfg (.proposer (.select .result env))) (shutdownNoticed : Bool) :
    let r := { a.proposer with pendingHeader := none }.handleProposalResult cfg shutdownNoticed
      (.ok header)
    Airtight cfg (fx ++ r.1) { a with proposer := r.2 } := by
  have hres : header ∈ a.resultHeader := by simp [resultHeader, htask]
  obtain ⟨hnot, hevicted⟩ := htim header hres
  intro r
  have hget : ∀ r h', (a.proposer.proposedHeaders.insert header.round header)[r]? = some h' →
      (h'.round = r ∧ r ∉ a.noticed) ∧ (r = header.round ∨ r ∈ a.proposer.proposedHeaders) := by
    intro r h' hr
    rw [ExtTreeMap.getElem?_insert] at hr
    split at hr
    · next heq =>
      cases hr
      have heq := Nat.compare_eq_eq.mp heq
      exact ⟨⟨heq, heq ▸ hnot⟩, .inl heq.symm⟩
    · exact ⟨h.tracked r h' hr, .inr (ExtTreeMap.mem_iff_isSome_getElem?.mpr (by simp [hr]))⟩
  refine h.move ?_ (sameFrame_evictOldProposedHeaders cfg _).watch ?_
  · intro r' h' hr
    exact (hget r' h' (getElem?_evictOldProposedHeaders hr)).1
  · intro reason h' hmem _
    obtain ⟨r', hle, hr⟩ := mem_evictOldProposedHeaders hmem
    obtain ⟨⟨rfl, hfre⟩, hplace⟩ := hget r' h' hr
    change h'.round ≤ a.proposer.committedRound - cfg.gcDepth at hle
    refine ⟨h.fresh hfre fun own hown hr => ?_, fun n hn => .inr ?_⟩
    · have := hevicted own hown h'.round hr hplace
      omega
    · obtain ⟨hrank, hdep, hwat, -⟩ := h.marks n hn
      have hgc := hrank.gc
      unfold ConsensusState.GcConsistent at hgc
      omega

theorem Airtight.changes {event : ProposerEvent} {q : Proposer}
    (hchgs : Changes cfg event a.proposer a.proposer gx q) (hlocal : event.isLocal = true)
    (htim : a.Timely cfg (.proposer event)) : Airtight cfg (fx ++ gx) { a with proposer := q } := by
  refine hchgs.preserves (P := fun fx q => Airtight cfg fx { a with proposer := q }) ?_ h
  intro fx p gx q hchg h
  cases hchg with
  | quiet hsame => exact h.keep hsame.headers hsame.watch fun _ _ => not_mem_nil
  | took =>
    unfold takeParents
    split
    · dsimp only
      split <;> exact h.keep rfl rfl fun _ _ => not_mem_nil
    · split <;> exact h.keep rfl rfl fun _ _ => not_mem_nil
  | handled heq htask =>
    subst heq
    exact h.handleResult htask htim _
  | noticed heq | watched _ heq | restarted heq =>
    subst heq
    cases hlocal
  | _ => exact h.keep rfl rfl (by simp)

theorem Airtight.notice {round : Nat} {own : List Nat} {rest : List (Nat × List Nat)}
    (hnext : a.committedOwnHeaders = (round, own) :: rest) (hend : a.proposer.ended = none) :
    let r := { a with
      committedOwnHeaders := rest
      noticed := a.noticed ++ own }.stepProposer cfg (.select (.committed round own) env)
    Airtight cfg (fx ++ r.1) r.2 := by
  have hpend : a.pendingNotices cfg =
      own :: { a with committedOwnHeaders := rest }.pendingNotices cfg := by
    simp [pendingNotices, hnext]
  obtain ⟨habv, hrising⟩ := pairwise_cons.mp (hpend ▸ h.rising)
  have htk : Airtight cfg (fx ++ (a.proposer.processCommittedHeaders round own).1) { a with
        committedOwnHeaders := rest
        noticed := a.noticed ++ own
        proposer := (a.proposer.processCommittedHeaders round own).2 } := by
    refine ⟨?_, hrising, ?_, ?_, ?_⟩
    · intro s hs
      rcases h.covered s hs with hseen | ⟨named, hnamed, hin⟩
      · exact .inl (mem_append_left _ hseen)
      · rw [hpend] at hnamed
        rcases mem_cons.mp hnamed with rfl | hnamed
        · exact .inl (mem_append_right _ hin)
        · exact .inr ⟨named, hnamed, hin⟩
    · intro s header hs
      obtain ⟨hown, hs⟩ := getElem?_processCommittedHeaders hs
      obtain ⟨hrnd, hnot⟩ := h.tracked s header hs
      refine ⟨hrnd, fun hmem => ?_⟩
      exact (mem_append.mp hmem).elim hnot hown
    · intro n hn
      have hmarks := h.marks n hn
      refine { hmarks with watch := ?_, pending := fun named hnamed => ?_ }
      · rw [(sameFrame_processCommittedHeaders a.proposer round own).watch]
        exact hmarks.watch
      · exact hmarks.pending named (hpend ▸ mem_cons_of_mem own hnamed)
    · intro reason header hmem hwhy
      rcases mem_append.mp hmem with hmem | hmem
      · exact { h.requeued reason header hmem hwhy with }
      · obtain ⟨s, top, htop, hlt, hown, hs⟩ := mem_processCommittedHeaders hmem hwhy
        obtain ⟨rfl, hnot⟩ := h.tracked s header hs
        refine ⟨h.fresh hnot fun named hnamed hs => ?_, fun n hn => .inl ?_⟩
        · rw [hpend] at hnamed
          rcases mem_cons.mp hnamed with rfl | hnamed
          · exact hown hs
          · have := habv named hnamed top htop header.round hs
            omega
        · have hmarks := (h.marks n hn).pending own (hpend ▸ mem_cons_self) top htop
          omega
  have hopen : (a.proposer.processCommittedHeaders round own).2.ended = none :=
    (sameFrame_processCommittedHeaders a.proposer round own).ended.trans hend
  have haft := htk.changes (changes_afterSelect cfg .dropped _ hopen env) rfl trivial
  unfold stepProposer
  rw [step_select cfg hend (.committed round own) env hopen]
  rwa [append_nil] at haft

theorem Airtight.see (highestSeenRound : Nat) : Airtight cfg fx { a with highestSeenRound } :=
  { h with
    marks := fun n hn => { h.marks n hn with }
    requeued := fun reason header hmem hwhy => { h.requeued reason header hmem hwhy with } }

theorem Airtight.watch (hn : a.consensus = .ok n) :
    let r := a.stepProposer cfg (.committedRound n.state.lastRound.committedRound)
    Airtight cfg (fx ++ r.1) r.2 := by
  intro r
  rw [show fx ++ r.1 = fx from append_nil fx]
  refine { h with marks := ?_, requeued := ?_ }
  · intro m hm
    cases hn.symm.trans hm
    exact { h.marks n hn with watch := le_refl _ }
  · exact fun reason header hmem hwhy => { h.requeued reason header hmem hwhy with }

theorem Airtight.step [StdRng] {event : PrimaryEvent} (htim : a.Timely cfg event) :
    Airtight cfg (fx ++ (a.step cfg event).1) (a.step cfg event).2 := by
  have happ : fx ++ [] = fx := append_nil fx
  unfold PrimaryNode.step
  cases event with
  | certificate c =>
    dsimp only
    split
    · rwa [happ]
    · next n hn =>
      rw [happ]
      exact (h.see (max a.highestSeenRound c.round)).newCertificate hn c
  | gcTick =>
    dsimp only
    split
    · rwa [happ]
    · next n hn =>
      rw [happ]
      exact h.reportCommit hn (proactiveGc_raised (h.marks n hn).ranked _)
  | updateConsensusRounds =>
    dsimp only
    split
    · rwa [happ]
    · next n hn =>
      exact h.watch hn
  | handleSequenced =>
    rw [happ]
    exact h.handleSequenced
  | notice env =>
    dsimp only
    split
    · next hend hnext => exact h.notice hnext hend
    · rwa [happ]
  | proposer event =>
    dsimp only
    split
    · next hlocal => exact h.changes (changes_step a.proposer cfg event) hlocal htim
    · rwa [happ]

end

theorem airtight_start (cfg : ProposerConfig) (hrank : n.state.Ranked)
    (hdep : n.state.gcDepth = cfg.gcDepth) {committedRound : Nat}
    (hrnd : committedRound ≤ n.state.lastRound.committedRound) (row : Option Header)
    (history : List Certificate) : Airtight cfg [] (start cfg n committedRound row history) where
  covered := fun _ hr => .inl hr
  rising := List.Pairwise.nil
  tracked := by
    intro r header hr
    simp [start, Proposer.new] at hr
  marks := by
    rintro m ⟨⟩
    exact ⟨hrank, hdep, hrnd, nofun⟩
  requeued := nofun

/-- The node starts from any storage, with any header in its row. -/
theorem requeued_header_not_committed [StdRng] (cfg : ProposerConfig) {num threshold : Nat}
    {storage : NodeStorage} {anchor : ConsensusHeader}
    (hspawn : spawn cfg.committee cfg.gcDepth num threshold storage anchor = .ok n)
    {committedRound : Nat} (hround : committedRound ≤ n.state.lastRound.committedRound)
    (row : Option Header) (history : List Certificate) (events : List PrimaryEvent)
    (htimely : Reactor.Always (step cfg) (Timely cfg) (start cfg n committedRound row history)
      events) {reason : RequeueReason} {header : Header} (hrequeued : .requeued reason header ∈
      (run cfg (start cfg n committedRound row history) events).1)
    (hreason : reason ≠ .commitLag false) :
    ∀ c ∈ (run cfg (start cfg n committedRound row history) events).2.committed,
      c.origin = cfg.authorityId → c.round ≠ header.round := by
  have hspawned := spawn_spec hspawn
  have hrun := Reactor.run_history_of (P := Timely cfg) (Q := Airtight cfg)
    (fun _ _ _ h hevent => h.step hevent)
    (airtight_start cfg hspawned.ranked hspawned.gcDepth hround row history) htimely
  have hfresh := (hrun.requeued reason header hrequeued hreason).fresh
  intro c hc horigin heq
  exact hfresh (mem_ownRounds.mpr ⟨c, hc, horigin, heq⟩)

def thirdProposer : ProposerConfig :=
  ⟨3, fourProposers, certsOf 0, 1, 10, 50⟩

def thirdNode : PrimaryNode :=
  start thirdProposer (.new fourProposers 50 60 33 .default) 0 none []

def peer (author round : Nat) (parents : List Nat) : Certificate :=
  ⟨⟨author, round, 1, 0, [], parents, 10 * round + author⟩⟩

def sends (digest : Nat) : List PrimaryEvent :=
  [.proposer (.built 0 digest), .proposer (.stored true), .proposer (.sent true)]

def handles : PrimaryEvent := .proposer (.select .result calm)

def firstHeader : Header := newHeader thirdProposer 1 (certsOf 0) [(7, 0)] 0 13

def reported (certs : List Certificate) : List PrimaryEvent :=
  certs.map .certificate ++ [.handleSequenced, .notice calm]

/-- A header of the first round is sent. The leader of round two is committed before or after the
result of the header is handled, then the own header of round two. -/
def twoCommits (own : List Certificate) (before after : List PrimaryEvent) : List PrimaryEvent :=
  let parents := [peer 1 1 [], peer 2 1 []] ++ own ++ [peer 4 1 []]
  .proposer (.select (.digest (7, 0)) calm) :: sends 13 ++ before ++
    reported (parents ++ [1, 2, 4].map (peer · 2 (parents.map Certificate.digest)) ++
      [1, 2].map (peer · 3 [21, 22, 24])) ++ after ++
    [.proposer (.select (.parents parents 1) calm),
      .proposer (.select .maxTick calm)] ++ sends 23 ++ [handles] ++
    reported ([⟨newHeader thirdProposer 2 parents [] 0 23⟩, peer 4 3 [21, 22, 23, 24]] ++
      [1, 2, 4].map (peer · 4 [31, 32, 34]) ++ [1, 2].map (peer · 5 [41, 42, 44]))

theorem requeued_header_not_committed_missed :
    letI := StdRng.first
    let events := twoCommits [] [handles] []
    .requeued (.commitLag true) firstHeader ∈ (run thirdProposer thirdNode events).1 ∧
      ∀ c ∈ (run thirdProposer thirdNode events).2.committed, c.origin = 3 → c.round ≠ 1 := by
  let _ := StdRng.first
  intro events
  have hspawn : spawn fourProposers 50 60 33 (.ofChain [] []) .default =
      .ok (.new fourProposers 50 60 33 .default) := by decide +kernel
  have hrequeued : .requeued (.commitLag true) firstHeader ∈
      (run thirdProposer thirdNode events).1 := by decide +kernel
  exact ⟨hrequeued, requeued_header_not_committed thirdProposer hspawn (le_refl 0) none []
    events (by decide +kernel) hrequeued nofun⟩

/-- The notice of the first commit is taken before the result of the header that it covers. -/
theorem requeued_header_committed :
    letI := StdRng.first
    let events := twoCommits [⟨firstHeader⟩] [] [handles]
    .requeued (.commitLag true) firstHeader ∈ (run thirdProposer thirdNode events).1 ∧
      ⟨firstHeader⟩ ∈ (run thirdProposer thirdNode events).2.committed := by
  decide +kernel

end PrimaryNode

end Axyl
