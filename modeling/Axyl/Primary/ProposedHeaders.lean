import Axyl.Primary.Proposer
import Mathlib.Tactic.Common

/-! What a step of the proposer can do, and how the headers that it tracks leave it. -/

namespace Axyl
open List
open Std ExtTreeMap

namespace Proposer

variable {p q : Proposer} {why : RequeueReason} {round r : Nat} {h : Header}

structure SameFrame (p q : Proposer) : Prop where
  row : q.lastProposed = p.lastProposed
  round : q.round = p.round
  parents : q.lastParents = p.lastParents
  task : q.pendingHeader = p.pendingHeader
  watch : q.committedRound = p.committedRound
  ended : q.ended = p.ended

theorem sameFrame_requeueBelow (p : Proposer) (why : RequeueReason) (round : Nat) :
    SameFrame p (p.requeueBelow why round).2 := ⟨rfl, rfl, rfl, rfl, rfl, rfl⟩

theorem getElem?_requeueBelow : (p.requeueBelow why round).2.proposedHeaders[r]? = some h ↔
      round ≤ r ∧ p.proposedHeaders[r]? = some h := by
  change (p.proposedHeaders.filter fun r _ => round ≤ r)[r]? = some h ↔ _
  rw [getElem?_filter', Option.filter_eq_some_iff, decide_eq_true_eq]
  exact and_comm

variable {x : ProposerEffect}

theorem mem_requeueBelow : x ∈ (p.requeueBelow why round).1 ↔
      ∃ r h, r < round ∧ p.proposedHeaders[r]? = some h ∧ x = .requeued why h := by
  unfold requeueBelow
  simp only [mem_map, Prod.exists, exists_eq_right, mem_toList_iff_getElem?_eq_some,
    getElem?_filter', Option.filter_eq_some_iff, decide_eq_true_eq]
  constructor
  · rintro ⟨h, ⟨r, hget, hlt⟩, rfl⟩
    exact ⟨r, h, hlt, hget, rfl⟩
  · rintro ⟨r, h, hlt, hget, rfl⟩
    exact ⟨h, ⟨r, hget, hlt⟩, rfl⟩

theorem digests_requeueBelow (p : Proposer) (why : RequeueReason) (round : Nat) :
    ∃ front, (p.requeueBelow why round).2.digests = front ++ p.digests ∧
      ∀ r h, r < round → p.proposedHeaders[r]? = some h → ∀ d ∈ h.payload, d ∈ front := by
  refine ⟨_, rfl, fun r h hlt hget d hd => ?_⟩
  refine mem_flatMap.mpr ⟨h, ?_, hd⟩
  refine mem_map.mpr ⟨(r, h), ?_, rfl⟩
  rw [mem_toList_iff_getElem?_eq_some, getElem?_filter',
    Option.filter_eq_some_iff]
  exact ⟨hget, decide_eq_true hlt⟩

theorem evictOldProposedHeaders_cases (cfg : ProposerConfig) (p : Proposer) :
    p.evictOldProposedHeaders cfg = ([], p) ∨ p.evictOldProposedHeaders cfg =
      p.requeueBelow .gcEvict (p.committedRound - cfg.gcDepth + 1) := by
  unfold evictOldProposedHeaders
  split
  · exact .inl rfl
  · dsimp only
    split
    · exact .inl rfl
    · exact .inr rfl

theorem sameFrame_evictOldProposedHeaders (cfg : ProposerConfig) (p : Proposer) :
    SameFrame p (p.evictOldProposedHeaders cfg).2 := by
  rcases evictOldProposedHeaders_cases cfg p with heq | heq <;>
    (rw [heq]; exact ⟨rfl, rfl, rfl, rfl, rfl, rfl⟩)

theorem sameFrame_removeCommitted (p : Proposer) (rs : List Nat) :
    SameFrame p (p.removeCommitted rs).2 := by
  induction rs generalizing p with
  | nil => exact ⟨rfl, rfl, rfl, rfl, rfl, rfl⟩
  | cons round rs ih => exact { ih { p with proposedHeaders := p.proposedHeaders.erase round } with }

theorem digests_removeCommitted (p : Proposer) (rs : List Nat) :
    (p.removeCommitted rs).2.digests = p.digests := by
  induction rs generalizing p with
  | nil => rfl
  | cons round rs ih => exact ih { p with proposedHeaders := p.proposedHeaders.erase round }

theorem getElem?_removeCommitted (p : Proposer) (rs : List Nat) :
    (p.removeCommitted rs).2.proposedHeaders[r]? = some h ↔
      r ∉ rs ∧ p.proposedHeaders[r]? = some h := by
  induction rs generalizing p with
  | nil => simp [removeCommitted]
  | cons round rs ih =>
    rw [removeCommitted, ih, getElem?_erase]
    by_cases hr : round = r
    · simp [hr]
    · simp [hr, Ne.symm hr]

theorem mem_removeCommitted (p : Proposer) {rs : List Nat} (hr : r ∈ rs)
    (hget : p.proposedHeaders[r]? = some h) : .committed h ∈ (p.removeCommitted rs).1 := by
  induction rs generalizing p with
  | nil => cases hr
  | cons round rs ih =>
    rw [removeCommitted, mem_append]
    by_cases heq : round = r
    · left
      rw [heq, hget]
      exact mem_singleton_self _
    · right
      apply ih
      · exact (mem_cons.mp hr).resolve_left (Ne.symm heq)
      · rw [getElem?_erase]
        simp [heq, hget]

theorem eq_committed_of_mem_removeCommitted {p : Proposer} {rs : List Nat}
    (hx : x ∈ (p.removeCommitted rs).1) : ∃ h, x = .committed h := by
  induction rs generalizing p with
  | nil => cases hx
  | cons round rs ih =>
    rcases mem_append.mp hx with hx | hx
    · obtain ⟨h, -, rfl⟩ := Option.map_eq_some_iff.mp (Option.mem_toList.mp hx)
      exact ⟨h, rfl⟩
    · exact ih hx

section
variable {cfg : ProposerConfig}

theorem mem_evictOldProposedHeaders (hmem : .requeued why h ∈ (p.evictOldProposedHeaders cfg).1) :
    ∃ r, r ≤ p.committedRound - cfg.gcDepth ∧ p.proposedHeaders[r]? = some h := by
  rcases evictOldProposedHeaders_cases cfg p with heq | heq <;> rw [heq] at hmem
  · cases hmem
  · obtain ⟨r, h', hlt, hget, heq⟩ := mem_requeueBelow.mp hmem
    cases heq
    exact ⟨r, Nat.le_of_lt_succ hlt, hget⟩

theorem getElem?_evictOldProposedHeaders
    (hget : (p.evictOldProposedHeaders cfg).2.proposedHeaders[r]? = some h) :
    p.proposedHeaders[r]? = some h := by
  rcases evictOldProposedHeaders_cases cfg p with heq | heq <;> rw [heq] at hget
  · exact hget
  · exact (getElem?_requeueBelow.mp hget).2

variable {commitRound : Nat}

theorem getElem?_processCommittedHeaders {own : List Nat}
    (hget : (p.processCommittedHeaders commitRound own).2.proposedHeaders[r]? = some h) :
    r ∉ own ∧ p.proposedHeaders[r]? = some h := by
  simp only [processCommittedHeaders, getElem?_requeueBelow] at hget
  exact (getElem?_removeCommitted p own).mp hget.2

theorem mem_processCommittedHeaders {own : List Nat}
    (hmem : .requeued why h ∈ (p.processCommittedHeaders commitRound own).1)
    (hwhy : why ≠ .commitLag false) :
    ∃ r, ∃ top ∈ own, r < top ∧ r ∉ own ∧ p.proposedHeaders[r]? = some h := by
  rcases mem_append.mp hmem with hmem | hmem
  · obtain ⟨_, heq⟩ := eq_committed_of_mem_removeCommitted hmem
    cases heq
  · obtain ⟨r, h', hlt, hget, heq⟩ := mem_requeueBelow.mp hmem
    cases heq
    obtain ⟨hr, hget⟩ := (getElem?_removeCommitted p own).mp hget
    cases htop : own.max? with
    | none =>
      rw [List.max?_eq_none_iff] at htop
      subst htop
      exact absurd rfl hwhy
    | some top =>
      rw [htop] at hlt
      exact ⟨r, top, List.max?_mem htop, hlt, hr, hget⟩

theorem sameFrame_handleProposalResult (cfg : ProposerConfig) (p : Proposer)
    (shutdownNoticed : Bool) (hdr : Header) :
    SameFrame p (p.handleProposalResult cfg shutdownNoticed (.ok hdr)).2 := by
  have hfrm := sameFrame_evictOldProposedHeaders cfg
    { p with advanceRound := false,
             proposedHeaders := p.proposedHeaders.insert hdr.round hdr }
  exact { hfrm with }

theorem sameFrame_processCommittedHeaders (p : Proposer) (commitRound : Nat) (own : List Nat) :
    SameFrame p (p.processCommittedHeaders commitRound own).2 :=
  { sameFrame_removeCommitted p own with }

/-! ### What a step does -/

/-- Only the timers, the throttle, the leader and the readiness may differ, and `q` may have
stopped. -/
structure Same (p q : Proposer) : Prop where
  row : q.lastProposed = p.lastProposed := by rfl
  round : q.round = p.round := by rfl
  parents : q.lastParents = p.lastParents := by rfl
  task : q.pendingHeader = p.pendingHeader := by rfl
  digests : q.digests = p.digests := by rfl
  headers : q.proposedHeaders = p.proposedHeaders := by rfl
  watch : q.committedRound = p.committedRound := by rfl
  ended : q.ended = none → p.ended = none := by exact id

/-- One thing that happens in a step from `p₀`. -/
inductive Change (cfg : ProposerConfig) (event : ProposerEvent) (p₀ : Proposer) :
    Proposer → List ProposerEffect → Proposer → Prop
  | quiet {p q : Proposer} (h : Same p q) : Change cfg event p₀ p [] q
  | acked (p : Proposer) (d : ProposerDigest) :
      Change cfg event p₀ p [.acked d.1] (p.pushDigest d)
  | took {certs : List Certificate} {round : Nat} {env : LoopEnv}
      (hevent : event = .select (.parents certs round) env) :
      Change cfg event p₀ p₀ [] (p₀.takeParents cfg certs round)
  | noticed {commitRound : Nat} {own : List Nat} {env : LoopEnv}
      (hevent : event = .select (.committed commitRound own) env) :
      Change cfg event p₀ p₀ (p₀.processCommittedHeaders commitRound own).1
        (p₀.processCommittedHeaders commitRound own).2
  | handled {header : Header} {env : LoopEnv} (hevent : event = .select .result env)
      (ht : p₀.pendingHeader = some (.done header)) :
      Change cfg event p₀ p₀
        ({ p₀ with pendingHeader := none }.handleProposalResult cfg env.shutdownNoticed
          (.ok header)).1
        ({ p₀ with pendingHeader := none }.handleProposalResult cfg env.shutdownNoticed
          (.ok header)).2
  | gaveUp (p : Proposer) (e : ProposerEnd) :
      Change cfg event p₀ p [] ({ p with pendingHeader := none }.finish e)
  | stopped {p : Proposer} {round : Nat} (e : ProposerEnd) (hidle : p.pendingHeader = none)
      (hne : p.lastParents ≠ []) (hle : p.round ≤ round) :
      Change cfg event p₀ p [] { p with round, ended := some e }
  | again {p : Proposer} {header : Header} (hidle : p.pendingHeader = none)
      (hlast : p.lastProposed = some header) (hepoch : header.epoch = cfg.committee.epoch) :
      Change cfg event p₀ p [] { p with pendingHeader := some (.storing header) }
  | repeated {p : Proposer} {header : Header} (hidle : p.pendingHeader = none)
      (hne : p.lastParents ≠ []) (hlast : p.lastProposed = some header)
      (hepoch : header.epoch = cfg.committee.epoch) :
      Change cfg event p₀ p [] { p with
        round := p.round + 1, lastParents := [], pendingHeader := some (.storing header) }
  | building {p : Proposer} (hended : p.ended = none) (hidle : p.pendingHeader = none)
      (hne : p.lastParents ≠ [])
      (hfresh : ∀ last, p.lastProposed = some last → last.epoch = cfg.committee.epoch →
        last.round ≠ p.round + 1) :
      Change cfg event p₀ p [] { p with
        round := p.round + 1
        lastParents := []
        digests := p.digests.drop cfg.maxHeaderNumOfBatches
        pendingHeader := some (.building (p.round + 1) p.lastParents
          (p.digests.take cfg.maxHeaderNumOfBatches)) }
  | built {p : Proposer} {round : Nat} {parents : List Certificate} {digests : List ProposerDigest}
      (ht : p.pendingHeader = some (.building round parents digests)) (createdAt digest : Nat) :
      Change cfg event p₀ p [] { p with
        pendingHeader := some (.storing (newHeader cfg round parents digests createdAt digest)) }
  | stored {p : Proposer} {header : Header} (ht : p.pendingHeader = some (.storing header)) :
      Change cfg event p₀ p []
        { p with lastProposed := some header, pendingHeader := some (.sending header) }
  | sent {p : Proposer} {header : Header} (ht : p.pendingHeader = some (.sending header)) :
      Change cfg event p₀ p [.sent header] { p with pendingHeader := some (.done header) }
  | failed {p : Proposer} {task : HeaderTask} (ht : p.pendingHeader = some task)
      (e : ProposerError) : Change cfg event p₀ p [] (p.failTask task e)
  | watched (round : Nat) (hevent : event = .committedRound round) :
      Change cfg event p₀ p₀ [] { p₀ with committedRound := round }
  | restarted {round : Nat} (hevent : event = .restart round) :
      Change cfg event p₀ p₀ [] (new cfg round p₀.lastProposed)

inductive Changes (cfg : ProposerConfig) (event : ProposerEvent) (p₀ : Proposer) :
    Proposer → List ProposerEffect → Proposer → Prop
  | refl (p : Proposer) : Changes cfg event p₀ p [] p
  | cons {p q r : Proposer} {fx gx : List ProposerEffect} (h : Change cfg event p₀ p fx q)
      (rest : Changes cfg event p₀ q gx r) : Changes cfg event p₀ p (fx ++ gx) r

section
variable {ev : ProposerEvent} {p₀ : Proposer} {fx gx : List ProposerEffect}

theorem Change.then {r : Proposer} (h : Change cfg ev p₀ p fx q)
    (rest : Changes cfg ev p₀ q [] r) : Changes cfg ev p₀ p fx r := by
  have hcons := Changes.cons h rest
  rwa [append_nil] at hcons

theorem Change.changes (h : Change cfg ev p₀ p fx q) : Changes cfg ev p₀ p fx q :=
  h.then (.refl q)

theorem Same.changes (h : Same p q) : Changes cfg ev p₀ p [] q := (Change.quiet h).changes

theorem Changes.trans {r : Proposer} (h : Changes cfg ev p₀ p fx q)
    (h' : Changes cfg ev p₀ q gx r) : Changes cfg ev p₀ p (fx ++ gx) r := by
  induction h with
  | refl p => exact h'
  | cons hfst _ ih =>
    rw [append_assoc]
    exact .cons hfst (ih h')

theorem Changes.preserves {P : List ProposerEffect → Proposer → Prop} (h : Changes cfg ev p₀ p gx q)
    (hchg : ∀ fx p gx q, Change cfg ev p₀ p gx q → P fx p → P (fx ++ gx) q) (hp : P fx p) :
    P (fx ++ gx) q := by
  induction h generalizing fx with
  | refl p => rwa [append_nil]
  | cons hfst _ ih =>
    rw [← append_assoc]
    exact ih (hchg _ _ _ _ hfst hp)

end

variable (cfg)

theorem changes_afterSelect (event : ProposerEvent) (p₀ : Proposer) (hend : p.ended = none)
    (env : LoopEnv) : Changes cfg event p₀ p [] (p.afterSelect cfg env) := by
  have hle : p.round ≤ p.round + 1 := Nat.le_succ _
  unfold afterSelect tryPropose
  split
  · exact .refl p
  dsimp only
  split
  · exact Same.changes {}
  split
  · exact Same.changes {}
  split
  · exact Same.changes {}
  next hidle =>
  have hidle : p.pendingHeader = none := by simpa using hidle
  split
  · next hcreate =>
    have hne : p.lastParents ≠ [] := by
      intro hnil
      simp [shouldCreateHeader, hnil] at hcreate
    unfold proposeNextHeader
    split
    · exact (Change.stopped _ hidle hne (Nat.le_refl _)).then (Same.changes {})
    dsimp only
    split
    · exact (Change.stopped _ hidle hne hle).then (Same.changes {})
    split
    · exact (Change.stopped _ hidle hne hle).then (Same.changes {})
    split
    · next hdr hhdr =>
      obtain ⟨hlast, hsame⟩ := Option.filter_eq_some_iff.mp hhdr
      have hsame := of_decide_eq_true hsame
      exact (Change.repeated hidle hne hlast hsame.2).then (Same.changes {})
    · next hhdr =>
      refine (Change.building hend hidle hne fun last hlast hep heq => ?_).then (Same.changes {})
      have := Option.filter_eq_none_iff.mp hhdr last hlast
      simp [heq, hep] at this
  split
  · unfold reproposeLast
    split
    · exact Same.changes {}
    split
    · exact Same.changes {}
    next last hlast =>
    split
    · exact Same.changes {}
    · next hcur =>
      have hep : last.epoch = cfg.committee.epoch := by
        simp [lastProposedIsStale] at hcur
        exact hcur.1
      exact (Change.again hidle hlast hep).then (Same.changes {})
  · exact Same.changes {}

theorem changes_taskStep {task : HeaderTask} (ht : p.pendingHeader = some task)
    (event : ProposerEvent) :
    Changes cfg event p p (p.taskStep cfg task event).1 (p.taskStep cfg task event).2 := by
  unfold taskStep
  split
  · exact .refl p
  · exact .refl p
  · exact (Change.built ht _ _).changes
  · exact (Change.stored ht).changes
  · exact (Change.failed ht _).changes
  · exact (Change.sent ht).changes
  · exact (Change.failed ht _).changes
  · exact (Change.failed ht _).changes
  · exact .refl p

theorem step_select (hend : p.ended = none) (arm : ProposerArm) (env : LoopEnv)
    (hopen : (p.selectArm cfg env arm).2.ended = none) :
    p.step cfg (.select arm env) =
      ((p.selectArm cfg env arm).1, (p.selectArm cfg env arm).2.afterSelect cfg env) := by
  simp [step, hend, hopen]

variable (p)

theorem ended_takeParents (cs : List Certificate) (round : Nat) :
    (p.takeParents cfg cs round).ended = p.ended := by
  unfold takeParents
  split
  · dsimp only
    split <;> rfl
  · split <;> rfl

theorem same_processParents (ldr : Nat → Nat) (cs : List Certificate) (round : Nat) :
    Same (p.takeParents cfg cs round) (p.processParents cfg ldr cs round) := by
  unfold processParents ready
  split <;> exact {}

theorem ended_processParents (ldr : Nat → Nat) (cs : List Certificate) (round : Nat) :
    (p.processParents cfg ldr cs round).ended = p.ended := by
  rw [← ended_takeParents p cfg cs round]
  unfold processParents ready
  split <;> rfl

theorem changes_selectArm (arm : ProposerArm) (env : LoopEnv) :
    Changes cfg (.select arm env) p p (p.selectArm cfg env arm).1 (p.selectArm cfg env arm).2 := by
  cases arm with
  | shutdown => exact Same.changes { ended := nofun }
  | digest d => exact (Change.acked p d).changes
  | parents cs round =>
    exact (Change.took rfl).then (same_processParents p cfg _ cs round).changes
  | committed commitRound own => exact (Change.noticed rfl).changes
  | result =>
    dsimp only [selectArm]
    split
    · next ht => exact (Change.handled rfl ht).changes
    · exact (Change.gaveUp p _).changes
    · exact .refl p
  | maxTick | minTick => exact Same.changes {}

/-- A step is a sequence of changes. -/
theorem changes_step (event : ProposerEvent) :
    Changes cfg event p p (p.step cfg event).1 (p.step cfg event).2 := by
  unfold step
  split
  · exact (Change.restarted rfl).changes
  · exact (Change.watched _ rfl).changes
  · next arm env =>
    split
    · exact .refl p
    · have harm := changes_selectArm p cfg arm env
      dsimp only
      split
      · exact harm
      · next hopen =>
        have hboth := harm.trans (changes_afterSelect cfg _ p (by simpa using hopen) env)
        rwa [append_nil] at hboth
  · split
    · exact .refl p
    · next task ht => exact changes_taskStep cfg ht event

variable {cfg p}

theorem Change.running {event : ProposerEvent} {p₀ : Proposer} {fx : List ProposerEffect}
    (h : Change cfg event p₀ p fx q) (hev : ∀ r, event ≠ .restart r) (hq : q.ended = none) :
    p.ended = none := by
  cases h with
  | quiet hsame => exact hsame.ended hq
  | took => exact (ended_takeParents _ cfg _ _).symm.trans hq
  | noticed => exact (sameFrame_processCommittedHeaders _ _ _).ended.symm.trans hq
  | handled =>
    have hfrm := sameFrame_handleProposalResult cfg { p with pendingHeader := none }
    exact (hfrm _ _).ended.symm.trans hq
  | gaveUp | stopped => cases hq
  | acked | again | repeated | building | built | stored | sent | failed | watched => exact hq
  | restarted heq => exact absurd heq (hev _)

end

end Proposer

end Axyl
