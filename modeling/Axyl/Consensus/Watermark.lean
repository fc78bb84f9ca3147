import Axyl.Consensus.Recovery
import Axyl.Consensus.Integrity

/-! Commits only move up, whatever certificates arrive: what is committed is above the garbage
collection round and above the last committed round of its author. -/

namespace Axyl
open Fallible List
open Std (ExtTreeMap)
open ConsensusState

namespace ConsensusState

/-- The dag keeps certificates under their rounds and above the garbage collection round, and no
author is committed above the committed round. -/
structure Ranked (state : ConsensusState) : Prop where
  gc : state.GcConsistent
  dag : ∀ r a c, state.dag.entry r a = some c → c.round = r ∧ state.lastRound.gcRound < r
  last : ∀ a : Nat, state.lastCommitted[a]?.getD 0 ≤ state.lastRound.committedRound

/-- The certificates are committed above the marks of the first state and raise them to those of
the second. -/
structure Raised (state : ConsensusState) (certs : List Certificate) (state' : ConsensusState) :
    Prop where
  ranked : state'.Ranked
  above : ∀ c ∈ certs, state.lastRound.gcRound < c.round ∧
    state.lastCommitted[c.origin]?.getD 0 < c.round
  lastCommitted : ∀ a : Nat, state'.lastCommitted[a]?.getD 0 =
    max (state.lastCommitted[a]?.getD 0) (lastRoundOf certs a)
  committedRound : state.lastRound.committedRound ≤ state'.lastRound.committedRound
  gcDepth : state'.gcDepth = state.gcDepth

variable {state state' state'' : ConsensusState} {cs certs' : List Certificate}

theorem Ranked.gcRound_le (h : state.Ranked) :
    state.lastRound.gcRound ≤ state.lastRound.committedRound := by
  have hgc := h.gc
  unfold GcConsistent at hgc
  omega

theorem Raised.gcRound_le (h : Raised state cs state') (hs : state.GcConsistent) :
    state.lastRound.gcRound ≤ state'.lastRound.gcRound := by
  have hgc := h.ranked.gc
  have hrnd := h.committedRound
  have hdep := h.gcDepth
  unfold GcConsistent at hs hgc
  omega

theorem Raised.trans (h : Raised state cs state') (h' : Raised state' certs' state'')
    (hs : state.GcConsistent) : Raised state (cs ++ certs') state'' where
  ranked := h'.ranked
  above := by
    intro c hc
    rcases mem_append.mp hc with hc | hc
    · exact h.above c hc
    · have hgc := h.gcRound_le hs
      obtain ⟨hrnd, hlast⟩ := h'.above c hc
      rw [h.lastCommitted] at hlast
      omega
  lastCommitted := by
    intro a
    rw [h'.lastCommitted, h.lastCommitted, lastRoundOf_append, max_assoc]
  committedRound := le_trans h.committedRound h'.committedRound
  gcDepth := h'.gcDepth.trans h.gcDepth

variable {dag : Dag}

theorem raised_nil (h : Ranked { state with dag }) : Raised state [] { state with dag } where
  ranked := h
  above := nofun
  lastCommitted := by simp [lastRoundOf]
  committedRound := le_refl _
  gcDepth := rfl

theorem Ranked.update (h : state.Ranked) (c : Certificate) : (state.update c).Ranked where
  gc := update_gcConsistent state c
  dag := by
    intro r a d hd
    simp only [ConsensusState.update, Dag.entry_filter_lt] at hd
    split at hd
    · next hlt => exact ⟨(h.dag r a d hd).1, hlt⟩
    · cases hd
  last := by
    intro a
    have hlast := h.last a
    simp only [ConsensusState.update, getD_raiseRound, ConsensusRound.update,
      ConsensusRound.newWithGcDepth]
    split <;> omega

theorem Ranked.foldl_update (h : state.Ranked) (cs : List Certificate) :
    (cs.foldl ConsensusState.update state).Ranked := by
  induction cs generalizing state with
  | nil => exact h
  | cons c cs ih => exact ih (h.update c)

variable {c : Certificate}

theorem Ranked.of_entries (h : state.Ranked) (hdag : ∀ r a c, dag.entry r a = some c →
      state.dag.entry r a = some c ∨ c.round = r ∧ state.lastRound.gcRound < r) :
    Ranked { state with dag } where
  gc := h.gc
  dag := by
    intro r a c hc
    exact (hdag r a c hc).elim (h.dag r a c) id
  last := h.last

theorem entry_tryInsertInDag {lastCommitted : ExtTreeMap Nat Nat} {g r a : Nat} {d : Certificate}
    (h : (tryInsertInDag dag lastCommitted g c).2.entry r a = some d) :
    dag.entry r a = some d ∨ d = c ∧ d.round = r ∧ g < r := by
  have hinserted (hg : g < c.round) (hd : (insertCertificate dag c).entry r a = some d) :
      dag.entry r a = some d ∨ d = c ∧ d.round = r ∧ g < r := by
    rw [entry_insertCertificate] at hd
    split at hd
    · next heq =>
      cases hd
      exact .inr ⟨rfl, heq.1.symm, heq.1 ▸ hg⟩
    · exact .inl hd
  rcases tryInsertInDag_cases dag lastCommitted g c with
    ⟨-, heq⟩ | ⟨-, e, -, heq⟩ | ⟨hg, -, e, -, -, heq⟩ | ⟨hg, -, -, heq⟩
  · exact .inl (by rwa [heq] at h)
  · exact .inl (by rwa [heq] at h)
  · exact hinserted hg (by rwa [heq] at h)
  · exact hinserted hg (by rwa [heq] at h)

theorem proactiveGc_eq (state : ConsensusState) (highestSeenRound : Nat) :
    ∃ dag : Dag, state.proactiveGc highestSeenRound = { state with dag } ∧
      ∀ r a c, dag.entry r a = some c → state.dag.entry r a = some c := by
  unfold proactiveGc
  dsimp only
  split
  · exact ⟨_, rfl, fun _ _ _ h => h⟩
  split
  · exact ⟨_, rfl, fun _ _ _ h => h⟩
  · refine ⟨_, rfl, fun r a c hc => ?_⟩
    rw [Dag.entry_filter_lt] at hc
    split at hc
    · exact hc
    · cases hc

theorem Ranked.mem_expand (h : state.Ranked) {g : Nat} {x : Certificate} (hc : c ∈ state.expand g x)
    : c.round < x.round ∧ state.lastRound.gcRound < c.round ∧
      state.lastCommitted[c.origin]?.getD 0 < c.round := by
  obtain ⟨-, ⟨p, -, hp⟩, hfre⟩ := ConsensusState.mem_expand.mp hc
  obtain ⟨a, ha⟩ := Dag.mem_table_values.mp (mem_of_find?_eq_some hp)
  obtain ⟨hrnd, hgc⟩ := h.dag _ a c ha
  refine ⟨by omega, by omega, ?_⟩
  unfold alreadyCommitted at hfre
  cases hlast : state.lastCommitted[c.origin]? with
  | none =>
    rw [Option.getD_none]
    omega
  | some w =>
    rw [hlast, Option.any_some, decide_eq_false_iff_not] at hfre
    exact Nat.lt_of_not_le hfre

variable {sequence : List Certificate} {ldr : Certificate}

theorem search_of_orderDag (h : orderDag ldr state = .ok sequence) :
    ∃ ordered, Search.search Certificate.digest (state.expand (ldr.round - state.gcDepth))
      (state.dagDigests.length + 1) ldr = some ordered ∧ ∀ c, c ∈ sequence ↔ c ∈ ordered := by
  unfold Axyl.orderDag at h
  split at h
  · cases h
  split at h
  · cases h
  next ordered hsearch =>
  split at h
  · cases h
  cases h
  exact ⟨ordered, hsearch, fun c => mem_insertionSort _⟩

theorem leader_mem_orderDag (h : orderDag ldr state = .ok sequence) : ldr ∈ sequence := by
  obtain ⟨ordered, hsearch, hmem⟩ := search_of_orderDag h
  exact (hmem ldr).mpr ((Search.loop_closed hsearch).1 mem_cons_self)

theorem Ranked.orderDag (h : state.Ranked) (hldr : state.lastRound.committedRound < ldr.round)
    (hok : orderDag ldr state = .ok sequence) (hc : c ∈ sequence) :
    c.round ≤ ldr.round ∧ state.lastRound.gcRound < c.round ∧
      state.lastCommitted[c.origin]?.getD 0 < c.round := by
  obtain ⟨ordered, hsearch, hmem⟩ := search_of_orderDag hok
  obtain ⟨b, hb, hreach⟩ := Search.loop_sound hsearch c ((hmem c).mp hc)
  rw [mem_singleton.mp hb] at hreach
  refine ⟨?_, ?_⟩
  · apply Search.rank_le_of_reachable Certificate.round _ hreach
    intro x y hy
    exact (h.mem_expand hy).1
  · rcases Relation.ReflTransGen.cases_tail hreach with heq | ⟨x, -, hx⟩
    · rw [heq]
      have hgc := h.gcRound_le
      have hlast := h.last ldr.origin
      exact ⟨by omega, by omega⟩
    · exact (h.mem_expand hx).2

end ConsensusState

namespace Consensus
open ConsensusState

/-- The sub-dag that one leader commits and the node after it. -/
structure Committed (n : Consensus) (leader : Certificate) (d : CommittedSubDag) (n' : Consensus) :
    Prop where
  order : orderDag leader n.state = .ok d.certificates
  subDag : d = .new d.certificates leader (n.protocol.nextScores n.state.lastCommittedSubDag
    d.certificates leader.nonce) n.state.lastCommittedSubDag
  state : n'.state =
    { d.certificates.foldl update n.state with lastCommittedSubDag := some d }
  committee_eq : n'.protocol.committee = n.protocol.committee
  num_eq : n'.protocol.numSubDagsPerSchedule = n.protocol.numSubDagsPerSchedule

/-- What a node does with what it receives, one change of its state at a time: certificates of
its epoch come into the dag above the garbage collection round, certificates leave the dag, and a
leader of the dag above the last commit is committed. -/
inductive Acts : Consensus → List CommittedSubDag → Consensus → Prop
  | refl (n : Consensus) : Acts n [] n
  | dag {n n' : Consensus} {ds : List CommittedSubDag} {dag : Dag}
      (entries : ∀ r a c, dag.entry r a = some c → n.state.dag.entry r a = some c ∨
        c.round = r ∧ n.state.lastRound.gcRound < r ∧ c.epoch = n.protocol.committee.epoch)
      (rest : Acts { n with state := { n.state with dag } } ds n') : Acts n ds n'
  | commit {n n₁ n' : Consensus} {ds : List CommittedSubDag} {leader : Certificate}
      {d : CommittedSubDag} {a : Nat} (entry : n.state.dag.entry leader.round a = some leader)
      (even : leader.round % 2 = 0) (above : n.state.lastRound.committedRound < leader.round)
      (committed : n.Committed leader d n₁) (rest : Acts n₁ ds n') : Acts n (d :: ds) n'

variable {n n' : Consensus} {ds : List CommittedSubDag} {ldr : Certificate} {d : CommittedSubDag}

theorem foldl_update_last (state : ConsensusState) (certs : List Certificate) :
    (certs.foldl update state).lastCommittedSubDag = state.lastCommittedSubDag := by
  induction certs generalizing state with
  | nil => rfl
  | cons c certs ih => exact ih _

variable {c : Certificate}

theorem entry_foldl_update {state : ConsensusState} (certs : List Certificate) {r a : Nat}
    (h : (certs.foldl update state).dag.entry r a = some c) : state.dag.entry r a = some c := by
  induction certs generalizing state with
  | nil => exact h
  | cons x certs ih =>
    have hkept := ih h
    simp only [update, Dag.entry_filter_lt] at hkept
    split at hkept
    · exact hkept
    · cases hkept

theorem committed_of_ok {changed : Bool} (h : n.commitSubDag ldr = .ok (d, changed, n')) :
    n.Committed ldr d n' := by
  obtain ⟨sequence, hord, h⟩ := bind_eq_ok.mp h
  obtain ⟨score, hsc, h⟩ := bind_eq_ok.mp h
  obtain ⟨⟨flag, protocol⟩, hupd, h⟩ := bind_eq_ok.mp h
  cases h
  unfold Bullshark.resolveReputationScore at hsc
  rw [foldl_update_last] at hsc ⊢
  dsimp only at hsc
  split at hsc
  · cases hsc
    unfold Bullshark.updateLeaderSchedule at hupd
    split at hupd
    · obtain ⟨table, -, hupd⟩ := bind_eq_ok.mp hupd
      cases hupd
      exact ⟨hord, rfl, rfl, rfl, rfl⟩
    · cases hupd
      exact ⟨hord, rfl, rfl, rfl, rfl⟩
  · cases hsc

section
variable (hn : n.state.Ranked)
include hn

theorem Committed.raised (h : n.Committed ldr d n')
    (hldr : n.state.lastRound.committedRound < ldr.round) : Raised n.state d.certificates n'.state ∧
      n'.state.lastRound.committedRound = ldr.round := by
  have hord := fun c hc => hn.orderDag hldr h.order (c := c) hc
  have hupdated := foldl_update_spec d.certificates hn.gc
  have hrank := hn.foldl_update d.certificates
  have hmono := ((hupdated.committedRound _).mp (le_refl _)).1
  rw [h.state]
  refine ⟨⟨{ hrank with }, ?_, hupdated.lastCommitted, hmono, hupdated.gcDepth⟩, ?_⟩
  · intro c hc
    exact (hord c hc).2
  · refine hupdated.committedRound_eq (leader_mem_orderDag h.order) (by omega) ?_
    exact fun c hc => (hord c hc).1

variable {n'' : Consensus} {es : List CommittedSubDag}

omit hn in
theorem Acts.trans (h : Acts n ds n') (h' : Acts n' es n'') : Acts n (ds ++ es) n'' := by
  induction h with
  | refl => exact h'
  | dag entries _ ih => exact .dag entries (ih h')
  | commit entry even above committed _ ih => exact .commit entry even above committed (ih h')

theorem Acts.raised (h : Acts n ds n') : Raised n.state (sequenceOf ds) n'.state := by
  induction h with
  | refl => exact raised_nil hn
  | dag entries _ ih =>
    have hkept := hn.of_entries fun r a c hc => (entries r a c hc).imp_right fun h => ⟨h.1, h.2.1⟩
    exact (raised_nil hkept).trans (ih hkept) hn.gc
  | commit _ _ above committed _ ih =>
    have hrsd := (committed.raised hn above).1
    exact hrsd.trans (ih hrsd.ranked) hn.gc

def Rises (d e : CommittedSubDag) : Prop :=
  ∀ c ∈ d.certificates, ∀ x ∈ e.certificates, c.origin = x.origin → c.round < x.round

theorem Acts.rises (h : Acts n ds n') : ds.Pairwise Rises := by
  induction h with
  | refl => exact .nil
  | dag entries _ ih =>
    exact ih (hn.of_entries fun r a c hc => (entries r a c hc).imp_right fun h => ⟨h.1, h.2.1⟩)
  | commit _ _ above committed rest ih =>
    have hrsd := (committed.raised hn above).1
    refine pairwise_cons.mpr ⟨fun e he c hc x hx heq => ?_, ih hrsd.ranked⟩
    have hmark := ((rest.raised hrsd.ranked).above x (mem_flatMap_of_mem he hx)).2
    have hle := round_le_lastRoundOf hc
    rw [hrsd.lastCommitted, ← heq] at hmark
    omega

/-- A certificate that the dag holds in an even round above the last commit and up to `top`. -/
structure Pending (n : Consensus) (top : Nat) (c : Certificate) : Prop where
  above : n.state.lastRound.committedRound < c.round
  le_top : c.round ≤ top
  even : c.round % 2 = 0
  entry : ∃ a, n.state.dag.entry c.round a = some c

/-- The dag above the garbage collection round is not touched by a commit. -/
theorem Committed.pending (h : n.Committed ldr d n')
    (hldr : n.state.lastRound.committedRound < ldr.round) {top : Nat} (hc : n.Pending top c)
    (hlt : ldr.round < c.round) : n'.Pending top c := by
  obtain ⟨hrsd, hrnd⟩ := h.raised hn hldr
  have hgc : n'.state.lastRound.gcRound < c.round := by
    have hle := hrsd.ranked.gcRound_le
    omega
  obtain ⟨a, ha⟩ := hc.entry
  refine ⟨by omega, hc.le_top, hc.even, a, ?_⟩
  rw [h.state] at hgc ⊢
  rw [Dag.entry, Dag.table, (foldl_update_spec d.certificates hn.gc).dag c.round hgc]
  exact ha

theorem commitLeaders_acts {leaders : List Certificate} {top : Nat}
    (hsort : leaders.Pairwise fun a b => a.round < b.round) (hpend : ∀ c ∈ leaders, n.Pending top c)
    {o : Outcome} (h : n.commitLeaders leaders = .ok (o, ds, n')) :
    Acts n ds n' ∧ (o = .scheduleChanged → n'.state.lastRound.committedRound < top) := by
  induction leaders generalizing n o ds with
  | nil =>
    cases h
    exact ⟨.refl _, nofun⟩
  | cons ldr leaders ih =>
    obtain ⟨hlt, hsort⟩ := pairwise_cons.mp hsort
    obtain ⟨hldr, hpend⟩ := forall_mem_cons.mp hpend
    obtain ⟨a, ha⟩ := hldr.entry
    obtain ⟨⟨d, changed, n₁⟩, hcmt, h⟩ := bind_eq_ok.mp h
    have hcomm := committed_of_ok hcmt
    have hlat : ∀ c ∈ leaders, n₁.Pending top c := fun c hc =>
      hcomm.pending hn hldr.above (hpend c hc) (hlt c hc)
    dsimp only at h
    split at h
    · next hleft =>
      cases h
      refine ⟨.commit ha hldr.even hldr.above hcomm (.refl _), fun _ => ?_⟩
      obtain ⟨next, hnext⟩ := exists_mem_of_ne_nil leaders hleft.2
      exact lt_of_lt_of_le (hlat next hnext).above (hlat next hnext).le_top
    · obtain ⟨⟨o', es, n₂⟩, hrest, h⟩ := bind_eq_ok.mp h
      cases h
      have hrank := (hcomm.raised hn hldr.above).1.ranked
      obtain ⟨hmore, hleft⟩ := ih hrank hsort hlat hrest
      exact ⟨.commit ha hldr.even hldr.above hcomm hmore, hleft⟩

end

section
variable [StdRng] {c : Certificate} {s : LeaderSchedule} {leaderRound : Nat}

theorem leaderCertificate_entry (hn : n.state.Ranked) {r : Nat}
    (h : s.leaderCertificate r n.state.dag = .ok (some c)) :
    c.round = r ∧ c.round % 2 = 0 ∧ ∃ a, n.state.dag.entry c.round a = some c := by
  obtain ⟨ldr, hldr, h⟩ := bind_eq_ok.mp h
  have hent := Except.ok.inj h
  obtain rfl := (hn.dag r ldr.id c hent).1
  unfold LeaderSchedule.leader at hldr
  split at hldr
  · next heven => exact ⟨rfl, heven, ldr.id, hent⟩
  · cases hldr

theorem orderLeadersLoop_sorted (hn : n.state.Ranked) {top : Nat}
    {rounds : List Nat} {ldr : Certificate} {later leaders : List Certificate}
    (hrs : (ldr.round :: rounds).Pairwise (· > ·))
    (hlow : ∀ r ∈ rounds, n.state.lastRound.committedRound < r)
    (hsort : (ldr :: later).Pairwise fun a b => a.round < b.round)
    (hpend : ∀ c ∈ ldr :: later, n.Pending top c)
    (h : orderLeadersLoop s n.state.dag rounds ldr later = .ok leaders) :
    leaders.Pairwise (fun a b => a.round < b.round) ∧ ∀ c ∈ leaders, n.Pending top c := by
  induction rounds generalizing ldr later with
  | nil =>
    cases h
    exact ⟨hsort, hpend⟩
  | cons r rounds ih =>
    obtain ⟨hbel, hrs⟩ := pairwise_cons.mp hrs
    obtain ⟨hr, hrest⟩ := forall_mem_cons.mp hlow
    obtain ⟨found, hfound, hloop⟩ := bind_eq_ok.mp h
    have hkept : (ldr.round :: rounds).Pairwise (· > ·) := by
      refine pairwise_cons.mpr ⟨fun x hx => ?_, (pairwise_cons.mp hrs).2⟩
      exact hbel x (mem_cons_of_mem r hx)
    cases found with
    | none => exact ih hkept hrest hsort hpend hloop
    | some prev =>
      obtain ⟨rfl, heven, hent⟩ := leaderCertificate_entry hn hfound
      have hlt : prev.round < ldr.round := hbel prev.round mem_cons_self
      dsimp only at hloop
      split at hloop
      · refine ih hrs hrest ?_ ?_ hloop
        · exact Pairwise.cons_cons_of_trans hlt hsort
        · have htop := (hpend ldr mem_cons_self).le_top
          exact forall_mem_cons.mpr ⟨⟨hr, by omega, heven, hent⟩, hpend⟩
      · exact ih hkept hrest hsort hpend hloop

variable {o : Outcome}

section
variable (hn : n.state.Ranked)
include hn

section
variable (hrnd : n.state.lastRound.committedRound < leaderRound)
include hrnd

theorem commitLeader_acts (h : n.commitLeader leaderRound = .ok (o, ds, n')) :
    Acts n ds n' ∧ (o = .scheduleChanged → n'.state.lastRound.committedRound < leaderRound) := by
  obtain ⟨found, hfound, h⟩ := bind_eq_ok.mp h
  cases found with
  | none =>
    cases h
    exact ⟨.refl _, nofun⟩
  | some ldr =>
    obtain ⟨rfl, heven, hent⟩ := leaderCertificate_entry hn hfound
    dsimp only at h
    split at h
    · cases h
    · split at h
      · cases h
        exact ⟨.refl _, nofun⟩
      · obtain ⟨leaders, hldrs, h⟩ := bind_eq_ok.mp h
        have hlow : ∀ r ∈ leaderRounds n.state.lastRound.committedRound ldr.round,
            n.state.lastRound.committedRound < r := by
          intro r hr
          have hbounds := mem_leaderRounds hr
          omega
        obtain ⟨hsort, hpend⟩ := orderLeadersLoop_sorted hn (pairwise_leaderRounds _ _) hlow
          (pairwise_singleton _ _) (forall_mem_singleton.mpr ⟨hrnd, le_refl _, heven, hent⟩)
          (Bullshark.orderLeadersLoop_of_orderLeaders hldrs)
        exact commitLeaders_acts hn hsort hpend h

theorem commitLoop_acts {fuel : Nat}
    (h : commitLoop leaderRound fuel n = .ok (o, ds, n')) : Acts n ds n' := by
  induction fuel generalizing n o ds with
  | zero => cases h
  | succ fuel ih =>
    obtain ⟨⟨o₁, es, n₁⟩, hcmt, h⟩ := bind_eq_ok.mp h
    obtain ⟨hacts, hagain⟩ := commitLeader_acts hn hrnd hcmt
    dsimp only at h
    split at h
    · next hchd =>
      obtain ⟨⟨o₂, fs, n₂⟩, hrest, h⟩ := bind_eq_ok.mp h
      cases h
      exact hacts.trans (ih (hacts.raised hn).ranked (hagain hchd) hrest)
    · cases h
      exact hacts

end

theorem newCertificate_acts (h : n.newCertificate c = .ok (.ok (o, ds), n')) : Acts n ds n' := by
  unfold newCertificate at h
  split at h
  swap
  · cases h
    exact .refl _
  next hep =>
  have hins : Acts n [] { n with state := (n.state.tryInsert c).2 } := by
    refine .dag (fun r a d hd => (entry_tryInsertInDag hd).imp_right ?_) (.refl _)
    rintro ⟨rfl, hrnd, hgc⟩
    exact ⟨hrnd, hgc, hep⟩
  have hkept := (hins.raised hn).ranked
  unfold processCertificate at h
  dsimp only at h
  split at h
  · cases h
  · cases h
    exact hins
  · split at h
    · cases h
    split at h
    · cases h
      exact hins
    split at h
    · cases h
      exact hins
    · next hrnd =>
      obtain ⟨⟨o', es, n₁⟩, hcmt, h⟩ := bind_eq_ok.mp h
      cases h
      exact hins.trans (commitLoop_acts hkept (Nat.lt_of_not_le hrnd) hcmt)

theorem newCertificate_raised (h : n.newCertificate c = .ok (.ok (o, ds), n')) :
    Raised n.state (sequenceOf ds) n'.state :=
  (newCertificate_acts hn h).raised hn

end

omit [StdRng] in
theorem proactiveGc_acts (n : Consensus) (highestSeenRound : Nat) :
    Acts n [] (n.proactiveGc highestSeenRound) := by
  unfold Consensus.proactiveGc
  split
  · obtain ⟨dag, heq, hdag⟩ := proactiveGc_eq n.state highestSeenRound
    rw [heq]
    exact .dag (fun r a c hc => .inl (hdag r a c hc)) (.refl _)
  · exact .refl n

omit [StdRng] in
theorem proactiveGc_raised (hn : n.state.Ranked) (highestSeenRound : Nat) :
    Raised n.state [] (n.proactiveGc highestSeenRound).state :=
  (proactiveGc_acts n highestSeenRound).raised hn

/-- The sub-dags of a run up to its first failure. -/
theorem run_acts (hn : n.state.Ranked) (highestSeenRound : Nat) (events : List Event) :
    ∃ n', Acts n (n.run highestSeenRound events).1 n' := by
  induction events generalizing n highestSeenRound with
  | nil => exact ⟨n, .refl n⟩
  | cons event events ih =>
    cases event with
    | gcTick =>
      have hacts := proactiveGc_acts n highestSeenRound
      obtain ⟨n', hrest⟩ := ih (hacts.raised hn).ranked highestSeenRound
      exact ⟨n', hacts.trans hrest⟩
    | certificate c =>
      simp only [run]
      split
      · exact ⟨n, .refl n⟩
      · exact ⟨n, .refl n⟩
      · next heq =>
        have hacts := newCertificate_acts hn heq
        obtain ⟨n', hrest⟩ := ih (hacts.raised hn).ranked (max highestSeenRound c.round)
        exact ⟨n', hacts.trans hrest⟩

/-- Whatever a node receives, later sub-dags have only later rounds of an author. -/
theorem run_rises (protocol : Bullshark) (gcDepth : Nat) (events : List Event) :
    (run 0 ⟨protocol, .new gcDepth⟩ events).1.Pairwise Rises := by
  have hn : (ConsensusState.new gcDepth).Ranked := by
    constructor <;> simp [ConsensusState.new, GcConsistent]
  obtain ⟨_, hacts⟩ := run_acts (n := ⟨protocol, _⟩) hn 0 events
  exact hacts.rises hn

end

theorem constructDag_entries {lastCommitted : ExtTreeMap Nat Nat} {g epoch : Nat}
    {l : List Certificate} {dag dag' : Dag} (h : constructDag lastCommitted g epoch l dag = .ok dag')
    {r a : Nat} (hc : dag'.entry r a = some c) :
    dag.entry r a = some c ∨ c.round = r ∧ g < r ∧ c.epoch = epoch := by
  induction l generalizing dag with
  | nil =>
    cases h
    exact .inl hc
  | cons x l ih =>
    unfold constructDag at h
    split at h
    · exact ih h
    next hep =>
    have hkept {e : Except ConsensusError Bool} {dag₁ : Dag}
        (heq : tryInsertInDag dag lastCommitted g x = (e, dag₁))
        (h : constructDag lastCommitted g epoch l dag₁ = .ok dag') :
        dag.entry r a = some c ∨ c.round = r ∧ g < r ∧ c.epoch = epoch := by
      refine (ih h).elim (fun hdag => ?_) .inr
      refine (entry_tryInsertInDag (by rwa [heq])).imp_right ?_
      rintro ⟨rfl, hrnd, hg⟩
      exact ⟨hrnd, hg, not_not.mp hep⟩
    split at h
    · next heq => exact hkept heq h
    · next heq => exact hkept heq h
    · next heq => exact hkept heq h
    · cases h

/-- What a node rebuilt from its storage starts with. -/
structure Spawned (committee : Committee) (gcDepth : Nat) (storage : NodeStorage) (n : Consensus) :
    Prop where
  ranked : n.state.Ranked
  gcDepth : n.state.gcDepth = gcDepth
  committee_eq : n.protocol.committee = committee
  latest : n.state.lastCommittedSubDag = storage.consensusBlocks.getLatestSubDag.filter fun d =>
    committee.epoch ≤ d.leaderEpoch
  epoch : ∀ r a c, n.state.dag.entry r a = some c → c.epoch = committee.epoch

theorem spawn_spec {committee : Committee} {gcDepth num threshold : Nat} {storage : NodeStorage}
    {anchor : ConsensusHeader} (h : spawn committee gcDepth num threshold storage anchor = .ok n) :
    Spawned committee gcDepth storage n := by
  obtain ⟨schedule, -, h⟩ := bind_eq_ok.mp h
  dsimp only at h
  split at h
  · cases h
  obtain ⟨state, hstt, h⟩ := bind_eq_ok.mp h
  obtain ⟨dag, hdag, hstt⟩ := bind_eq_ok.mp hstt
  cases hstt
  cases h
  unfold constructDagFromCertStore at hdag
  split at hdag
  · cases hdag
  split at hdag
  · next heq =>
    cases hdag
    have hents {r a : Nat} {c : Certificate} (hc : dag.entry r a = some c) :=
      (constructDag_entries heq hc).resolve_left (by simp)
    refine ⟨⟨rfl, fun r a c hc => ?_, fun a => ?_⟩, rfl, rfl, rfl, fun r a c hc => ?_⟩
    · exact ⟨(hents hc).1, (hents hc).2.1⟩
    · exact le_trans (highestRound_le_iff.mp (le_refl _) a) (le_max_right _ _)
    · exact (hents hc).2.2
  · cases hdag

end Consensus

end Axyl
