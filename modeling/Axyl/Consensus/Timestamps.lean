import Axyl.Consensus.Watermark

/-! Commit timestamps over the sessions of a node. Inside an epoch every sub-dag is stamped
against the one before it, also across a restart; a new epoch starts without one. -/

namespace Axyl
open Fallible List CommittedSubDag
open Std (ExtTreeMap)

/-- The last sub-dag, the sub-dag committed next, and the last one after it. -/
structure Stamp (epoch : Nat) (last : Option CommittedSubDag) (d : CommittedSubDag)
    (last' : Option CommittedSubDag) : Prop where
  last_eq : last' = some d
  epoch_eq : d.leaderEpoch = epoch
  timestamp : d.commitTimestamp =
    max ((last.map commitTimestamp).getD 0) d.leader.createdAt

namespace Consensus

variable {n n' : Consensus}

theorem Acts.stamps {ds : List CommittedSubDag} (h : Acts n ds n') {epoch : Nat}
    (hn : n.state.Ranked) (hep : n.protocol.committee.epoch = epoch)
    (hdag : ∀ r a c, n.state.dag.entry r a = some c → c.epoch = epoch) :
    Trace.Run (Stamp epoch) n.state.lastCommittedSubDag ds n'.state.lastCommittedSubDag := by
  induction h with
  | refl => exact .nil _
  | dag entries rest ih =>
    refine ih (hn.of_entries fun r a c hc => ?_) hep fun r a c hc => ?_
    · exact (entries r a c hc).imp_right fun h => ⟨h.1, h.2.1⟩
    · exact (entries r a c hc).elim (hdag r a c) fun h => h.2.2.trans hep
  | commit entry _ above committed _ ih =>
    have hrsd := (committed.raised hn above).1
    have hstt := committed.state
    refine .cons ⟨congrArg ConsensusState.lastCommittedSubDag hstt, ?_, ?_⟩
      (ih hrsd.ranked (congrArg Committee.epoch committed.committee_eq |>.trans hep) ?_)
    · rw [committed.subDag]
      exact hdag _ _ _ entry
    · rw [committed.subDag]
      rfl
    · intro r a c hc
      rw [hstt] at hc
      exact hdag r a c (entry_foldl_update _ hc)

end Consensus

/-- Chains of sub-dags a node commits over any number of sessions. A session starts from
the storage, in the epoch of the last block or a later one, receives any events, and
leaves the first `k` of the sub-dags it commits in the storage. -/
inductive SessionChain [StdRng] : List CommittedSubDag → Prop
  | genesis : SessionChain []
  | session {ds : List CommittedSubDag} (committee : Committee)
      (gcDepth numSubDagsPerSchedule threshold : Nat) (storage : NodeStorage)
      (executedAnchor : ConsensusHeader) {n : Consensus} (events : List Consensus.Event) (k : Nat) :
      SessionChain ds → storage.consensusBlocks.subDags = ds →
      (∀ d ∈ ds, d.leaderEpoch ≤ committee.epoch) →
      Consensus.spawn committee gcDepth numSubDagsPerSchedule threshold storage executedAnchor =
        .ok n →
      SessionChain (ds ++ (n.run 0 events).1.take k)

structure Follows (prev d : CommittedSubDag) : Prop where
  epoch_le : prev.leaderEpoch ≤ d.leaderEpoch
  timestamp : d.commitTimestamp =
    max (if prev.leaderEpoch = d.leaderEpoch then prev.commitTimestamp else 0) d.leader.createdAt

/-- One more sub-dag on the chain. The first one has its leader's timestamp. -/
structure Link (last : Option CommittedSubDag) (d : CommittedSubDag)
    (last' : Option CommittedSubDag) : Prop where
  last_eq : last' = some d
  first : last = none → d.commitTimestamp = d.leader.createdAt
  follows : ∀ p, last = some p → Follows p d

variable {last last' : Option CommittedSubDag} {d : CommittedSubDag}

theorem link_of_stamp {epoch : Nat} (hlast : ∀ p, last = some p → p.leaderEpoch ≤ epoch)
    (h : Stamp epoch (last.filter fun p => epoch ≤ p.leaderEpoch) d last') : Link last d last' := by
  have hstm := h.timestamp
  refine ⟨h.last_eq, ?_, ?_⟩
  · intro hnone
    subst hnone
    simpa using hstm
  · intro p hp
    subst hp
    have hle := hlast p rfl
    have hep := h.epoch_eq
    refine ⟨by omega, ?_⟩
    by_cases hsame : epoch ≤ p.leaderEpoch
    · rw [if_pos (by omega)]
      simpa [Option.filter, hsame] using hstm
    · rw [if_neg (by omega)]
      simpa [Option.filter, hsame] using hstm

theorem run_link_of_stamp {epoch : Nat} {es : List CommittedSubDag}
    (hlast : ∀ p, last = some p → p.leaderEpoch ≤ epoch)
    (h : Trace.Run (Stamp epoch) (last.filter fun p => epoch ≤ p.leaderEpoch) es last') :
    ∃ final, Trace.Run Link last es final := by
  induction es generalizing last with
  | nil => exact ⟨last, .nil last⟩
  | cons d es ih =>
    cases h with
    | cons hstep hrest =>
      have hlink := link_of_stamp hlast hstep
      obtain ⟨rfl, hep, -⟩ := hstep
      have hkept : (some d).filter (fun p => epoch ≤ p.leaderEpoch) = some d := by
        simp [Option.filter, hep]
      rw [← hkept] at hrest
      obtain ⟨final, hfin⟩ := ih (fun p hp => by cases hp; exact hep.le) hrest
      exact ⟨final, .cons hlink hfin⟩

/-- What the chain so far says about the timestamp of its last sub-dag: it is the latest
among the leaders of that epoch. -/
structure Linked (ds : List CommittedSubDag) (last : Option CommittedSubDag) : Prop where
  last_eq : last = ds.getLast?
  epoch_le : ∀ d, last = some d → ∀ e ∈ ds, e.leaderEpoch ≤ d.leaderEpoch
  timestamp_le_iff : ∀ d, last = some d → ∀ x, d.commitTimestamp ≤ x ↔
    ∀ e ∈ ds, e.leaderEpoch = d.leaderEpoch → e.leader.createdAt ≤ x

variable {ds : List CommittedSubDag}

theorem Linked.snoc (h : Linked ds last) (hlink : Link last d last') :
    Linked (ds ++ [d]) last' := by
  obtain ⟨rfl, hfst, hfol⟩ := hlink
  have hbef : ∀ e ∈ ds, e.leaderEpoch ≤ d.leaderEpoch := by
    intro e he
    cases hl : last with
    | none =>
      rw [h.last_eq, List.getLast?_eq_none_iff] at hl
      subst hl
      cases he
    | some p => exact (h.epoch_le p hl e he).trans (hfol p hl).epoch_le
  refine ⟨by rw [List.getLast?_concat], ?_, ?_⟩
  · intro d' hd' e he
    cases hd'
    rcases mem_append.mp he with he | he
    · exact hbef e he
    · rw [mem_singleton.mp he]
  · intro d' hd' x
    cases hd'
    have hspl : (∀ e ∈ ds ++ [d], e.leaderEpoch = d.leaderEpoch → e.leader.createdAt ≤ x) ↔
        (∀ e ∈ ds, e.leaderEpoch = d.leaderEpoch → e.leader.createdAt ≤ x) ∧
          d.leader.createdAt ≤ x := by
      simp [or_imp, forall_and]
    rw [hspl]
    cases hl : last with
    | none =>
      have hnil : ds = [] := List.getLast?_eq_none_iff.mp (h.last_eq ▸ hl)
      rw [hfst hl, hnil]
      simp
    | some p =>
      have hf := hfol p hl
      rw [hf.timestamp, max_le_iff]
      apply and_congr_left
      intro _
      by_cases hsame : p.leaderEpoch = d.leaderEpoch
      · rw [if_pos hsame, h.timestamp_le_iff p hl, hsame]
      · -- the epoch of the new sub-dag has no earlier one
        rw [if_neg hsame]
        have hlt : p.leaderEpoch < d.leaderEpoch := lt_of_le_of_ne hf.epoch_le hsame
        constructor
        · intro _ e he heq
          have := h.epoch_le p hl e he
          omega
        · intro _
          omega

theorem linked_of_run (h : Trace.Run Link none ds last) : Linked ds last := by
  apply h.history (P := Linked)
  · exact ⟨rfl, by simp, by simp⟩
  · intro ds last d last' _ hp hstep
    exact hp.snoc hstep

theorem SessionChain.run [StdRng] (h : SessionChain ds) : ∃ last, Trace.Run Link none ds last := by
  induction h with
  | genesis => exact ⟨none, .nil none⟩
  | @session ds committee gcDepth num threshold storage anchor n events k _ hbs hep hsp ih =>
    obtain ⟨last, hrun⟩ := ih
    have hlast := (linked_of_run hrun).last_eq
    have hn := Consensus.spawn_spec hsp
    obtain ⟨n', hacts⟩ := Consensus.run_acts hn.ranked 0 events
    have hemitted := hacts.stamps hn.ranked (congrArg Committee.epoch hn.committee_eq) hn.epoch
    rw [← take_append_drop k (n.run 0 events).1] at hemitted
    obtain ⟨mid, hstd, -⟩ := hemitted.split
    rw [hn.latest, ConsensusBlocks.getLatestSubDag, hbs, ← hlast] at hstd
    obtain ⟨last', hlkd⟩ := run_link_of_stamp
      (fun p hp => hep p (mem_of_getLast? (hlast ▸ hp))) hstd
    exact ⟨last', hrun.append hlkd⟩

theorem committedAt_eq (h : d.leader.createdAt ≤ d.commitTimestamp) :
    d.committedAt = d.commitTimestamp := by
  unfold committedAt
  split <;> omega

def TimestampsMonotone (ds : List CommittedSubDag) : Prop :=
  ∀ before d d' after, ds = before ++ d :: d' :: after → d.committedAt ≤ d'.committedAt

def EpochStartsLater (ds : List CommittedSubDag) : Prop :=
  ∀ before d d' after, ds = before ++ d :: d' :: after → d.leaderEpoch < d'.leaderEpoch →
    ∀ e ∈ before ++ [d], e.leaderEpoch = d.leaderEpoch → e.leader.createdAt ≤ d'.leader.createdAt

theorem committedAt_le_iff {before after : List CommittedSubDag} {d' : CommittedSubDag}
    (h : Trace.Run Link none (before ++ d :: d' :: after) last) :
    d.committedAt ≤ d'.committedAt ↔ (d.leaderEpoch < d'.leaderEpoch →
      ∀ e ∈ before ++ [d], e.leaderEpoch = d.leaderEpoch →
        e.leader.createdAt ≤ d'.leader.createdAt) := by
  rw [append_cons] at h
  obtain ⟨mid, hpre, hpost⟩ := h.split
  have hlkd := linked_of_run hpre
  have hmid : mid = some d := by rw [hlkd.last_eq, List.getLast?_concat]
  cases hpost with
  | cons hstep _ =>
    have hf := hstep.follows d hmid
    have hstm := hlkd.timestamp_le_iff d hmid
    have hd := (hstm d.commitTimestamp).mp (le_refl _) d (by simp) rfl
    have hd' : d'.leader.createdAt ≤ d'.commitTimestamp := hf.timestamp ▸ le_max_right _ _
    have hep := hf.epoch_le
    rw [committedAt_eq hd, committedAt_eq hd', hf.timestamp]
    by_cases hsame : d.leaderEpoch = d'.leaderEpoch
    · rw [if_pos hsame]
      exact iff_of_true (le_max_left _ _) (fun hlt => by omega)
    · rw [if_neg hsame, hstm]
      exact ⟨fun hall _ => hall, fun hall => hall (by omega)⟩

/-- Commit timestamps never decrease exactly when every epoch starts with a leader that is
not older than the leaders of the epoch before. -/
theorem timestampsMonotone_iff [StdRng] {ds : List CommittedSubDag} (h : SessionChain ds) :
    TimestampsMonotone ds ↔ EpochStartsLater ds := by
  obtain ⟨last, hrun⟩ := h.run
  constructor
  · intro hmono before d d' after heq
    subst heq
    exact (committedAt_le_iff hrun).mp (hmono before d d' after rfl)
  · intro hstart before d d' after heq
    subst heq
    exact (committedAt_le_iff hrun).mpr (hstart before d d' after rfl)

def sessionCommits [StdRng] (epoch : Nat) (ds : List CommittedSubDag) (certs : List Certificate) :
    List CommittedSubDag :=
  match Consensus.spawn { fourAuthorities with epoch } 50 60 33 (.ofChain [] ds) .default with
  | .ok n => (n.run 0 (certs.map .certificate)).1
  | .error _ => []

theorem SessionChain.commits [StdRng] (h : SessionChain ds) (epoch : Nat) (certs : List Certificate)
    (hbs : (NodeStorage.ofChain [] ds).consensusBlocks.subDags = ds)
    (hep : ∀ d ∈ ds, d.leaderEpoch ≤ epoch) :
    SessionChain (ds ++ sessionCommits epoch ds certs) := by
  unfold sessionCommits
  split
  · rename_i n hsp
    have := SessionChain.session { fourAuthorities with epoch } 50 60 33 (.ofChain [] ds) .default
      (certs.map .certificate) (n.run 0 (certs.map .certificate)).1.length h hbs hep hsp
    rwa [take_length] at this
  · rwa [append_nil]

def roundsOfEpoch (epoch createdAt rounds : Nat) : List Certificate :=
  (fullRounds rounds).map fun c =>
    ⟨{ c.header with
      epoch, createdAt
      parents := c.parents.map (1000 * epoch + ·)
      digest := 1000 * epoch + c.digest }⟩

theorem timestampsMonotone_iff_restart :
    letI := StdRng.first
    let first := sessionCommits 0 [] (fullRounds 3)
    let second := sessionCommits 1 first (roundsOfEpoch 1 7 5)
    SessionChain (first ++ second) ∧
      (first ++ second).map committedAt = [2, 7, 7] ∧
      (TimestampsMonotone (first ++ second) ↔ EpochStartsLater (first ++ second)) := by
  let _ := StdRng.first
  intro first second
  have h0 : SessionChain first :=
    SessionChain.genesis.commits 0 (fullRounds 3) (by decide +kernel) (by simp)
  have h : SessionChain (first ++ second) :=
    h0.commits 1 (roundsOfEpoch 1 7 5) (by decide +kernel) (by decide +kernel)
  exact ⟨h, by decide +kernel, timestampsMonotone_iff h⟩

/-- The first epoch ends with a sub-dag stamped 2; the leader that starts the next epoch was
created at 1, and its sub-dag is stamped 1. -/
theorem timestamps_fall_at_epoch_start :
    letI := StdRng.first
    let first := sessionCommits 0 [] (fullRounds 3)
    let second := sessionCommits 1 first (roundsOfEpoch 1 1 3)
    SessionChain (first ++ second) ∧
      (first ++ second).map committedAt = [2, 1] ∧
      ¬ TimestampsMonotone (first ++ second) := by
  let _ := StdRng.first
  intro first second
  have h0 : SessionChain first :=
    SessionChain.genesis.commits 0 (fullRounds 3) (by decide +kernel) (by simp)
  have h : SessionChain (first ++ second) :=
    h0.commits 1 (roundsOfEpoch 1 1 3) (by decide +kernel) (by decide +kernel)
  have hstamps : (first ++ second).map committedAt = [2, 1] := by decide +kernel
  refine ⟨h, hstamps, fun hmono => ?_⟩
  obtain ⟨d, rest, hds, hd, hrest⟩ := map_eq_cons_iff.mp hstamps
  obtain ⟨d', rest', rfl, hd', hrest'⟩ := map_eq_cons_iff.mp hrest
  obtain rfl := map_eq_nil_iff.mp hrest'
  have := hmono [] d d' [] hds
  omega

end Axyl
