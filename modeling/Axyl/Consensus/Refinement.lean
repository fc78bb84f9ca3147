import Axyl.Consensus.OrderDagSpec
import Axyl.Consensus.Reputation

/-! The code follows the commit rule: from a sound node every commit succeeds, leaves
the node sound and is a run of the commit rule over the whole set of certificates. -/

namespace Axyl
open CertificateDag List Bullshark ConsensusState

namespace Consensus

variable {committee : Committee} (G : CertificateDag committee)

/-- The dag is sound above round `g`. Either that is the garbage collection round, or the
rounds up to `g` were pruned and no leader above the last commit reaches below `g`. -/
structure SoundAbove (g : Nat) (n : Consensus) : Prop where
  committee_eq : n.protocol.committee = committee
  threshold : n.protocol.badNodesStakeThreshold ≤ 33
  even : n.state.lastRound.committedRound % 2 = 0
  gcConsistent : n.state.GcConsistent
  dag : SoundDag G g n.state.dag
  gcRound_le : n.state.lastRound.gcRound ≤ g
  pruned : g ≤ n.state.lastRound.gcRound ∨
    (0 < n.state.gcDepth ∧ g + n.state.gcDepth ≤ n.state.lastRound.committedRound + 2)
  scores : ∀ d, n.state.lastCommittedSubDag = some d → d.reputationScore.Covers committee

abbrev Sound (n : Consensus) : Prop := n.SoundAbove G n.state.lastRound.gcRound

variable {G} {n : Consensus} {g : Nat}

section
variable (h : n.SoundAbove G g)
include h

theorem SoundAbove.le_committedRound : g ≤ n.state.lastRound.committedRound + 1 := by
  have hgc := h.gcConsistent
  have hprun := h.pruned
  unfold GcConsistent at hgc
  omega

variable {ds : List CommittedSubDag} {n' : Consensus} {table : RoundTable}
  {leader ldr : Certificate} {st : ConsensusState}

theorem SoundAbove.le_floor (habv : n.state.lastRound.committedRound < leader.round)
    (heven : leader.round % 2 = 0) : g ≤ (n.view h.even).floor leader := by
  have hk := h.even
  rcases h.pruned with hg | ⟨h0, hg⟩
  · exact hg.trans (floor_bounds h.even h.gcConsistent habv).1
  · rcases (n.view h.even).floor_cases leader with ⟨h0', -⟩ | ⟨-, hf⟩
    · change n.state.gcDepth = 0 at h0'
      omega
    · change _ = leader.round - n.state.gcDepth at hf
      omega

/-- Any later commit collects the rounds that were pruned before it. -/
theorem SoundAbove.le_gcRound (hgc' : st.GcConsistent) (hdep : st.gcDepth = n.state.gcDepth)
    (heven' : st.lastRound.committedRound % 2 = 0)
    (hlt : n.state.lastRound.committedRound < st.lastRound.committedRound) :
    g ≤ st.lastRound.gcRound := by
  have hgc := h.gcConsistent
  have hprun := h.pruned
  have heven := h.even
  unfold GcConsistent at hgc hgc'
  omega

/-- The watermarks of the commit rule are those the code keeps, less the collected rounds. -/
theorem SoundAbove.watermark_update {cs : List Certificate} (hup : n.state.Updated cs st)
    (a : Nat) :
    dropBelow st.lastRound.gcRound (st.lastCommitted[a]?.getD 0) =
      dropBelow (st.lastRound.committedRound - n.state.gcDepth)
        (max ((n.view h.even).watermark a) (lastRoundOf cs a)) := by
  have hle := hup.gcRound_le h.gcConsistent
  have hgc' := hup.gcConsistent
  unfold GcConsistent at hgc'
  rw [hup.gcDepth] at hgc'
  change _ = dropBelow _ (max (dropBelow n.state.lastRound.gcRound _) _)
  rw [← hgc', dropBelow_max hle, hup.lastCommitted]

end

/-- The voting power the code adds up belongs to distinct authors of the whole set. -/
theorem supported_of_support (hn : n.SoundAbove G g)
    (ht : n.state.dag[leader.round + 1]? = some table)
    (h : n.protocol.committee.validityThreshold ≤ n.protocol.support leader table) :
    G.Supported leader := by
  have htab := Dag.table_of_getElem? ht
  have hmem : ∀ c, c ∈ table.values ↔ n.state.dag.Holds c ∧ c.round = leader.round + 1 := by
    intro c
    rw [← htab]
    exact hn.dag.mem_values_iff
  let votes := table.values.filter fun c => leader.digest ∈ c.parents
  have hnd : (votes.map Certificate.origin).Nodup := (Dag.nodup_origins fun a c hac =>
      (hn.dag.mem (r := leader.round + 1) (a := a) (by rw [Dag.entry, htab]; exact hac)).2.2
      ).sublist (filter_sublist.map _)
  refine ⟨(votes.map Certificate.origin).toFinset, ?_, fun a ha => ?_⟩
  · rw [sum_toFinset _ hnd, map_map]
    unfold support at h
    rwa [hn.committee_eq] at h
  · obtain ⟨c, hc, rfl⟩ := mem_map.mp (mem_toFinset.mp ha)
    obtain ⟨hc, hp⟩ := mem_filter.mp hc
    obtain ⟨hheld, hrnd⟩ := (hmem c).mp hc
    exact ⟨c, (hn.dag.mem hheld).1, rfl, hrnd, by simpa using hp⟩

variable [StdRng]

variable (G) in
structure Commits (n : Consensus) (subDags : List CommittedSubDag) (n' : Consensus) : Prop where
  sound : n'.Sound G
  run : ∀ (h : n.state.lastRound.committedRound % 2 = 0)
    (h' : n'.state.lastRound.committedRound % 2 = 0),
    Trace.Run (View.Step G) (n.view h) subDags (n'.view h')
  gcDepth : n'.state.gcDepth = n.state.gcDepth
  committedRound_le : n.state.lastRound.committedRound ≤ n'.state.lastRound.committedRound
  dag : ∀ r, n'.state.lastRound.gcRound < r → n'.state.dag[r]? = n.state.dag[r]?

theorem Commits.gcRound_le (h1 : n.state.GcConsistent) (h : Commits G n ds n') :
    n.state.lastRound.gcRound ≤ n'.state.lastRound.gcRound := by
  have h2 := h.sound.gcConsistent
  have h3 := h.committedRound_le
  have h4 := h.gcDepth
  unfold GcConsistent at h1 h2
  omega

theorem Commits.trans {n'' : Consensus} {es : List CommittedSubDag}
    (h : Commits G n ds n') (h' : Commits G n' es n'') : Commits G n (ds ++ es) n'' where
  sound := h'.sound
  run := fun he he' => (h.run he h.sound.even).append (h'.run h.sound.even he')
  gcDepth := h'.gcDepth.trans h.gcDepth
  committedRound_le := h.committedRound_le.trans h'.committedRound_le
  dag := fun r hr => (h'.dag r hr).trans
    (h.dag r (lt_of_le_of_lt (h'.gcRound_le h.sound.gcConsistent) hr))

theorem Commits.holds (h : Commits G n ds n') {c : Certificate} (hc : n.state.dag.Holds c)
    (hr : n'.state.lastRound.gcRound < c.round) : n'.state.dag.Holds c := by
  rw [Dag.Holds, Dag.entry, Dag.table, h.dag _ hr]
  exact hc

section
variable (hn : n.SoundAbove G g)
include hn

theorem commitSubDag_spec (hl : n.state.dag.Holds ldr) (hnext : (n.view hn.even).NextLeader G ldr) :
    ∃ d n', n.commitSubDag ldr = .ok (d, d.reputationScore.finalOfSchedule, n') ∧
      Commits G n [d] n' ∧ n'.state.lastRound.committedRound = ldr.round ∧
        (d.reputationScore.finalOfSchedule = false → n'.protocol = n.protocol) := by
  obtain ⟨hat, habv, heven⟩ := hnext.mem
  have hfloor := hn.le_floor habv heven
  obtain ⟨cs, hcs, hsub⟩ :=
    orderDag_spec hn.even hn.gcConsistent habv hn.gcRound_le hfloor hn.dag hl
  have hup := ConsensusState.foldl_update_spec cs hn.gcConsistent
  have hsnd := ConsensusState.foldl_update_soundDag cs hn.gcConsistent hn.gcRound_le hn.dag
  set st := cs.foldl ConsensusState.update n.state with hstt
  -- every certificate of the sub-dag is at or below the leader
  have hcomm : st.lastRound.committedRound = ldr.round :=
    hup.committedRound_eq ((hsub.mem_iff ldr).mpr .refl) habv.le
      fun c hc => ((hsub.mem_iff c).mp hc).path.round_le
  have heven' : st.lastRound.committedRound % 2 = 0 := hcomm ▸ heven
  have hcol : g ≤ st.lastRound.gcRound :=
    hn.le_gcRound hup.gcConsistent hup.gcDepth heven' (hcomm ▸ habv)
  rw [max_eq_right hcol] at hsnd
  have hauthors : ∀ c ∈ cs, committee.IsAuthority c.origin := fun c hc =>
    G.author_mem c (((hsub.mem_iff c).mp hc).path.mem hat.1)
  have hcov := covers_nextScores hn.committee_eq st.lastCommittedSubDag
    (by rw [hup.lastCommittedSubDag]; exact hn.scores) hauthors ldr.nonce
  have hsc := resolveReputationScore_eq hn.committee_eq hcov
  set scores := n.protocol.nextScores st.lastCommittedSubDag cs ldr.nonce with hscores
  obtain ⟨table, htab, hsame⟩ := updateLeaderSchedule_ok hn.committee_eq hn.threshold hcov ldr.round
  let d := CommittedSubDag.new cs ldr scores st.lastCommittedSubDag
  let protocol : Bullshark := { n.protocol with
    leaderSchedule := n.protocol.leaderSchedule.updateLeaderSwapTable table }
  let n' : Consensus := ⟨protocol, { st with lastCommittedSubDag := some d }⟩
  have hstep : View.Step G (n.view hn.even) d (n'.view heven') := by
    refine ⟨hnext, hsub, ?_, ⟨_, htab⟩, hup.gcDepth, hcomm, ?_, rfl⟩
    · simp only [d, CommittedSubDag.new, scores, hup.lastCommittedSubDag, Consensus.view]
    · funext a
      have hw := hn.watermark_update hup a
      rwa [hcomm] at hw
  refine ⟨d, n', ?_, ⟨⟨hn.committee_eq, hn.threshold, heven', hup.gcConsistent, hsnd, le_refl _,
    .inl (le_refl _), ?_⟩, fun _ _ => .cons hstep (.nil _), hup.gcDepth, hcomm ▸ habv.le, hup.dag⟩,
    hcomm, ?_⟩
  · simp only [commitSubDag, hcs, bind, Except.bind, ← hstt, hsc, htab, pure, Except.pure]
    rfl
  · intro d' hd'
    cases hd'
    exact hcov
  · intro hf
    simp only [n', protocol, hsame hf]
    rfl

theorem commitLeaders_spec {anchor : Certificate} {leaders : List Certificate}
    (ha : (n.view hn.even).Anchor G anchor) (hd : n.state.dag.Holds anchor)
    (hldrs : G.leaderChain n.protocol.leaderSchedule n.state.lastRound.committedRound anchor =
      leaders) : ∃ o ds n', n.commitLeaders leaders = .ok (o, ds, n') ∧ Commits G n ds n' ∧
      n.state.lastRound.committedRound < n'.state.lastRound.committedRound ∧
        (o = .scheduleChanged → n'.state.lastRound.committedRound < anchor.round) := by
  induction leaders generalizing n g with
  | nil => exact absurd hldrs (leaderChain_ne_nil _ _)
  | cons leader rest ih =>
    have hnext : (n.view hn.even).NextLeader G leader := ⟨anchor, ha, congrArg head? hldrs⟩
    have habv : n.state.lastRound.committedRound < leader.round := hnext.mem.2.1
    have hle := hn.le_committedRound
    have hk := hn.even
    have hleven := hnext.mem.2.2
    have haeven := ha.even
    have hspec := leaderChain_spec _ hldrs
    have hl : n.state.dag.Holds leader := by
      rcases hspec with ⟨rfl, -⟩ | ⟨-, -, hpath, -⟩
      · exact hd
      · exact hn.dag.holds_of_path hd hpath (by omega)
    have hbel : rest ≠ [] → leader.round < anchor.round := by
      intro hne
      rcases hspec with ⟨-, rfl⟩ | ⟨hr, -, -, -⟩
      · exact absurd rfl hne
      · have := mem_leaderRounds hr
        omega
    obtain ⟨d, n₁, hcmt, hc, hrnd, hsame⟩ := commitSubDag_spec hn hl hnext
    rw [commitLeaders, hcmt]
    simp only [bind, Except.bind]
    by_cases hstop : d.reputationScore.finalOfSchedule = true ∧ rest ≠ []
    · rw [if_pos hstop]
      exact ⟨.scheduleChanged, [d], n₁, rfl, hc, by omega, fun _ => hrnd ▸ hbel hstop.2⟩
    · rw [if_neg hstop]
      by_cases hrest : rest = []
      · subst hrest
        exact ⟨.commit, [d], n₁, rfl, hc, by omega, by simp⟩
      · have hprot : n₁.protocol = n.protocol := hsame (by simpa [hrest] using hstop)
        have hlt := hbel hrest
        have hgc₁ := hc.sound.le_committedRound
        have ha₁ : (n₁.view hc.sound.even).Anchor G anchor :=
          ⟨by simpa only [Consensus.view, hprot] using ha.leader, ha.supported, ha.even,
            by simpa only [Consensus.view, hrnd] using hlt⟩
        have hch : G.leaderChain n₁.protocol.leaderSchedule
            n₁.state.lastRound.committedRound anchor = rest := by
          rw [hprot, hrnd]
          exact leaderChain_tail hldrs hrest
        obtain ⟨o, ds, n₂, hrec, hc₂, hlt₂, hsched⟩ := ih hc.sound ha₁ (hc.holds hd (by omega)) hch
        rw [hrec]
        exact ⟨o, d :: ds, n₂, rfl, hc.trans hc₂, by omega, hsched⟩

theorem orderLeaders_eq (hl : n.state.dag.Holds ldr) (heven : ldr.round % 2 = 0)
    (h2 : 2 ≤ ldr.round) :
    n.protocol.orderLeaders ldr n.state = .ok (G.leaderChain n.protocol.leaderSchedule
      n.state.lastRound.committedRound ldr) := by
  have hle := hn.le_committedRound
  have hloop := hn.dag.orderLeadersLoop_eq (s := n.protocol.leaderSchedule) [] hl
    (pairwise_leaderRounds n.state.lastRound.committedRound ldr.round) (fun r hr => by
      have := mem_leaderRounds hr
      omega)
  have hall : (G.leaderChain n.protocol.leaderSchedule n.state.lastRound.committedRound ldr).all
      fun c => (n.protocol.committee.authority c.origin).isSome := by
    refine all_eq_true.mpr fun c hc => ?_
    rw [Committee.authority_isSome_iff, hn.committee_eq]
    exact G.author_mem c (mem_leaderChain (hn.dag.mem hl).1 hc)
  rw [orderLeaders, if_neg (by omega), if_neg (by omega), hloop]
  exact if_pos hall

theorem commitLeader_spec {L : Nat} (heven : L % 2 = 0)
    (habv : n.state.lastRound.committedRound < L) (ht : n.state.dag[L + 1]? = some table) :
    ∃ o ds n', n.commitLeader L = .ok (o, ds, n') ∧ ((o ≠ .scheduleChanged ∧ ds = [] ∧ n' = n) ∨
        (Commits G n ds n' ∧ n.state.lastRound.committedRound < n'.state.lastRound.committedRound ∧
            (o = .scheduleChanged → n'.state.lastRound.committedRound < L))) := by
  unfold commitLeader
  rw [SoundDag.leaderCertificate_eq heven]
  simp only [bind, Except.bind]
  cases he : n.state.dag.entry L (n.protocol.leaderSchedule.elected L).id with
  | none => exact ⟨.leaderNotFound, [], n, rfl, .inl ⟨by simp, rfl, rfl⟩⟩
  | some leader =>
    obtain ⟨hat, hheld⟩ := hn.dag.leaderAt_of_entry he
    obtain rfl := hat.2.1
    simp only [ht]
    by_cases hsup : n.protocol.support leader table < n.protocol.committee.validityThreshold
    · rw [if_pos hsup]
      exact ⟨.notEnoughSupportForLeader, [], n, rfl, .inl ⟨by simp, rfl, rfl⟩⟩
    · rw [if_neg hsup, orderLeaders_eq hn hheld heven (by omega)]
      have ha : (n.view hn.even).Anchor G leader :=
        ⟨hat, supported_of_support hn ht (by omega), heven, habv⟩
      obtain ⟨o, ds, n', hrun, hc, hlt, hsched⟩ := commitLeaders_spec hn ha hheld rfl
      exact ⟨o, ds, n', hrun, .inr ⟨hc, hlt, hsched⟩⟩

/-- A retry leaves two rounds fewer to the round of the leader. -/
theorem commitLoop_spec (L fuel : Nat) (heven : L % 2 = 0)
    (habv : n.state.lastRound.committedRound < L)
    (hfuel : L ≤ n.state.lastRound.committedRound + 2 * fuel)
    (ht : n.state.dag[L + 1]? = some table) : ∃ o ds n', commitLoop L fuel n = .ok (o, ds, n') ∧
      ((ds = [] ∧ n' = n) ∨ (Commits G n ds n' ∧
          n.state.lastRound.committedRound < n'.state.lastRound.committedRound)) := by
  induction fuel generalizing n g with
  | zero => omega
  | succ fuel ih =>
    obtain ⟨o, ds, n₁, hrun, hcas⟩ := commitLeader_spec hn heven habv ht
    rw [commitLoop, hrun]
    simp only [bind, Except.bind]
    rcases hcas with ⟨ho, hnone⟩ | ⟨hc, hlt, hsched⟩
    · rw [if_neg ho]
      exact ⟨o, ds, n₁, rfl, .inl hnone⟩
    by_cases ho : o = .scheduleChanged
    · have hbel := hsched ho
      have hle := hc.sound.le_committedRound
      have hk₁ := hc.sound.even
      obtain ⟨o', es, n₂, hrec, hc₂⟩ := ih hc.sound hbel (by omega)
        ((hc.dag (L + 1) (by omega)).trans ht)
      rw [if_pos ho, hrec]
      refine ⟨o', ds ++ es, n₂, rfl, .inr ?_⟩
      rcases hc₂ with ⟨rfl, rfl⟩ | ⟨hc₂, hlt₂⟩
      · exact ⟨by rwa [append_nil], hlt⟩
      · exact ⟨hc.trans hc₂, by omega⟩
    · rw [if_neg ho]
      exact ⟨o, ds, n₁, rfl, .inr ⟨hc, hlt⟩⟩

end

theorem Commits.pruned_le (h : Commits G n ds n') (hn : n.SoundAbove G g)
    (hlt : n.state.lastRound.committedRound < n'.state.lastRound.committedRound) :
    g ≤ n'.state.lastRound.gcRound :=
  hn.le_gcRound h.sound.gcConsistent h.gcDepth h.sound.even hlt

end Consensus

end Axyl
