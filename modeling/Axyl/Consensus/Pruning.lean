import Axyl.Consensus.Agreement

/-! Proactive pruning by the highest round seen. It can cut into rounds that the next
commit still reaches, so that nodes commit different sub-dags depending on their timers.
Ticks that stay within two rounds of the last commit are harmless. -/

namespace Axyl

namespace Consensus

variable [StdRng]

def certificatesOf (events : List Event) : List Certificate :=
  events.filterMap fun
    | .certificate c => some c
    | .gcTick => none

def withoutTicks (events : List Event) : List Event := events.filter (· ≠ .gcTick)

def prunedBy (n : Consensus) (highestSeenRound : Nat) : Nat :=
  if highestSeenRound - n.state.gcDepth ≤ n.state.lastRound.gcRound then 0
  else highestSeenRound - n.state.gcDepth

/-- Along the run, a tick that prunes has a positive depth and a highest seen round at most
two above the last commit, and once rounds up to `pruned` are gone no certificate arrives
that is at most one round above them and not collected already. -/
def pruningSafe (highestSeenRound pruned : Nat) (n : Consensus) : List Event → Bool
  | [] => true
  | .gcTick :: events =>
    decide (n.prunedBy highestSeenRound = 0 ∨
      (0 < n.state.gcDepth ∧ highestSeenRound ≤ n.state.lastRound.committedRound + 2)) &&
    pruningSafe highestSeenRound (max pruned (n.prunedBy highestSeenRound))
      (n.proactiveGc highestSeenRound) events
  | .certificate c :: events =>
    decide (c.round ≤ n.state.lastRound.gcRound ∨ pruned ≤ n.state.lastRound.gcRound ∨
      pruned + 1 < c.round) &&
    match n.newCertificate c with
    | .ok (.ok _, n') => pruningSafe (max highestSeenRound c.round) pruned n' events
    | _ => true

theorem pruningSafe_withoutTicks (highestSeenRound : Nat) (n : Consensus) (events : List Event) :
    n.pruningSafe highestSeenRound 0 (withoutTicks events) := by
  induction events generalizing highestSeenRound n with
  | nil => rfl
  | cons event events ih =>
    cases event with
    | gcTick => exact ih highestSeenRound n
    | certificate c =>
      apply Bool.and_eq_true_iff.mpr
      refine ⟨by simp, ?_⟩
      split
      · exact ih _ _
      · rfl

omit [StdRng] in
theorem certificatesOf_withoutTicks (events : List Event) :
    certificatesOf (withoutTicks events) = certificatesOf events := by
  induction events with
  | nil => rfl
  | cons event events ih =>
    cases event with
    | gcTick => exact ih
    | certificate c => exact congrArg (c :: ·) ih

variable {committee : Committee} {G : CertificateDag committee} {n : Consensus}

omit [StdRng] in
theorem proactiveGc_cases (n : Consensus) (highestSeenRound : Nat) :
    (n.prunedBy highestSeenRound = 0 ∧ n.proactiveGc highestSeenRound = n) ∨
      (n.state.lastRound.gcRound < n.prunedBy highestSeenRound ∧
        n.prunedBy highestSeenRound = highestSeenRound - n.state.gcDepth ∧
        n.proactiveGc highestSeenRound = { n with state := { n.state with
          dag := n.state.dag.filter fun r _ => n.prunedBy highestSeenRound < r } }) := by
  unfold prunedBy proactiveGc ConsensusState.proactiveGc
  by_cases hp : highestSeenRound - n.state.gcDepth ≤ n.state.lastRound.gcRound
  · simp [hp]
  · right
    have h1 : ¬ highestSeenRound ≤ n.state.gcDepth := by omega
    have h2 : 0 < highestSeenRound := by omega
    simp only [if_neg hp, if_neg h1, if_pos h2]
    exact ⟨by omega, trivial, trivial⟩

variable {high : Nat}

omit [StdRng] in
/-- A tick within two rounds of the last commit leaves the node sound above what it prunes. -/
theorem soundAbove_proactiveGc {pruned : Nat}
    (hn : n.SoundAbove G (max pruned n.state.lastRound.gcRound)) (hsafe : n.prunedBy high = 0 ∨
      (0 < n.state.gcDepth ∧ high ≤ n.state.lastRound.committedRound + 2)) :
    (n.proactiveGc high).SoundAbove G
      (max (max pruned (n.prunedBy high)) n.state.lastRound.gcRound) := by
  rcases proactiveGc_cases n high with ⟨h0, heq⟩ | ⟨hlt, hp, heq⟩
  · rw [heq, h0, max_eq_left (Nat.zero_le pruned)]
    exact hn
  · have hmax : max (max pruned (n.prunedBy high)) n.state.lastRound.gcRound =
        max (max pruned n.state.lastRound.gcRound) (n.prunedBy high) := by omega
    have hdag := hn.dag.filter_lt (n.prunedBy high)
    have hprun := hn.pruned
    rw [heq, hmax]
    refine { hn with dag := hdag, gcRound_le := by simp only; omega, pruned := .inr ?_ }
    simp only
    omega

omit [StdRng] in
theorem holds_proactiveGc {d : Certificate} (hd : n.state.dag.Holds d)
    (hr : n.prunedBy high < d.round) : (n.proactiveGc high).state.dag.Holds d := by
  rcases proactiveGc_cases n high with ⟨-, heq⟩ | ⟨-, -, heq⟩
  · rwa [heq]
  · rw [heq, Dag.Holds, Dag.entry_filter_lt, if_pos hr]
    exact hd

omit [StdRng] in
theorem proactiveGc_view (high : Nat) (h : n.state.lastRound.committedRound % 2 = 0)
    (h' : (n.proactiveGc high).state.lastRound.committedRound % 2 = 0) :
    (n.proactiveGc high).view h' = n.view h ∧
      (n.proactiveGc high).state.lastRound = n.state.lastRound ∧
        (n.proactiveGc high).protocol = n.protocol := by
  rcases proactiveGc_cases n high with ⟨-, heq⟩ | ⟨-, -, heq⟩
  · simp only [heq, and_self]
  · simp only [heq, Consensus.view, and_self]

/-- A safe run of a node that is sound above the pruned rounds does not fail and follows
the commit rule. What was delivered is held above the pruned and the collected rounds. -/
theorem run_of_pruningSafe {pruned : Nat} {before : List Certificate}
    {events : List Event} (hn : n.SoundAbove G (max pruned n.state.lastRound.gcRound))
    (hb : G.epoch = n.protocol.committee.epoch → ∀ d ∈ before,
      max pruned n.state.lastRound.gcRound < d.round → n.state.dag.Holds d)
    (hcaus : G.CausalFrom before (certificatesOf events))
    (hsafe : n.pruningSafe high pruned events) :
    ∃ n' : Consensus, ∃ h' : n'.state.lastRound.committedRound % 2 = 0,
      Trace.Run (View.Step G) (n.view hn.even) (run high n events).1 (n'.view h') ∧
        (run high n events).2 = .ok n' := by
  induction events generalizing high pruned before n with
  | nil => exact ⟨n, hn.even, .nil _, rfl⟩
  | cons event events ih =>
    cases event with
    | gcTick =>
      obtain ⟨htick, hsafe⟩ := Bool.and_eq_true_iff.mp hsafe
      replace htick := of_decide_eq_true htick
      have hsnd := soundAbove_proactiveGc hn htick
      obtain ⟨hview, hrnd, hprot⟩ := proactiveGc_view high hn.even hsnd.even
      rw [← hrnd] at hsnd
      obtain ⟨n', h', hrun, hlast⟩ := ih hsnd (fun he d hd hr => by
        rw [hrnd] at hr
        rw [hprot] at he
        exact holds_proactiveGc (hb he d hd (by omega)) (by omega)) hcaus hsafe
      rw [hview] at hrun
      exact ⟨n', h', hrun, hlast⟩
    | certificate c =>
      obtain ⟨hc, hpars, hcaus⟩ := hcaus
      obtain ⟨hlate, hsafe⟩ := Bool.and_eq_true_iff.mp hsafe
      replace hlate := of_decide_eq_true hlate
      rw [newCertificate] at hsafe
      rw [run, newCertificate]
      by_cases he : c.epoch = n.protocol.committee.epoch
      · rw [if_pos he] at hsafe ⊢
        have hep : G.epoch = n.protocol.committee.epoch := (G.epoch_eq c hc).symm.trans he
        rcases processCertificate_spec hn hc (by omega) with ⟨e, herr, -⟩ | ⟨o, ds, n₁, heq, hproc⟩
        · -- the parents are above the pruned rounds, so they are held
          rw [hn.dag.checkParents_of_holds hc fun p hp hr => by
            have := hp.2.2
            exact hb hep p (hpars p hp) (by omega)] at herr
          cases herr
        · rw [heq] at hsafe ⊢
          have hle := hproc.gcRound_le
          have hsnd := hproc.sound
          rw [max_assoc, max_eq_right hle] at hsnd
          obtain ⟨n', h', hrun, hlast⟩ := ih hsnd (fun _ => List.forall_mem_cons.mpr
              ⟨fun hr => hproc.holds c (.inl rfl) (by omega), fun d hd hr =>
                hproc.holds d (.inr (hb hep d hd (by omega))) (by omega)⟩) hcaus hsafe
          exact ⟨n', h', (hproc.run hn.even hsnd.even).append hrun, hlast⟩
      · rw [if_neg he] at hsafe ⊢
        have hep : ¬ G.epoch = n.protocol.committee.epoch := fun h => he ((G.epoch_eq c hc).trans h)
        exact ih hn (fun h => absurd h hep) hcaus hsafe

/-- As long as no tick looks further than two rounds past the last commit and no
certificate arrives late, pruning neither makes a call fail nor changes the order. -/
theorem run_comparable_of_pruningSafe (G : CertificateDag committee)
    (gcDepth numSubDagsPerSchedule : Nat) {threshold : Nat} (ht : threshold ≤ 33)
    (table : LeaderSwapTable) {events : List Event} (hcausal : G.Causal (certificatesOf events))
    (hsafe : (new committee gcDepth numSubDagsPerSchedule threshold table).pruningSafe 0 0 events) :
    (∃ m, (run 0 (new committee gcDepth numSubDagsPerSchedule threshold table) events).2 = .ok m) ∧
    Trace.Comparable
      (run 0 (new committee gcDepth numSubDagsPerSchedule threshold table) events).1
      (run 0 (new committee gcDepth numSubDagsPerSchedule threshold table)
        (withoutTicks events)).1 := by
  have hn := new_sound G gcDepth numSubDagsPerSchedule ht table
  rw [Sound, ← Nat.zero_max (Consensus.state _).lastRound.gcRound] at hn
  obtain ⟨m, _, hrun, hlast⟩ := run_of_pruningSafe hn
    (fun _ d hd => absurd hd (by simp)) hcausal hsafe
  rw [← certificatesOf_withoutTicks] at hcausal
  obtain ⟨_, _, hrun', -⟩ := run_of_pruningSafe hn
    (fun _ d hd => absurd hd (by simp)) hcausal (pruningSafe_withoutTicks 0 _ events)
  exact ⟨⟨m, hlast⟩, hrun.comparable View.step_deterministic hrun'⟩

omit [StdRng] in
/-- The tick after round three prunes round one, which no later commit reaches. -/
theorem run_comparable_of_pruningSafe_fullRounds :
    letI := StdRng.first
    let n := new fourAuthorities 2 50 33 .default
    let events := (fullRounds 3).map .certificate ++
      .gcTick :: ((fullRounds 5).drop 12).map .certificate
    n.pruningSafe 0 0 events ∧ (∃ m, (run 0 n events).2 = .ok m) ∧
      Trace.Comparable (run 0 n events).1 (run 0 n (withoutTicks events)).1 ∧
        (run 0 n events).1.map (fun d => d.leader.digest) = [20, 41] := by
  let _ := StdRng.first
  let G := CertificateDag.ofList fourAuthorities 0 (fullRounds 5) (by decide +kernel)
  have hcausal : G.Causal (certificatesOf ((fullRounds 3).map .certificate ++
      .gcTick :: ((fullRounds 5).drop 12).map .certificate)) :=
    CertificateDag.causalFrom_ofList (by decide +kernel)
  have hsafe : (new fourAuthorities 2 50 33 .default).pruningSafe 0 0
      ((fullRounds 3).map .certificate ++
        .gcTick :: ((fullRounds 5).drop 12).map .certificate) := by decide +kernel
  obtain ⟨hok, hcomp⟩ := run_comparable_of_pruningSafe G 2 50 (by decide : 33 ≤ 33) .default
    hcausal hsafe
  exact ⟨hsafe, hok, hcomp, by decide +kernel⟩

omit [StdRng] in
/-- A tick after round four prunes the leader of round two, which is then never committed.
A certificate of round three that arrives after the tick is rejected. -/
theorem run_pruning_diverges :
    letI := StdRng.first
    let n := new fourAuthorities 2 50 33 .default
    let ticked := (weakLeaderRounds.take 16).map Event.certificate ++
      .gcTick :: (weakLeaderRounds.drop 16).map Event.certificate
    let overtaken := (weakLeaderRounds.take 11 ++ (weakLeaderRounds.drop 12).take 4).map
      Event.certificate ++ [.gcTick, .certificate (certificateOf 3 3 [1, 2, 3])]
    ∃ G : CertificateDag fourAuthorities,
      G.Causal (certificatesOf ticked) ∧
      (run 0 n ticked).1.map (fun d => d.leader.digest) = [41] ∧
      (run 0 n (withoutTicks ticked)).1.map (fun d => d.leader.digest) = [20, 41] ∧
      ¬ Trace.Comparable (run 0 n ticked).1 (run 0 n (withoutTicks ticked)).1 ∧
      G.Causal (certificatesOf overtaken) ∧
      (run 0 n overtaken).2 =
        .error (.error (.missingParentRound (certificateOf 3 3 [1, 2, 3]))) ∧
      (run 0 n (withoutTicks overtaken)).2.isOk := by
  let _ := StdRng.first
  exact ⟨CertificateDag.ofList fourAuthorities 0 weakLeaderRounds (by decide +kernel),
    CertificateDag.causalFrom_ofList (by decide +kernel), by decide +kernel, by decide +kernel,
    by decide +kernel, CertificateDag.causalFrom_ofList (by decide +kernel), by decide +kernel,
    by decide +kernel⟩

end Consensus

end Axyl
