import Axyl.Consensus.Refinement

/-! Agreement: two nodes that receive certificates of one epoch in any two causal orders
never fail and commit comparable lists of sub-dags. A certificate that is rejected for a missing
parent leaves the node as it was; an equivocation takes the place of what it is compared with. -/

namespace Axyl
open ConsensusState CertificateDag Fallible

namespace Consensus

variable [StdRng] {committee : Committee} {G : CertificateDag committee} {n : Consensus} {g : Nat}

variable (G) in
/-- The node after one certificate has been accepted and what it lets commit is committed. -/
structure Processed (g : Nat) (n : Consensus) (c : Certificate)
    (subDags : List CommittedSubDag) (n' : Consensus) : Prop where
  sound : n'.SoundAbove G (max g n'.state.lastRound.gcRound)
  run : ∀ (h : n.state.lastRound.committedRound % 2 = 0)
    (h' : n'.state.lastRound.committedRound % 2 = 0),
    Trace.Run (View.Step G) (n.view h) subDags (n'.view h')
  gcRound_le : n.state.lastRound.gcRound ≤ n'.state.lastRound.gcRound
  holds : ∀ d, d = c ∨ n.state.dag.Holds d → max g n'.state.lastRound.gcRound < d.round →
    n'.state.dag.Holds d

def inserted (n : Consensus) (c : Certificate) : Consensus :=
  { n with state := { n.state with dag := insertCertificate n.state.dag c } }

variable {c : Certificate}

omit [StdRng] in
theorem SoundAbove.inserted (hn : n.SoundAbove G g) (hc : c ∈ G.certs) (hr : g < c.round)
    (hp : checkParents c n.state.dag n.state.lastRound.gcRound = .ok ()) :
    (n.inserted c).SoundAbove G g :=
  { hn with dag := hn.dag.insert hc hr hn.gcRound_le hp }

variable {n' : Consensus} {ds : List CommittedSubDag}

theorem Commits.processed (h : Commits G (n.inserted c) ds n') (hn : (n.inserted c).SoundAbove G g)
    (hlt : n.state.lastRound.committedRound < n'.state.lastRound.committedRound)
    (hhold : ∀ d, d = c ∨ n.state.dag.Holds d → (n.inserted c).state.dag.Holds d) :
    Processed G g n c ds n' where
  sound := by rw [max_eq_right (h.pruned_le hn hlt)]; exact h.sound
  run := h.run
  gcRound_le := Commits.gcRound_le (n := n.inserted c) hn.gcConsistent h
  holds := fun d hd hdr => h.holds (hhold d hd) (lt_of_le_of_lt (le_max_right _ _) hdr)

theorem commitLoop_mono {L fuel fuel' : Nat} (hle : fuel ≤ fuel')
    {x : Outcome × List CommittedSubDag × Consensus} (h : commitLoop L fuel n = .ok x) :
    commitLoop L fuel' n = .ok x := by
  induction fuel generalizing n fuel' x with
  | zero => cases h
  | succ fuel ih =>
    obtain ⟨fuel', rfl⟩ : ∃ f, fuel' = f + 1 := ⟨fuel' - 1, by omega⟩
    obtain ⟨⟨o, ds, n₁⟩, hcmt, h⟩ := bind_eq_ok.mp h
    refine bind_eq_ok.mpr ⟨_, hcmt, ?_⟩
    dsimp only at h ⊢
    split at h
    · next hchd =>
      obtain ⟨y, hrest, h⟩ := bind_eq_ok.mp h
      rw [if_pos hchd]
      exact bind_eq_ok.mpr ⟨y, ih (by omega) hrest, h⟩
    · next hchd =>
      rw [if_neg hchd]
      exact h

/-- The loop of `process_certificate` ends after as many iterations as there are leader rounds
between the last commit and the leader of the certificate. -/
theorem processCertificate_loop (hn : n.SoundAbove G g) (hc : c ∈ G.certs) (hcr : g < c.round)
    (hodd : (c.round - 1) % 2 = 0) (habv : n.state.lastRound.committedRound < c.round - 1)
    (hp : checkParents c n.state.dag n.state.lastRound.gcRound = .ok ())
    (hins : n.state.tryInsert c = (.ok true, (n.inserted c).state)) :
    ∃ o ds n', commitLoop (c.round - 1) ((c.round - 1 - n.state.lastRound.committedRound) / 2)
        (n.inserted c) = .ok (o, ds, n') ∧
      n.processCertificate c = .ok (.ok (if ds = [] then o else .commit, ds), n') ∧
      ((ds = [] ∧ n' = n.inserted c) ∨ (Commits G (n.inserted c) ds n' ∧
        n.state.lastRound.committedRound < n'.state.lastRound.committedRound)) := by
  have heven := hn.even
  have hhold := (hn.dag.holds_insert_iff hc).mpr (.inl rfl)
  obtain ⟨table, ht⟩ := Dag.exists_table_of_entry hhold
  obtain ⟨o, ds, n', hrun, hcmt⟩ := commitLoop_spec (hn.inserted hc hcr hp) (c.round - 1)
    ((c.round - 1 - n.state.lastRound.committedRound) / 2) hodd habv
    (by change c.round - 1 ≤ n.state.lastRound.committedRound + _; omega)
    (by rw [show c.round - 1 + 1 = c.round by omega]; exact ht)
  refine ⟨o, ds, n', hrun, ?_, hcmt⟩
  simp only [processCertificate, hins]
  rw [if_neg (by omega), if_neg (by omega)]
  refine (if_neg (Nat.not_le.mpr habv)).trans ?_
  exact bind_eq_ok.mpr ⟨_, commitLoop_mono (by omega) hrun, rfl⟩

theorem processCertificate_spec (hn : n.SoundAbove G g) (hc : c ∈ G.certs)
    (hcr : c.round ≤ n.state.lastRound.gcRound ∨ g < c.round) :
    (∃ e, checkParents c n.state.dag n.state.lastRound.gcRound = .error e ∧
      n.processCertificate c = .ok (.error e, n)) ∨
    ∃ o ds n', n.processCertificate c = .ok (.ok (o, ds), n') ∧ Processed G g n c ds n' := by
  have hmax : max g n.state.lastRound.gcRound = g := max_eq_left hn.gcRound_le
  unfold processCertificate tryInsert
  rcases tryInsertInDag_cases n.state.dag n.state.lastCommitted
    n.state.lastRound.gcRound c with ⟨hr, heq⟩ | ⟨hr, e, he, heq⟩ | ⟨hr, -, d, hd, hne, -⟩ |
      ⟨hr, hp, -, heq⟩
  · refine .inr ⟨.certificateBelowCommitRound, [], n, by simp only [heq], by rwa [hmax],
      fun _ _ => .nil _, le_refl _, ?_⟩
    intro d hd hdr
    rcases hd with rfl | hd
    · omega
    · exact hd
  · exact .inl ⟨e, he, by simp only [heq]⟩
  · -- two certificates of the set in one slot are one certificate
    obtain ⟨hdm, hdr, hdo⟩ := hn.dag.mem hd
    exact absurd (congrArg _ (G.unique d hdm c hc hdo hdr)) hne
  · right
    have hins := hn.inserted hc (hcr.resolve_left (by omega)) hp
    have hhold : ∀ d, d = c ∨ n.state.dag.Holds d → (n.inserted c).state.dag.Holds d :=
      fun d hd => (hn.dag.holds_insert_iff hc).mpr hd
    -- the outcomes that commit nothing
    have hstay : Processed G g n c [] (n.inserted c) :=
      ⟨by change SoundAbove G (max g n.state.lastRound.gcRound) _; rwa [hmax],
        fun _ _ => .nil _, le_refl _, fun d hd _ => hhold d hd⟩
    by_cases hloop : n.state.lastCommitted[c.origin]?.getD 0 < c.round ∧
        (c.round - 1) % 2 = 0 ∧ n.state.lastRound.committedRound < c.round - 1
    · obtain ⟨hlast, hodd, habv⟩ := hloop
      have htrue : n.state.tryInsert c = (.ok true, (n.inserted c).state) := by
        simp only [tryInsert, heq, hlast, decide_true]
        rfl
      obtain ⟨o, ds, n', -, hrun, hcmt⟩ := processCertificate_loop hn hc
        (hcr.resolve_left (by omega)) hodd habv hp htrue
      refine ⟨_, ds, n', hrun, ?_⟩
      rcases hcmt with ⟨rfl, rfl⟩ | ⟨hcmt, hlt⟩
      · exact hstay
      · exact hcmt.processed hins hlt hhold
    · simp only [heq]
      split
      · rename_i hf
        cases hf
      · exact ⟨_, _, _, rfl, hstay⟩
      · rename_i htrue
        rw [if_neg (by omega)]
        split
        · exact ⟨_, _, _, rfl, hstay⟩
        split
        · exact ⟨_, _, _, rfl, hstay⟩
        · have hlast := of_decide_eq_true (Except.ok.inj htrue)
          exact absurd ⟨hlast, by omega, by omega⟩ hloop

theorem Processed.sound_of_sound
    (h : Processed G n.state.lastRound.gcRound n c ds n') : n'.Sound G := by
  have hs := h.sound
  rwa [max_eq_right h.gcRound_le] at hs

omit [StdRng] in
theorem new_sound (G : CertificateDag committee) (gcDepth numSubDagsPerSchedule : Nat)
    {threshold : Nat} (ht : threshold ≤ 33) (table : LeaderSwapTable) :
    (new committee gcDepth numSubDagsPerSchedule threshold table).Sound G where
  committee_eq := rfl
  threshold := ht
  even := rfl
  gcConsistent := (Nat.zero_sub gcDepth).symm
  dag := SoundDag.empty G 0
  gcRound_le := le_refl _
  pruned := .inl (le_refl _)
  scores := by simp [new, ConsensusState.new]

variable {cs : List Certificate}

theorem deliver_run (hn : n.Sound G) (hcs : ∀ c ∈ cs, c ∈ G.certs) :
    ∃ n' : Consensus, ∃ h' : n'.Sound G,
      Trace.Run (View.Step G) (n.view hn.even) (n.deliver cs).1 (n'.view h'.even) := by
  induction cs generalizing n with
  | nil => exact ⟨n, hn, .nil _⟩
  | cons c cs ih =>
    obtain ⟨hc, hcs⟩ := List.forall_mem_cons.mp hcs
    rcases processCertificate_spec hn hc (le_or_gt _ _) with ⟨e, -, heq⟩ | ⟨o, ds, n₁, heq, hproc⟩
    · simp only [deliver, heq]
      exact ⟨n, hn, .nil _⟩
    · obtain ⟨n', h', hrun⟩ := ih hproc.sound_of_sound hcs
      simp only [deliver, heq]
      exact ⟨n', h', (hproc.run hn.even hproc.sound.even).append hrun⟩

theorem deliver_ok (hn : n.Sound G) {pre : List Certificate}
    (hb : ∀ d ∈ pre, n.state.lastRound.gcRound < d.round → n.state.dag.Holds d)
    (hcs : G.CausalFrom pre cs) : ∃ n', (n.deliver cs).2 = .ok n' := by
  induction cs generalizing n pre with
  | nil => exact ⟨n, rfl⟩
  | cons c cs ih =>
    obtain ⟨hc, hpars, hcs⟩ := hcs
    rcases processCertificate_spec hn hc (le_or_gt _ _) with ⟨e, he, -⟩ | ⟨o, ds, n₁, heq, hproc⟩
    · rw [hn.dag.checkParents_of_holds hc fun p hp hr => hb p (hpars p hp) hr] at he
      cases he
    · have hle := hproc.gcRound_le
      obtain ⟨n', hlast⟩ := ih hproc.sound_of_sound
        (List.forall_mem_cons.mpr ⟨fun hr => hproc.holds c (.inl rfl) (by omega), fun d hd hr =>
          hproc.holds d (.inr (hb d hd (by omega))) (by omega)⟩) hcs
      simp only [deliver, heq]
      exact ⟨n', hlast⟩

theorem deliver_holds (hn : n.Sound G) (hcs : ∀ c ∈ cs, c ∈ G.certs) (h : (n.deliver cs).2 = .ok n') :
    n'.Sound G ∧ n.state.lastRound.gcRound ≤ n'.state.lastRound.gcRound ∧
      ∀ d, d ∈ cs ∨ n.state.dag.Holds d → n'.state.lastRound.gcRound < d.round →
        n'.state.dag.Holds d := by
  induction cs generalizing n with
  | nil =>
    cases h
    exact ⟨hn, le_refl _, fun d hd _ => hd.resolve_left List.not_mem_nil⟩
  | cons c cs ih =>
    obtain ⟨hc, hcs⟩ := List.forall_mem_cons.mp hcs
    rcases processCertificate_spec hn hc (le_or_gt _ _) with ⟨e, -, heq⟩ | ⟨o, ds, n₁, heq, hproc⟩
    · simp only [deliver, heq, reduceCtorEq] at h
    · simp only [deliver, heq] at h
      obtain ⟨hsnd, hle, hhold⟩ := ih hproc.sound_of_sound hcs h
      have hle₁ := hproc.gcRound_le
      refine ⟨hsnd, hle₁.trans hle, fun d hd hr => ?_⟩
      have hkept : d = c ∨ n.state.dag.Holds d → n'.state.dag.Holds d := by
        intro hd
        exact hhold d (.inr (hproc.holds d hd (by omega))) hr
      rcases hd with hd | hd
      · rcases List.mem_cons.mp hd with rfl | hd
        · exact hkept (.inl rfl)
        · exact hhold d (.inl hd) hr
      · exact hkept (.inr hd)

/-- Two nodes started with the same parameters and fed the certificates of an epoch in
causal orders never fail, and one commits an initial part of what the other commits. -/
theorem deliver_agreement (G : CertificateDag committee) (gcDepth numSubDagsPerSchedule : Nat)
    {threshold : Nat} (ht : threshold ≤ 33) (table : LeaderSwapTable) {cs cs' : List Certificate}
    (hcs : G.Causal cs) (hcs' : G.Causal cs') :
    (∃ m, ((new committee gcDepth numSubDagsPerSchedule threshold table).deliver cs).2 = .ok m) ∧
    (∃ m, ((new committee gcDepth numSubDagsPerSchedule threshold table).deliver cs').2 = .ok m) ∧
    Trace.Comparable
      ((new committee gcDepth numSubDagsPerSchedule threshold table).deliver cs).1
      ((new committee gcDepth numSubDagsPerSchedule threshold table).deliver cs').1 := by
  have hn := new_sound G gcDepth numSubDagsPerSchedule ht table
  obtain ⟨_, _, hrun⟩ := deliver_run hn hcs.mem
  obtain ⟨_, _, hrun'⟩ := deliver_run hn hcs'.mem
  exact ⟨deliver_ok hn (by simp) hcs, deliver_ok hn (by simp) hcs',
    hrun.comparable View.step_deterministic hrun'⟩

omit [StdRng] in
/-- The second node receives the first round backwards and nothing above round three; the
first commit ends a schedule window. -/
theorem deliver_agreement_fullRounds :
    letI := StdRng.first
    ∃ G : CertificateDag fourAuthorities,
      G.Causal (fullRounds 5) ∧ G.Causal ((fullRounds 1).reverse ++ (fullRounds 3).drop 4) ∧
      (∃ m, ((new fourAuthorities 50 2 33 .default).deliver (fullRounds 5)).2 = .ok m) ∧
      (∃ m, ((new fourAuthorities 50 2 33 .default).deliver
        ((fullRounds 1).reverse ++ (fullRounds 3).drop 4)).2 = .ok m) ∧
      Trace.Comparable ((new fourAuthorities 50 2 33 .default).deliver (fullRounds 5)).1
        ((new fourAuthorities 50 2 33 .default).deliver
          ((fullRounds 1).reverse ++ (fullRounds 3).drop 4)).1 ∧
      ((new fourAuthorities 50 2 33 .default).deliver (fullRounds 5)).1.map
        (fun d => d.leader.digest) = [20, 41] := by
  let _ := StdRng.first
  let G := ofList fourAuthorities 0 (fullRounds 5) (by decide +kernel)
  have h : G.Causal (fullRounds 5) := causalFrom_ofList (by decide +kernel)
  have h' : G.Causal ((fullRounds 1).reverse ++ (fullRounds 3).drop 4) :=
    causalFrom_ofList (by decide +kernel)
  obtain ⟨h1, h2, h3⟩ := deliver_agreement G 50 2 (by decide : 33 ≤ 33) .default h h'
  exact ⟨G, h, h', h1, h2, h3, by decide +kernel⟩

omit [StdRng] in
theorem tryInsert_eq (h : (n.state.tryInsert c).1 = .ok true) :
    n.state.tryInsert c = (.ok true, (n.inserted c).state) := by
  refine Prod.ext h ?_
  unfold tryInsert at h ⊢
  rcases tryInsertInDag_cases n.state.dag n.state.lastCommitted
    n.state.lastRound.gcRound c with ⟨-, heq⟩ | ⟨-, e, -, heq⟩ | ⟨-, -, d, -, -, heq⟩ | ⟨-, -, -, heq⟩
  · rw [heq] at h
    cases h
  · rw [heq] at h
    cases h
  · rw [heq]
    rfl
  · rw [heq]
    rfl

/-- In every state a causal delivery leads to, the next certificate of the delivery is processed
without an abort, and the retry loop runs at most once for each leader round that is left. -/
theorem deliver_terminates (G : CertificateDag committee) (gcDepth numSubDagsPerSchedule : Nat)
    {threshold : Nat} (ht : threshold ≤ 33) (table : LeaderSwapTable) {cs : List Certificate}
    {c : Certificate} (hcs : G.Causal (cs ++ [c])) :
    ∃ n o ds n',
      ((new committee gcDepth numSubDagsPerSchedule threshold table).deliver cs).2 = .ok n ∧
      n.processCertificate c = .ok (.ok (o, ds), n') ∧
      ((n.state.tryInsert c).1 = .ok true → (c.round - 1) % 2 = 0 →
        n.state.lastRound.committedRound < c.round - 1 → ∃ o', commitLoop (c.round - 1)
          ((c.round - 1 - n.state.lastRound.committedRound) / 2) (n.inserted c) =
            .ok (o', ds, n')) := by
  have hn := new_sound G gcDepth numSubDagsPerSchedule ht table
  obtain ⟨hbefore, hc, hparents, -⟩ := causalFrom_append.mp hcs
  obtain ⟨n, hdeliver⟩ := deliver_ok hn (by simp) hbefore
  obtain ⟨hsound, -, hholds⟩ := deliver_holds hn hbefore.mem hdeliver
  have hp := hsound.dag.checkParents_of_holds hc fun p hp hr =>
    hholds p (.inl (by simpa using hparents p hp)) hr
  rcases processCertificate_spec hsound hc (le_or_gt _ _) with ⟨e, he, -⟩ | ⟨o, ds, n', hok, -⟩
  · rw [hp] at he
    cases he
  · refine ⟨n, o, ds, n', hdeliver, hok, fun hins hodd habove => ?_⟩
    have hle := hsound.le_committedRound
    obtain ⟨o', es, n'', hloop, hok', -⟩ := processCertificate_loop hsound hc (by omega) hodd
      habove hp (tryInsert_eq hins)
    rw [hok] at hok'
    cases hok'
    exact ⟨o', hloop⟩

/-- Five rounds in which the leader of round two has one vote and a path from the leader
of round four. -/
def weakLeaderRounds : List Certificate :=
  [0, 1, 2, 3].map (certificateOf · 1 []) ++ [0, 1, 2, 3].map (certificateOf · 2 [0, 1, 2]) ++
    certificateOf 0 3 [0, 1, 2] :: [1, 2, 3].map (certificateOf · 3 [1, 2, 3]) ++
    [0, 1, 2, 3].map (certificateOf · 4 [0, 1, 2]) ++ [0, 1, 2].map (certificateOf · 5 [0, 1, 2])

omit [StdRng] in
/-- Every commit ends a window, so the certificate that brings two commits takes two iterations. -/
theorem deliver_terminates_weakLeader :
    letI := StdRng.first
    let n := new fourAuthorities 50 1 33 .default
    (n.deliver (weakLeaderRounds.take 17)).1 = [] ∧
      (n.deliver (weakLeaderRounds.take 18)).1.map (fun d => d.leader.digest) = [20, 41] ∧
      ∃ n₁ o ds n₂, (n.deliver (weakLeaderRounds.take 17)).2 = .ok n₁ ∧
        n₁.processCertificate (certificateOf 1 5 [0, 1, 2]) = .ok (.ok (o, ds), n₂) := by
  let _ := StdRng.first
  let G := ofList fourAuthorities 0 weakLeaderRounds (by decide +kernel)
  have h : G.Causal (weakLeaderRounds.take 17 ++ [certificateOf 1 5 [0, 1, 2]]) :=
    causalFrom_ofList (by decide +kernel)
  obtain ⟨n₁, o, ds, n₂, hn, hok, -⟩ := deliver_terminates G 50 1 (by decide : 33 ≤ 33) .default h
  exact ⟨by decide +kernel, by decide +kernel, n₁, o, ds, n₂, hn, hok⟩

variable {e : ConsensusError}

/-- The certificate passes the checks of its round and parents, and its author has another one in
the dag for the round. -/
def Displaces (n : Consensus) (c : Certificate) : Prop :=
  n.state.lastRound.gcRound < c.round ∧
    checkParents c n.state.dag n.state.lastRound.gcRound = .ok () ∧
    ∃ existing, n.state.dag.entry c.round c.origin = some existing ∧ existing.digest ≠ c.digest

/-- Only the insertion rejects: the commits either return sub-dags or abort. -/
theorem processCertificate_error (h : n.processCertificate c = .ok (.error e, n')) :
    n.state.tryInsert c = (.error e, n'.state) ∧ n'.protocol = n.protocol := by
  unfold processCertificate at h
  dsimp only at h
  split at h
  · next he =>
    cases h
    exact ⟨Prod.ext he rfl, rfl⟩
  · cases h
  · split at h
    · cases h
    split at h
    · cases h
    split at h
    · cases h
    · obtain ⟨_, -, h⟩ := bind_eq_ok.mp h
      cases h

omit [StdRng] in
theorem inserted_ne {existing : Certificate}
    (hent : n.state.dag.entry c.round c.origin = some existing)
    (hne : existing.digest ≠ c.digest) : n.inserted c ≠ n := by
  intro heq
  have hdag := congrArg (fun m => m.state.dag.entry c.round c.origin) heq
  simp only [inserted, entry_insertCertificate, and_self, if_true, hent] at hdag
  cases hdag
  exact hne rfl

/-- A rejected certificate changes neither the node nor what any later delivery commits, exactly
when it does not displace another certificate. -/
theorem rejected_unchanged_iff (n : Consensus) (c : Certificate) :
    (∀ e n', n.processCertificate c = .ok (.error e, n') →
      n' = n ∧ ∀ later, n'.deliver later = n.deliver later) ↔ ¬ n.Displaces c := by
  constructor
  · rintro h ⟨hround, hparents, existing, hentry, hne⟩
    have herror : n.processCertificate c =
        .ok (.error (.certificateEquivocation c existing), n.inserted c) := by
      simp only [processCertificate, tryInsert, tryInsertInDag, if_neg (Nat.not_le.mpr hround),
        hparents, hentry, if_pos hne]
      rfl
    exact inserted_ne hentry hne (h _ _ herror).1
  · intro h e n' herror
    suffices heq : n' = n from ⟨heq, fun later => by rw [heq]⟩
    obtain ⟨hins, hprotocol⟩ := processCertificate_error herror
    rw [tryInsert] at hins
    rcases tryInsertInDag_cases n.state.dag n.state.lastCommitted n.state.lastRound.gcRound c with
      ⟨-, heq⟩ | ⟨-, e', -, heq⟩ | ⟨hround, hparents, d, hd, hne, -⟩ | ⟨-, -, -, heq⟩
    · rw [heq] at hins
      cases hins
    · rw [heq] at hins
      cases n'
      cases hprotocol
      cases hins
      rfl
    · exact absurd ⟨hround, hparents, d, hd, hne⟩ h
    · rw [heq] at hins
      cases hins

omit [StdRng] in
/-- After two full rounds a second certificate of the leader of round two is rejected. From then
on the certificates of round three miss a parent, and the commit they bring is lost. -/
theorem rejected_displaces_leader :
    letI := StdRng.first
    let leader := certificateOf 0 2 [0, 1, 2, 3]
    let second : Certificate := ⟨{ leader.header with createdAt := 7, digest := 29 }⟩
    let later := (fullRounds 3).drop 8
    ∃ n n', ((new fourAuthorities 50 60 33 .default).deliver (fullRounds 2)).2 = .ok n ∧
      n.processCertificate second = .ok (.error (.certificateEquivocation second leader), n') ∧
      (n.deliver later).1.map (fun d => d.leader.digest) = [20] ∧ (n.deliver later).2.isOk ∧
      (n'.deliver later).1 = [] ∧
      (n'.deliver later).2 = .error (.error (.missingParent 20 (certificateOf 0 3 [0, 1, 2, 3]))) := by
  let _ := StdRng.first
  exact ⟨_, _, rfl, rfl, by decide +kernel, by decide +kernel, by decide +kernel, by decide +kernel⟩

end Consensus

end Axyl
