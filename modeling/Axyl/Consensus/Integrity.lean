import Axyl.Consensus.Agreement

/-! Integrity of the committed sequence: what one sub-dag contains, and that nothing is
committed twice or before one of its parents. -/

namespace Axyl
open List Certificate

def sequenceOf (subDags : List CommittedSubDag) : List Certificate :=
  subDags.flatMap CommittedSubDag.certificates

theorem sequenceOf_append (ds es : List CommittedSubDag) :
    sequenceOf (ds ++ es) = sequenceOf ds ++ sequenceOf es := flatMap_append

theorem sequenceOf_snoc (ds : List CommittedSubDag) (d : CommittedSubDag) :
    sequenceOf (ds ++ [d]) = sequenceOf ds ++ d.certificates := by
  rw [sequenceOf_append, sequenceOf, sequenceOf, flatMap_singleton]

theorem lt_dropBelow_iff {g w r : Nat} (hr : g < r) : dropBelow g w < r ↔ w < r := by
  unfold dropBelow
  split <;> omega

section
variable {com : Committee} (G : CertificateDag com)

/-- The round a sub-dag stays above: `gcDepth` below its leader, or the leader committed
before it when the depth is zero. -/
def subDagFloor (gcDepth : Nat) (before : List CommittedSubDag) (leader : Certificate) : Nat :=
  if gcDepth = 0 then (before.getLast?.map CommittedSubDag.leaderRound).getD 0
  else leader.round - gcDepth

/-- A parent link that the flattening follows: the parent is above the floor and above the
last committed round of its author. -/
def Followed (gcDepth : Nat) (before : List CommittedSubDag) (leader x y : Certificate) : Prop :=
  G.Parent x y ∧ subDagFloor gcDepth before leader < y.round ∧
    lastRoundOf (sequenceOf before) y.origin < y.round

structure SubDagExact (gcDepth : Nat) (before : List CommittedSubDag) (d : CommittedSubDag) :
    Prop where
  even : d.leader.round % 2 = 0
  above : ∀ e ∈ before, e.leader.round < d.leader.round
  sorted : d.certificates.Pairwise SortedBefore
  leader_last : d.certificates.getLast? = some d.leader
  mem_iff : ∀ c, c ∈ d.certificates ↔
    Relation.ReflTransGen (Followed G gcDepth before d.leader) d.leader c

/-- Every digest is committed once, every sub-dag is exact, and no certificate comes before
one of its parents. -/
structure Integrity (gcDepth : Nat) (ds : List CommittedSubDag) : Prop where
  once : ((sequenceOf ds).map Certificate.digest).Nodup
  exact : ∀ before d after, ds = before ++ d :: after → SubDagExact G gcDepth before d
  parents_first : (sequenceOf ds).Pairwise fun c p => ¬ G.Parent c p

end

theorem getLast?_of_sorted {l : List Certificate} {x : Certificate} (hs : l.Pairwise SortedBefore)
    (hx : x ∈ l) (hmax : ∀ y ∈ l, x.SortedBefore y → y = x) : l.getLast? = some x := by
  obtain ⟨init, z, rfl⟩ := eq_nil_or_concat l |>.resolve_left (ne_nil_of_mem hx)
  rw [concat_eq_append] at hs hx hmax ⊢
  rw [List.getLast?_concat]
  rcases mem_append.mp hx with hi | hz
  · have hlast := (pairwise_append.mp hs).2.2 x hi z (mem_singleton_self z)
    rw [hmax z (by simp) hlast]
  · rw [mem_singleton.mp hz]

namespace View

variable [StdRng] {com : Committee} {G : CertificateDag com} {v v' : View}
  {ds : List CommittedSubDag} {d : CommittedSubDag}

variable (G) in
/-- A view reached by committing the sub-dags of `ds`. A parent of a committed certificate
is at or below the last committed round of its author, or its round is collected. -/
structure Reached (ds : List CommittedSubDag) (v : View) : Prop where
  committedRound : v.committedRound = (ds.getLast?.map CommittedSubDag.leaderRound).getD 0
  watermark : ∀ a, v.watermark a =
    dropBelow (v.committedRound - v.gcDepth) (lastRoundOf (sequenceOf ds) a)
  leader_le : ∀ e ∈ ds, e.leader.round ≤ v.committedRound
  round_le : ∀ c ∈ sequenceOf ds, c ∈ G.certs ∧ c.round ≤ v.committedRound
  parents : ∀ c ∈ sequenceOf ds, ∀ p, G.Parent c p →
    p.round ≤ lastRoundOf (sequenceOf ds) p.origin ∨ p.round ≤ v.committedRound - v.gcDepth

omit [StdRng] in
theorem floor_ge (habv : v.committedRound < d.leader.round) :
    v.committedRound - v.gcDepth ≤ v.floor d.leader ∧
      v.floor d.leader ≤ d.leader.round - v.gcDepth := by
  rcases v.floor_cases d.leader with ⟨h0, hf⟩ | ⟨h0, hf⟩ <;> omega

omit [StdRng] in
theorem Reached.floor_eq (h : Reached G ds v) (leader : Certificate) :
    v.floor leader = subDagFloor v.gcDepth ds leader := by
  rw [floor, subDagFloor, h.committedRound]

omit [StdRng] in
theorem Reached.edge_iff (h : Reached G ds v) (habv : v.committedRound < d.leader.round)
    (x y : Certificate) : SubDagEdge G v d.leader x y ↔ Followed G v.gcDepth ds d.leader x y := by
  have hge := (floor_ge habv).1
  unfold SubDagEdge Followed
  rw [← h.floor_eq, h.watermark]
  refine and_congr_right fun _ => and_congr_right fun hy => ?_
  exact lt_dropBelow_iff (by omega)

theorem Reached.mem_iff (h : Reached G ds v) (hstep : Step G v d v') (c : Certificate) :
    c ∈ d.certificates ↔ Relation.ReflTransGen (Followed G v.gcDepth ds d.leader) d.leader c := by
  have hrel : SubDagEdge G v d.leader = Followed G v.gcDepth ds d.leader := by
    funext x y
    exact propext (h.edge_iff hstep.leader.mem.2.1 x y)
  rw [hstep.subDag.mem_iff, InSubDag, hrel]

theorem Step.mem_of_mem (hstep : Step G v d v') {c : Certificate} (hc : c ∈ d.certificates) :
    c ∈ G.certs ∧ c.round ≤ d.leader.round := by
  have hpath := ((hstep.subDag.mem_iff c).mp hc).path
  exact ⟨hpath.mem hstep.leader.mem.1.1, hpath.round_le⟩

section
variable (h : Reached G ds v)
include h

theorem Reached.subDagExact (hstep : Step G v d v') : SubDagExact G v.gcDepth ds d where
  even := hstep.leader.mem.2.2
  above := fun e he => lt_of_le_of_lt (h.leader_le e he) hstep.leader.mem.2.1
  sorted := hstep.subDag.sorted
  leader_last := by
    apply getLast?_of_sorted hstep.subDag.sorted ((hstep.subDag.mem_iff _).mpr .refl)
    intro y hy hsort
    have hpath := ((hstep.subDag.mem_iff y).mp hy).path
    have hle := hpath.round_le
    apply (hpath.eq_of_round_eq ?_).symm
    unfold SortedBefore at hsort
    omega
  mem_iff := h.mem_iff hstep

theorem Reached.snoc (hstep : Step G v d v') : Reached G (ds ++ [d]) v' := by
  have habv := hstep.leader.mem.2.1
  have hrnd := hstep.committedRound
  have hdep := hstep.gcDepth
  have hfloor := floor_ge habv
  refine ⟨?_, ?_, ?_, ?_, ?_⟩
  · rw [hrnd, List.getLast?_concat]
    rfl
  · intro a
    rw [hstep.watermark]
    dsimp only
    rw [h.watermark, dropBelow_max (by omega), hrnd, hdep, sequenceOf_snoc, lastRoundOf_append]
  · intro e he
    rcases mem_append.mp he with he | he
    · have := h.leader_le e he
      omega
    · rw [mem_singleton.mp he, hrnd]
  · intro c hc
    rw [sequenceOf_snoc] at hc
    rw [hrnd]
    rcases mem_append.mp hc with hc | hc
    · obtain ⟨hmem, hle⟩ := h.round_le c hc
      exact ⟨hmem, by omega⟩
    · exact hstep.mem_of_mem hc
  · intro c hc p hp
    rw [sequenceOf_snoc] at hc
    rw [sequenceOf_snoc, lastRoundOf_append]
    rcases mem_append.mp hc with hc | hc
    · have := h.parents c hc p hp
      omega
    · -- a parent that is not followed is collected or behind its author's last round
      by_cases hedge : Followed G v.gcDepth ds d.leader c p
      · have hmem : p ∈ d.certificates :=
          (h.mem_iff hstep p).mpr (((h.mem_iff hstep c).mp hc).tail hedge)
        have := round_le_lastRoundOf hmem
        omega
      · rw [← h.edge_iff habv] at hedge
        have hw : ¬ (v.floor d.leader < p.round ∧ v.watermark p.origin < p.round) :=
          fun hw => hedge ⟨hp, hw⟩
        rw [h.watermark] at hw
        by_cases hf : v.floor d.leader < p.round
        · rw [lt_dropBelow_iff (by omega)] at hw
          omega
        · omega

theorem Reached.fresh (hstep : Step G v d v') {c : Certificate} (hc : c ∈ d.certificates) :
    v.committedRound < c.round ∨
      (v.committedRound - v.gcDepth < c.round ∧ lastRoundOf (sequenceOf ds) c.origin < c.round) := by
  rcases Relation.ReflTransGen.cases_tail ((h.mem_iff hstep c).mp hc) with rfl | ⟨x, -, he⟩
  · exact .inl hstep.leader.mem.2.1
  · have hfloor := (floor_ge hstep.leader.mem.2.1).1
    rw [h.floor_eq] at hfloor
    exact .inr ⟨lt_of_le_of_lt hfloor he.2.1, he.2.2⟩

section
variable (hi : Integrity G v.gcDepth ds)
include hi

theorem Reached.once_snoc (hstep : Step G v d v') :
    ((sequenceOf (ds ++ [d])).map Certificate.digest).Nodup := by
  rw [sequenceOf_snoc, map_append, nodup_append]
  refine ⟨hi.once, ?_, ?_⟩
  · apply List.Nodup.map_on _ hstep.subDag.nodup
    intro a ha b hb hab
    exact G.digest_inj a (hstep.mem_of_mem ha).1 b (hstep.mem_of_mem hb).1 hab
  · intro x hx y hy hxy
    obtain ⟨a, ha, rfl⟩ := mem_map.mp hx
    obtain ⟨b, hb, rfl⟩ := mem_map.mp hy
    obtain ⟨haG, hale⟩ := h.round_le a ha
    obtain rfl := G.digest_inj a haG b (hstep.mem_of_mem hb).1 hxy
    have := round_le_lastRoundOf ha
    have := h.fresh hstep hb
    omega

theorem Reached.parents_first_snoc (hstep : Step G v d v') :
    (sequenceOf (ds ++ [d])).Pairwise fun c p => ¬ G.Parent c p := by
  rw [sequenceOf_snoc, pairwise_append]
  refine ⟨hi.parents_first, ?_, ?_⟩
  · refine hstep.subDag.sorted.imp fun {a b} hab hp => ?_
    have := hp.2.2
    unfold SortedBefore at hab
    omega
  · intro c hc p hp hpar
    have hrnd := hpar.2.2
    have hcle := (h.round_le c hc).2
    have := h.parents c hc p hpar
    have := h.fresh hstep hp
    omega

theorem Reached.integrity_snoc (hstep : Step G v d v') : Integrity G v.gcDepth (ds ++ [d]) := by
  refine ⟨h.once_snoc hi hstep, ?_, h.parents_first_snoc hi hstep⟩
  intro pre e after heq
  -- the sub-dag at hand is the new one or was there before
  rcases append_eq_append_iff.mp heq with ⟨l, rfl, hl⟩ | ⟨l, rfl, hl⟩
  · cases l with
    | nil =>
      cases hl
      rw [append_nil]
      exact h.subDagExact hstep
    | cons f l => simp at hl
  · cases l with
    | nil =>
      cases hl
      have hex := h.subDagExact hstep
      rwa [append_nil] at hex
    | cons f l =>
      obtain ⟨rfl, -⟩ := List.cons.inj hl
      exact hi.exact pre e l rfl

end

end

end View

namespace Consensus

variable [StdRng] {committee : Committee}

/-- A node started empty and fed certificates of one epoch commits a sequence with
integrity, up to its first failure if there is one. -/
theorem deliver_integrity (G : CertificateDag committee) (gcDepth numSubDagsPerSchedule : Nat)
    {threshold : Nat} (ht : threshold ≤ 33) (table : LeaderSwapTable) {cs : List Certificate}
    (hcs : ∀ c ∈ cs, c ∈ G.certs) :
    Integrity G gcDepth
      ((new committee gcDepth numSubDagsPerSchedule threshold table).deliver cs).1 := by
  have hn := new_sound G gcDepth numSubDagsPerSchedule ht table
  obtain ⟨n', h', hrun⟩ := deliver_run hn hcs
  have hhistory := hrun.history (P := fun ds v =>
    v.gcDepth = gcDepth ∧ View.Reached G ds v ∧ Integrity G gcDepth ds)
    ⟨rfl, ⟨rfl, fun a => ?_, by simp, by simp [sequenceOf], by simp [sequenceOf]⟩,
      ⟨by simp [sequenceOf], by simp, by simp [sequenceOf]⟩⟩ ?_
  · exact hhistory.2.2
  · simp [new, ConsensusState.new, Consensus.view, dropBelow, sequenceOf, lastRoundOf]
  · intro ds v d w _ hp hstep
    obtain ⟨rfl, hreached, hi⟩ := hp
    exact ⟨hstep.gcDepth, hreached.snoc hstep, hreached.integrity_snoc hi hstep⟩

omit [StdRng] in
theorem deliver_integrity_fullRounds :
    letI := StdRng.first
    ∃ G : CertificateDag fourAuthorities, (∀ c ∈ fullRounds 5, c ∈ G.certs) ∧
      Integrity G 1 ((new fourAuthorities 1 50 33 .default).deliver (fullRounds 5)).1 ∧
      (sequenceOf ((new fourAuthorities 1 50 33 .default).deliver (fullRounds 5)).1).map
        Certificate.digest = [20, 41] := by
  let _ := StdRng.first
  let G := CertificateDag.ofList fourAuthorities 0 (fullRounds 5) (by decide +kernel)
  exact ⟨G, fun c hc => hc, deliver_integrity G 1 50 (by decide : 33 ≤ 33) .default fun c hc => hc,
    by decide +kernel⟩

def sevenAuthorities : Committee where
  authorities := (List.range 7).map fun i => ⟨i, 1⟩
  epoch := 0
  sorted := by decide
  nonempty := by decide

/-- The second certificate of authority 1 has one child, the third certificate of authority
2, and is the only way from there to the first certificate of authority 3. The first
sub-dag of authority 1 passes over it, and authority 3 stays apart until round nine. -/
def skippedParentRounds : List Certificate :=
  (List.range 7).map (certificateOf · 1 []) ++
    [0, 2, 4, 5, 6].map (certificateOf · 2 [0, 1, 2, 4, 5]) ++
    [certificateOf 1 2 [0, 2, 3, 4, 5], certificateOf 3 2 [0, 1, 3, 4, 5]] ++
    [0, 1, 4, 5, 6].map (certificateOf · 3 [0, 2, 4, 5, 6]) ++
    [certificateOf 2 3 [0, 1, 4, 5, 6], certificateOf 3 3 [0, 3, 4, 5, 6]] ++
    [4, 5, 6].flatMap (fun r => [0, 1, 4, 5, 6].map (certificateOf · r [0, 1, 4, 5, 6]) ++
      [certificateOf 2 r [0, 1, 2, 4, 5], certificateOf 3 r [0, 1, 3, 4, 5]]) ++
    [0, 1, 4, 5, 6].map (certificateOf · 7 [0, 2, 4, 5, 6]) ++
    certificateOf 3 7 [0, 1, 3, 4, 5] ::
    [0, 1, 4, 5, 6].map (certificateOf · 8 [0, 1, 4, 5, 6]) ++
    certificateOf 3 8 [0, 1, 3, 4, 5] :: [0, 1, 4].map (certificateOf · 9 [0, 3, 4, 5, 6])

omit [StdRng] in
/-- A certificate is committed before one of its ancestors, which it reaches only through a
certificate that is never committed. With depth zero a sub-dag reaches further down than
its leader's round. -/
theorem deliver_before_ancestor :
    letI := StdRng.first
    let ds := ((new sevenAuthorities 50 50 33 .default).deliver skippedParentRounds).1
    (∃ G : CertificateDag sevenAuthorities, G.Causal skippedParentRounds ∧
      G.Path (certificateOf 2 3 [0, 1, 4, 5, 6]) (certificateOf 3 1 []) ∧
      [certificateOf 2 3 [0, 1, 4, 5, 6], certificateOf 3 1 []].Sublist (sequenceOf ds)) ∧
    ∃ d ∈ ((new fourAuthorities 0 50 33 .default).deliver (fullRounds 3)).1,
      ∃ c ∈ d.certificates, c.round ≤ d.leader.round - 0 ∧ c ≠ d.leader := by
  let _ := StdRng.first
  refine ⟨⟨CertificateDag.ofList sevenAuthorities 0 skippedParentRounds (by decide +kernel),
    CertificateDag.causalFrom_ofList (by decide +kernel), ?_, by decide +kernel⟩,
    by decide +kernel⟩
  exact .head (b := certificateOf 1 2 [0, 2, 3, 4, 5])
    ⟨show _ ∈ skippedParentRounds by decide +kernel, by decide, by decide⟩
    (.single ⟨show _ ∈ skippedParentRounds by decide +kernel, by decide, by decide⟩)

end Consensus

end Axyl
