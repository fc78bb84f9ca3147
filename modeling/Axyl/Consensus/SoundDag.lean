import Axyl.Consensus.CommitRule

/-! A dag of a node against the whole set of certificates: it holds certificates of the
set above the garbage collection round, with all the parents that lie above it too. On
such a dag the walks of the code compute paths of the whole set. -/

namespace Axyl
open List ConsensusState CertificateDag
open Std (ExtTreeMap)

def Dag.Holds (dag : Dag) (c : Certificate) : Prop := dag.entry c.round c.origin = some c

structure SoundDag {committee : Committee} (G : CertificateDag committee) (gcRound : Nat)
    (dag : Dag) : Prop where
  mem : ∀ {r a c}, dag.entry r a = some c → c ∈ G.certs ∧ c.round = r ∧ c.origin = a
  above : ∀ {r a c}, dag.entry r a = some c → gcRound < r
  closed : ∀ {c p}, dag.Holds c → G.Parent c p → gcRound < p.round → dag.Holds p

namespace SoundDag

variable {com : Committee} {G : CertificateDag com} {gc : Nat} {dag : Dag} {r : Nat}
    {c : Certificate}

section
variable (h : SoundDag G gc dag)
include h

theorem holds_of_entry {a : Nat} (hc : dag.entry r a = some c) : dag.Holds c := by
  obtain ⟨-, rfl, rfl⟩ := h.mem hc
  exact hc

theorem mem_values_iff : c ∈ (dag.table r).values ↔ dag.Holds c ∧ c.round = r := by
  rw [Dag.mem_table_values]
  constructor
  · rintro ⟨a, ha⟩
    exact ⟨h.holds_of_entry ha, (h.mem ha).2.1⟩
  · rintro ⟨hc, rfl⟩
    exact ⟨c.origin, hc⟩

theorem holds_of_path {x y : Certificate} (hx : dag.Holds x) (hp : G.Path x y)
    (hy : gc < y.round) : dag.Holds y := by
  induction hp with
  | refl => exact hx
  | tail _ he ih =>
    have := he.2.2
    exact h.closed (ih (by omega)) he hy

theorem withDigest_eq_some {d : Nat} :
    (dag.table r).withDigest d = some c ↔ dag.Holds c ∧ c.round = r ∧ c.digest = d := by
  unfold RoundTable.withDigest
  constructor
  · intro hf
    obtain ⟨hc, hr⟩ := h.mem_values_iff.mp (mem_of_find?_eq_some hf)
    exact ⟨hc, hr, by simpa using List.find?_some hf⟩
  · rintro ⟨hc, hr, hd⟩
    have hm := h.mem_values_iff.mpr ⟨hc, hr⟩
    cases hf : (dag.table r).values.find? fun c => c.digest = d with
    | none => exact absurd hd (by simpa using List.find?_eq_none.mp hf c hm)
    | some e =>
      obtain ⟨he, -⟩ := h.mem_values_iff.mp (mem_of_find?_eq_some hf)
      have hed : e.digest = d := by simpa using List.find?_some hf
      rw [G.digest_inj e (h.mem he).1 c (h.mem hc).1 (hed.trans hd.symm)]

end

theorem empty (G : CertificateDag com) (gc : Nat) : SoundDag G gc ∅ where
  mem := by simp
  above := by simp
  closed := by simp [Dag.Holds]

theorem filter_lt (h : SoundDag G gc dag) (g : Nat) :
    SoundDag G (max gc g) (dag.filter fun r _ => g < r) := by
  have hent : ∀ {r a c}, Dag.entry (dag.filter fun r _ => g < r) r a = some c →
      g < r ∧ dag.entry r a = some c := by
    intro r a c hc
    rw [Dag.entry_filter_lt] at hc
    split at hc
    · exact ⟨by assumption, hc⟩
    · cases hc
  refine ⟨fun hc => h.mem (hent hc).2, fun hc => ?_, fun hc hp hgp => ?_⟩
  · have := h.above (hent hc).2
    have := (hent hc).1
    omega
  · rw [Dag.Holds, Dag.entry_filter_lt, if_pos (by omega)]
    exact h.closed (hent hc).2 hp (by omega)

theorem holds_insertCertificate {d : Certificate} :
    (ConsensusState.insertCertificate dag c).Holds d ↔
      d = c ∨ (dag.Holds d ∧ ¬ (d.round = c.round ∧ d.origin = c.origin)) := by
  rw [Dag.Holds, entry_insertCertificate]
  split
  · rename_i h
    simp only [Option.some.injEq, h, and_self, not_true_eq_false, and_false, or_false]
    exact eq_comm
  · rename_i h
    constructor
    · exact fun hd => .inr ⟨hd, h⟩
    · rintro (rfl | ⟨hd, -⟩)
      · exact absurd ⟨rfl, rfl⟩ h
      · exact hd

section
variable (h : SoundDag G gc dag)
include h

theorem holds_insert_iff {d : Certificate} (hc : c ∈ G.certs) :
    (ConsensusState.insertCertificate dag c).Holds d ↔ d = c ∨ dag.Holds d := by
  rw [holds_insertCertificate]
  constructor
  · exact Or.imp_right And.left
  · rintro (rfl | hd)
    · exact .inl rfl
    · by_cases he : d.round = c.round ∧ d.origin = c.origin
      · exact .inl (G.unique d (h.mem hd).1 c hc he.2 he.1)
      · exact .inr ⟨hd, he⟩

theorem insert (hc : c ∈ G.certs) (hr : gc < c.round) {g : Nat}
    (hg : g ≤ gc) (hp : ConsensusState.checkParents c dag g = .ok ()) :
    SoundDag G gc (ConsensusState.insertCertificate dag c) where
  mem := by
    intro r a d hd
    rw [entry_insertCertificate] at hd
    split at hd
    · rename_i he
      cases hd
      exact ⟨hc, he.1.symm, he.2.symm⟩
    · exact h.mem hd
  above := by
    intro r a d hd
    rw [entry_insertCertificate] at hd
    split at hd
    · omega
    · exact h.above hd
  closed := by
    intro d p hd hdp hgp
    apply (h.holds_insert_iff hc).mpr
    right
    rcases (h.holds_insert_iff hc).mp hd with rfl | hd
    · have hrnd := hdp.2.2
      rcases checkParents_eq_ok.mp hp with hle | ⟨-, hall⟩
      · omega
      · obtain ⟨q, hq, hqd⟩ := hall _ hdp.2.1
        obtain ⟨hq, -⟩ := h.mem_values_iff.mp hq
        rwa [← G.digest_inj q (h.mem hq).1 p hdp.1 hqd]
    · exact h.closed hd hdp hgp

theorem checkParents_of_holds (hc : c ∈ G.certs) {g : Nat}
    (hp : ∀ p, G.Parent c p → g < p.round → dag.Holds p) :
    ConsensusState.checkParents c dag g = .ok () := by
  rw [checkParents_eq_ok]
  rcases Nat.lt_or_ge (g + 1) c.round with hr | hr
  · have h2 : 2 ≤ c.round := by omega
    have hheld : ∀ p, G.Parent c p → dag.Holds p ∧ p.round = c.round - 1 := by
      intro p hpar
      have := hpar.2.2
      exact ⟨hp p hpar (by omega), by omega⟩
    refine .inr ⟨?_, fun d hd => ?_⟩
    · obtain ⟨p, hpar⟩ := exists_parent hc h2
      obtain ⟨hheld, hrnd⟩ := hheld p hpar
      rw [← hrnd]
      exact Dag.exists_table_of_entry hheld
    · obtain ⟨p, hpm, rfl, hrnd⟩ := G.parents_mem c hc h2 d hd
      exact ⟨p, h.mem_values_iff.mpr (hheld p ⟨hpm, hd, hrnd⟩), rfl⟩
  · exact .inl hr

end

section Walks

variable {ldr : Certificate}

section
variable (h : SoundDag G gc dag)
include h

theorem mem_foldl_linkedStep {c : Certificate} (hl : dag.Holds ldr) (n : Nat) (hn : n ≤ ldr.round) :
    c ∈ ((List.range n).map fun i => ldr.round - (i + 1)).foldl (linkedStep dag) [ldr] ↔
      dag.Holds c ∧ c.round = ldr.round - n ∧ G.Path ldr c := by
  induction n generalizing c with
  | zero =>
    simp only [range_zero, map_nil, foldl_nil, mem_singleton, Nat.sub_zero]
    constructor
    · rintro rfl
      exact ⟨hl, rfl, .refl⟩
    · rintro ⟨-, hr, hp⟩
      exact (hp.eq_of_round_eq hr.symm).symm
  | succ n ih =>
    simp only [range_succ, map_append, foldl_append, map_cons, map_nil, foldl_cons, foldl_nil]
    rw [linkedStep, mem_filter, h.mem_values_iff]
    simp only [any_eq_true, decide_eq_true_eq]
    constructor
    · rintro ⟨⟨hc, hr⟩, x, hx, hd⟩
      obtain ⟨hx, hxr, hpath⟩ := (ih (by omega)).mp hx
      exact ⟨hc, hr, hpath.tail ⟨(h.mem hc).1, hd, by omega⟩⟩
    · rintro ⟨hc, hr, hpath⟩
      refine ⟨⟨hc, hr⟩, ?_⟩
      rcases Relation.ReflTransGen.cases_tail hpath with heq | ⟨x, hx, hp⟩
      · subst heq
        omega
      · have hrnd := hp.2.2
        have habv := h.above hc
        exact ⟨x, (ih (by omega)).mpr ⟨h.holds_of_path hl hx (by omega), by omega, hx⟩, hp.2.1⟩

theorem linked_iff {prev : Certificate} (hl : dag.Holds ldr) (hp : dag.Holds prev)
    (hr : prev.round ≤ ldr.round) : linked ldr prev dag ↔ G.Path ldr prev := by
  have hmem : ∀ c, c ∈ (roundsBelow prev.round ldr.round).foldl (linkedStep dag) [ldr] ↔
      dag.Holds c ∧ c.round = prev.round ∧ G.Path ldr c := by
    intro c
    have := h.mem_foldl_linkedStep (c := c) hl (ldr.round - prev.round) (by omega)
    rwa [show ldr.round - (ldr.round - prev.round) = prev.round by omega] at this
  simp only [linked, any_eq_true, hmem]
  constructor
  · rintro ⟨c, ⟨hc, -, hpath⟩, heq⟩
    simp only [Certificate.eq, Bool.and_eq_true, decide_eq_true_eq] at heq
    rwa [G.digest_inj prev (h.mem hp).1 c (h.mem hc).1 heq.1.1.1]
  · exact fun hpath => ⟨prev, ⟨hp, rfl, hpath⟩, by simp [Certificate.eq]⟩

variable [StdRng] {s : LeaderSchedule}

omit h in
theorem leaderCertificate_eq {r : Nat} (hr : r % 2 = 0) :
    s.leaderCertificate r dag = .ok (dag.entry r (s.elected r).id) := by
  simp only [LeaderSchedule.leaderCertificate, LeaderSchedule.leader, if_pos hr]
  rfl

theorem leaderAt_of_entry {r : Nat} {c : Certificate} (hc : dag.entry r (s.elected r).id = some c) :
    G.LeaderAt s r c ∧ dag.Holds c := ⟨h.mem hc, h.holds_of_entry hc⟩

theorem orderLeadersLoop_eq {rounds : List Nat} (later : List Certificate) (hl : dag.Holds ldr)
    (hdesc : (ldr.round :: rounds).Pairwise (· > ·)) (hrs : ∀ r ∈ rounds, r % 2 = 0 ∧ gc < r) :
    orderLeadersLoop s dag rounds ldr later =
      .ok (rounds.foldl (G.chainStep s) (ldr :: later)) := by
  induction rounds generalizing ldr later with
  | nil => rfl
  | cons r rounds ih =>
    obtain ⟨heven, hgc⟩ := hrs r mem_cons_self
    have htail : ∀ r ∈ rounds, r % 2 = 0 ∧ gc < r := fun r hr =>
      hrs r (mem_cons_of_mem _ hr)
    obtain ⟨hlt, hdesc'⟩ := pairwise_cons.mp hdesc
    have hskip : (ldr.round :: rounds).Pairwise (· > ·) :=
      pairwise_cons.mpr ⟨fun r hr => hlt r (mem_cons_of_mem _ hr), (pairwise_cons.mp hdesc').2⟩
    have hlr := hlt r mem_cons_self
    rw [orderLeadersLoop, leaderCertificate_eq heven, foldl_cons]
    simp only [bind, Except.bind, CertificateDag.chainStep]
    cases he : dag.entry r (s.elected r).id with
    | none =>
      -- a leader with a path from `leader` would be in the dag
      have hnone : G.prevLeader s ldr r = none :=
        prevLeader_eq_none.mpr fun p hp hpath => by
          obtain ⟨-, rfl, ho⟩ := hp
          have := h.holds_of_path hl hpath hgc
          rw [Dag.Holds, ho, he] at this
          cases this
      simp only [hnone]
      exact ih later hl hskip htail
    | some p =>
      obtain ⟨hp, hpd⟩ := h.leaderAt_of_entry he
      have hpr := hp.2.1
      have hlink := h.linked_iff hl hpd (by omega)
      by_cases hpath : G.Path ldr p
      · simp only [hlink.mpr hpath, if_true, prevLeader_eq_some.mpr ⟨hp, hpath⟩]
        exact ih (ldr :: later) hpd (hpr ▸ hdesc') htail
      · have hnone : G.prevLeader s ldr r = none :=
          prevLeader_eq_none.mpr fun q hq => hp.eq hq ▸ hpath
        simp only [hnone, if_neg (mt hlink.mp hpath)]
        exact ih later hl hskip htail

end

end Walks

end SoundDag

end Axyl
