import Axyl.Consensus.Bullshark
import Axyl.Consensus.CertificateDag
import Axyl.Lib.Trace

/-! What Bullshark commits, stated over the whole set of certificates of the epoch. A supported
leader lies on the chain of every later anchor, so the lowest leader still to be committed does not
depend on the anchor that triggers the commit. A `View` is the part of a node that future commits
depend on; one step commits one leader, and the step out of a view is unique. -/

namespace Axyl
open List

variable {k L : Nat}

theorem mem_leaderRounds {r : Nat} (h : r ∈ leaderRounds k L) :
    k + 2 ≤ r ∧ r + 2 ≤ L ∧ r % 2 = L % 2 := by
  obtain ⟨i, hi, rfl⟩ := mem_map.mp h
  have := mem_range.mp hi
  omega

theorem pairwise_leaderRounds (k L : Nat) : (L :: leaderRounds k L).Pairwise (· > ·) := by
  refine pairwise_cons.mpr ⟨fun r hr => by have := mem_leaderRounds hr; omega, ?_⟩
  refine pairwise_map.mpr (pairwise_lt_range.imp_of_mem fun {i j} hi hj hij => ?_)
  have := mem_range.mp hj
  omega

theorem leaderRounds_eq_nil (h : L ≤ k + 3) : leaderRounds k L = [] := by
  have : (L - k - 2) / 2 = 0 := by omega
  simp [leaderRounds, this]

theorem leaderRounds_add_two (h : k + 2 ≤ L) : leaderRounds k (L + 2) = L :: leaderRounds k L := by
  have : (L + 2 - k - 2) / 2 = (L - k - 2) / 2 + 1 := by omega
  simp only [leaderRounds, this, range_succ_eq_map, map_cons, map_map]
  refine congrArg₂ _ (by omega) (map_congr_left fun i _ => ?_)
  simp only [Function.comp]
  omega

theorem leaderRounds_split (h : k + 2 ≤ L) (m : Nat) : leaderRounds k (L + 2 * (m + 1)) =
      leaderRounds L (L + 2 * (m + 1)) ++ L :: leaderRounds k L := by
  induction m with
  | zero =>
    have hnil : leaderRounds L (L + 2 * (0 + 1)) = [] := leaderRounds_eq_nil (by omega)
    rw [hnil]
    exact leaderRounds_add_two h
  | succ m ih =>
    have hstep : L + 2 * (m + 1 + 1) = L + 2 * (m + 1) + 2 := by omega
    rw [hstep, leaderRounds_add_two (by omega), leaderRounds_add_two (by omega), ih]
    rfl

theorem exists_add_two_mul {L' : Nat} (h : L < L') (hpar : L % 2 = L' % 2) :
    ∃ m, L' = L + 2 * (m + 1) := ⟨(L' - L) / 2 - 1, by omega⟩

namespace CertificateDag

variable [StdRng] {com : Committee} (G : CertificateDag com)

def LeaderAt (s : LeaderSchedule) (round : Nat) (c : Certificate) : Prop :=
  c ∈ G.certs ∧ c.round = round ∧ c.origin = (s.elected round).id

open Classical in
noncomputable def prevLeader (s : LeaderSchedule) (leader : Certificate) (r : Nat) :
    Option Certificate :=
  if h : ∃ p, G.LeaderAt s r p ∧ G.Path leader p then some h.choose else none

noncomputable def chainStep (s : LeaderSchedule) : List Certificate → Nat → List Certificate
  | [], _ => []
  | leader :: later, r =>
    match G.prevLeader s leader r with
    | some p => p :: leader :: later
    | none => leader :: later

noncomputable def leaderChain (s : LeaderSchedule) (k : Nat) (anchor : Certificate) :
    List Certificate :=
  (leaderRounds k anchor.round).foldl (G.chainStep s) [anchor]

variable {G} {s : LeaderSchedule} {r : Nat} {c : Certificate}

theorem LeaderAt.eq {d : Certificate} (hc : G.LeaderAt s r c) (hd : G.LeaderAt s r d) : c = d :=
  G.unique c hc.1 d hd.1 (hc.2.2.trans hd.2.2.symm) (hc.2.1.trans hd.2.1.symm)

variable {rest : List Certificate} {ldr : Certificate}

theorem prevLeader_eq_some {p : Certificate} :
    G.prevLeader s ldr r = some p ↔ G.LeaderAt s r p ∧ G.Path ldr p := by
  unfold prevLeader
  split
  · rename_i h
    obtain ⟨hl, hp⟩ := h.choose_spec
    constructor
    · intro heq
      cases heq
      exact ⟨hl, hp⟩
    · rintro ⟨hl', -⟩
      rw [hl.eq hl']
  · rename_i h
    simp only [reduceCtorEq, false_iff]
    exact fun hp => h ⟨p, hp⟩

theorem prevLeader_eq_none :
    G.prevLeader s ldr r = none ↔ ∀ p, G.LeaderAt s r p → ¬ G.Path ldr p := by
  simp only [Option.eq_none_iff_forall_ne_some, ne_eq, prevLeader_eq_some, not_and]

theorem chainStep_cons (ldr : Certificate) (later : List Certificate) (r : Nat) :
    G.chainStep s (ldr :: later) r = ldr :: later ∨ ∃ p, G.LeaderAt s r p ∧ G.Path ldr p ∧
        G.chainStep s (ldr :: later) r = p :: ldr :: later := by
  cases hp : G.prevLeader s ldr r with
  | none => exact .inl (by simp [chainStep, hp])
  | some p =>
    obtain ⟨hl, hpath⟩ := prevLeader_eq_some.mp hp
    exact .inr ⟨p, hl, hpath, by simp [chainStep, hp]⟩

theorem foldl_chainStep_append (rs : List Nat) (c : Certificate) (l later : List Certificate) :
    rs.foldl (G.chainStep s) (c :: l ++ later) = rs.foldl (G.chainStep s) (c :: l) ++ later := by
  induction rs generalizing c l with
  | nil => rfl
  | cons r rs ih =>
    simp only [foldl_cons, cons_append, chainStep]
    split
    · rename_i p _
      exact ih p (c :: l)
    · exact ih c l

theorem foldl_chainStep_spec (rs : List Nat) (c : Certificate) (l : List Certificate) :
    ∃ new, rs.foldl (G.chainStep s) (c :: l) = new ++ c :: l ∧
      ∀ p ∈ new, p.round ∈ rs ∧ G.LeaderAt s p.round p ∧ G.Path c p := by
  induction rs generalizing c l with
  | nil => exact ⟨[], rfl, by simp⟩
  | cons r rs ih =>
    rw [foldl_cons]
    rcases chainStep_cons (G := G) (s := s) c l r with h | ⟨p, hl, hp, h⟩
    · obtain ⟨new, heq, hnew⟩ := ih c l
      refine ⟨new, by rw [h, heq], fun q hq => ?_⟩
      obtain ⟨h1, h2, h3⟩ := hnew q hq
      exact ⟨mem_cons_of_mem _ h1, h2, h3⟩
    · obtain ⟨new, heq, hnew⟩ := ih p (c :: l)
      refine ⟨new ++ [p], by rw [h, heq]; simp, fun q hq => ?_⟩
      rcases mem_append.mp hq with hq | hq
      · obtain ⟨h1, h2, h3⟩ := hnew q hq
        exact ⟨mem_cons_of_mem _ h1, h2, hp.trans h3⟩
      · obtain rfl := mem_singleton.mp hq
        obtain rfl := hl.2.1
        exact ⟨mem_cons_self, hl, hp⟩

variable {anc : Certificate}

theorem leaderChain_spec (k : Nat) (h : G.leaderChain s k anc = c :: rest) : (c = anc ∧ rest = []) ∨
      (c.round ∈ leaderRounds k anc.round ∧ G.LeaderAt s c.round c ∧ G.Path anc c ∧ rest ≠ []) := by
  obtain ⟨new, heq, hnew⟩ := foldl_chainStep_spec (G := G) (s := s)
    (leaderRounds k anc.round) anc []
  rw [leaderChain, heq] at h
  cases new with
  | nil =>
    cases h
    exact .inl ⟨rfl, rfl⟩
  | cons p new =>
    obtain ⟨rfl, rfl⟩ := List.cons.inj h
    obtain ⟨h1, h2, h3⟩ := hnew p mem_cons_self
    exact .inr ⟨h1, h2, h3, by simp⟩

theorem mem_leaderChain (ha : anc ∈ G.certs) (hc : c ∈ G.leaderChain s k anc) : c ∈ G.certs := by
  obtain ⟨new, heq, hnew⟩ := foldl_chainStep_spec (G := G) (s := s)
    (leaderRounds k anc.round) anc []
  rw [leaderChain, heq] at hc
  rcases mem_append.mp hc with hc | hc
  · exact (hnew c hc).2.1.1
  · rwa [mem_singleton.mp hc]

theorem leaderChain_ne_nil (k : Nat) (anc : Certificate) : G.leaderChain s k anc ≠ [] := by
  obtain ⟨new, heq, -⟩ := foldl_chainStep_spec (G := G) (s := s) (leaderRounds k anc.round) anc []
  rw [leaderChain, heq]
  simp

theorem leaderChain_through {a b : Certificate} (hk : k + 2 ≤ a.round) (ha : G.LeaderAt s a.round a)
    (hs : G.Supported a) (hb : b ∈ G.certs) (hlt : a.round < b.round)
    (hpar : a.round % 2 = b.round % 2) :
    ∃ later, G.leaderChain s k b = G.leaderChain s k a ++ later := by
  obtain ⟨m, hm⟩ := exists_add_two_mul hlt hpar
  -- the part of the chain above the round of `a`
  obtain ⟨new, heq, hnew⟩ := foldl_chainStep_spec (G := G) (s := s)
    (leaderRounds a.round b.round) b []
  obtain ⟨cur, later, hcur, hmem, hrnd⟩ : ∃ cur later, new ++ [b] = cur :: later ∧
      cur ∈ G.certs ∧ a.round + 2 ≤ cur.round := by
    cases new with
    | nil => exact ⟨b, [], rfl, hb, by omega⟩
    | cons p new =>
      obtain ⟨hp, hl, -⟩ := hnew p mem_cons_self
      exact ⟨p, new ++ [b], rfl, hl.1, (mem_leaderRounds hp).1⟩
  have hprev : G.prevLeader s cur a.round = some a :=
    prevLeader_eq_some.mpr ⟨ha, path_of_supported ha.1 hs cur hmem hrnd⟩
  refine ⟨cur :: later, ?_⟩
  rw [leaderChain, hm, leaderRounds_split hk m, ← hm, foldl_append, heq, hcur, foldl_cons]
  simp only [chainStep, hprev]
  exact foldl_chainStep_append (leaderRounds k a.round) a [] (cur :: later)

theorem leaderChain_tail (h : G.leaderChain s k anc = c :: rest)
    (hrest : rest ≠ []) : G.leaderChain s c.round anc = rest := by
  rcases leaderChain_spec k h with ⟨-, rfl⟩ | ⟨hc, -, -, -⟩
  · exact absurd rfl hrest
  obtain ⟨hk, hL, hpar⟩ := mem_leaderRounds hc
  obtain ⟨m, hm⟩ := exists_add_two_mul (by omega : c.round < anc.round) hpar
  rw [leaderChain, hm, leaderRounds_split hk m, ← hm, foldl_append] at h
  obtain ⟨high, heq, hhigh⟩ := foldl_chainStep_spec (G := G) (s := s)
    (leaderRounds c.round anc.round) anc []
  rw [leaderChain]
  obtain ⟨cur, later, hcur, hrnd⟩ : ∃ cur later,
      (leaderRounds c.round anc.round).foldl (G.chainStep s) [anc] = cur :: later ∧
        c.round < cur.round := by
    cases high with
    | nil => exact ⟨anc, [], heq, by omega⟩
    | cons p high =>
      have := mem_leaderRounds (hhigh p mem_cons_self).1
      exact ⟨p, high ++ [anc], heq, by omega⟩
  rw [hcur] at h ⊢
  rw [foldl_cons] at h
  -- a leader added below the round of `c` would be the head instead of `c`
  have hlow : ∀ d l, (leaderRounds k c.round).foldl (G.chainStep s) (d :: l) = c :: rest →
      d :: l = c :: rest := by
    intro d l hd
    obtain ⟨new, hnew, hmem⟩ := foldl_chainStep_spec (G := G) (s := s) (leaderRounds k c.round) d l
    rw [hd] at hnew
    cases new with
    | nil => exact hnew.symm
    | cons p new =>
      obtain ⟨rfl, -⟩ := List.cons.inj hnew
      have := mem_leaderRounds (hmem c mem_cons_self).1
      omega
  rcases chainStep_cons (G := G) (s := s) cur later c.round with hs | ⟨p, -, -, hs⟩
  · rw [hs] at h
    obtain ⟨rfl, -⟩ := List.cons.inj (hlow _ _ h)
    omega
  · rw [hs] at h
    exact (List.cons.inj (hlow _ _ h)).2

end CertificateDag

/-- The watermark of an author is the highest round committed for it, kept only above
the garbage collection round. -/
@[ext] structure View where
  protocol : Bullshark
  gcDepth : Nat
  committedRound : Nat
  committedRound_even : committedRound % 2 = 0
  watermark : Nat → Nat
  last : Option CommittedSubDag

def dropBelow (gcRound w : Nat) : Nat := if w ≤ gcRound then 0 else w

theorem dropBelow_max {g g' : Nat} (h : g ≤ g') (w m : Nat) :
    dropBelow g' (max (dropBelow g w) m) = dropBelow g' (max w m) := by
  unfold dropBelow
  grind

namespace View

variable [StdRng] {com : Committee} (G : CertificateDag com) (v : View)

/-- The sub-dag of a leader stays above this round. With a garbage collection depth of
zero the depth does not bound it, but the rounds up to the last commit are gone. -/
def floor (leader : Certificate) : Nat :=
  if v.gcDepth = 0 then v.committedRound else leader.round - v.gcDepth

def SubDagEdge (leader x y : Certificate) : Prop :=
  G.Parent x y ∧ v.floor leader < y.round ∧ v.watermark y.origin < y.round

def InSubDag (leader : Certificate) : Certificate → Prop :=
  Relation.ReflTransGen (SubDagEdge G v leader) leader

structure IsSubDag (leader : Certificate) (certs : List Certificate) : Prop where
  sorted : certs.Pairwise Certificate.SortedBefore
  nodup : certs.Nodup
  mem_iff : ∀ c, c ∈ certs ↔ InSubDag G v leader c

/-- A leader above the last commit with enough support to commit the chain below it. -/
structure Anchor (a : Certificate) : Prop where
  leader : G.LeaderAt v.protocol.leaderSchedule a.round a
  supported : G.Supported a
  even : a.round % 2 = 0
  above : v.committedRound < a.round

def NextLeader (leader : Certificate) : Prop :=
  ∃ a, v.Anchor G a ∧
    (G.leaderChain v.protocol.leaderSchedule v.committedRound a).head? = some leader

structure Step (v : View) (d : CommittedSubDag) (v' : View) : Prop where
  leader : v.NextLeader G d.leader
  subDag : v.IsSubDag G d.leader d.certificates
  eq_new : d = .new d.certificates d.leader
    (v.protocol.nextScores v.last d.certificates d.leader.nonce) v.last
  schedule : ∃ changed,
    v.protocol.updateLeaderSchedule d.leader.round d.reputationScore = .ok (changed, v'.protocol)
  gcDepth : v'.gcDepth = v.gcDepth
  committedRound : v'.committedRound = d.leader.round
  watermark : v'.watermark = fun a =>
    dropBelow (d.leader.round - v.gcDepth) (max (v.watermark a) (lastRoundOf d.certificates a))
  last : v'.last = some d

omit [StdRng] in
theorem floor_cases (leader : Certificate) : (v.gcDepth = 0 ∧ v.floor leader = v.committedRound) ∨
      (0 < v.gcDepth ∧ v.floor leader = leader.round - v.gcDepth) := by
  unfold floor
  split <;> omega

variable {G v} {ldr : Certificate}

omit [StdRng] in
theorem InSubDag.path {c : Certificate} (h : InSubDag G v ldr c) : G.Path ldr c := by
  induction h with
  | refl => exact .refl
  | tail _ he ih => exact .tail ih he.1

theorem NextLeader.mem (h : v.NextLeader G ldr) :
    G.LeaderAt v.protocol.leaderSchedule ldr.round ldr ∧ v.committedRound < ldr.round ∧
      ldr.round % 2 = 0 := by
  obtain ⟨a, ha, hhead⟩ := h
  obtain ⟨rest, hrest⟩ := List.head?_eq_some_iff.mp hhead
  rcases CertificateDag.leaderChain_spec _ hrest with ⟨rfl, -⟩ | ⟨hr, hl, -, -⟩
  · exact ⟨ha.leader, ha.above, ha.even⟩
  · obtain ⟨h1, h2, h3⟩ := mem_leaderRounds hr
    exact ⟨hl, by omega, h3.trans ha.even⟩

theorem NextLeader.unique {l m : Certificate} (hl : v.NextLeader G l) (hm : v.NextLeader G m) :
    l = m := by
  obtain ⟨a, ha, hla⟩ := hl
  obtain ⟨b, hb, hmb⟩ := hm
  wlog hab : a.round ≤ b.round generalizing a b l m
  · exact (this b hb hmb a ha hla (by omega)).symm
  have heven := v.committedRound_even
  have hodd := ha.even
  have habv := ha.above
  rcases Nat.eq_or_lt_of_le hab with heq | hlt
  · obtain rfl := ha.leader.eq (heq ▸ hb.leader)
    exact Option.some.inj (hla.symm.trans hmb)
  · have hk : v.committedRound + 2 ≤ a.round := by omega
    obtain ⟨later, hthrough⟩ := CertificateDag.leaderChain_through hk ha.leader
      ha.supported hb.leader.1 hlt (ha.even.trans hb.even.symm)
    rw [hthrough, List.head?_append_of_ne_nil _ (CertificateDag.leaderChain_ne_nil _ _)] at hmb
    exact Option.some.inj (hla.symm.trans hmb)

omit [StdRng] in
theorem IsSubDag.unique {l m : List Certificate} (hldr : ldr ∈ G.certs)
    (hl : v.IsSubDag G ldr l) (hm : v.IsSubDag G ldr m) : l = m := by
  have hperm : l.Perm m := (List.perm_ext_iff_of_nodup hl.nodup hm.nodup).mpr fun c =>
    (hl.mem_iff c).trans (hm.mem_iff c).symm
  refine List.Perm.eq_of_pairwise (fun a b ha hb hab hba => ?_) hl.sorted hm.sorted hperm
  unfold Certificate.SortedBefore at hab hba
  exact G.digest_inj a (((hl.mem_iff a).mp ha).path.mem hldr) b
    (((hm.mem_iff b).mp hb).path.mem hldr) (by omega)

theorem step_deterministic : Trace.Deterministic (Step (G := G)) := by
  intro v d w d' w' h h'
  have hldr : d.leader = d'.leader := h.leader.unique h'.leader
  have hcs : d.certificates = d'.certificates := h.subDag.unique h.leader.mem.1.1 (hldr ▸ h'.subDag)
  have hd : d = d' := by rw [h.eq_new, h'.eq_new, hldr, hcs]
  subst hd
  refine ⟨rfl, View.ext ?_ ?_ ?_ ?_ ?_⟩
  · obtain ⟨c, hc⟩ := h.schedule
    obtain ⟨c', hc'⟩ := h'.schedule
    exact (Prod.mk.inj (Except.ok.inj (hc.symm.trans hc'))).2
  · rw [h.gcDepth, h'.gcDepth]
  · rw [h.committedRound, h'.committedRound]
  · rw [h.watermark, h'.watermark]
  · rw [h.last, h'.last]

end View

end Axyl
