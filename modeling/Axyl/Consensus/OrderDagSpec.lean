import Axyl.Consensus.SoundDag

/-! On a sound dag `order_dag` returns exactly the sub-dag of the leader. The effect of `update` on
the state, for one certificate and for a whole sub-dag. -/

namespace Axyl
open ConsensusState
open Std (ExtTreeMap)

def Consensus.view (n : Consensus) (h : n.state.lastRound.committedRound % 2 = 0) : View where
  protocol := n.protocol
  gcDepth := n.state.gcDepth
  committedRound := n.state.lastRound.committedRound
  committedRound_even := h
  watermark := fun a => dropBelow n.state.lastRound.gcRound (n.state.lastCommitted[a]?.getD 0)
  last := n.state.lastCommittedSubDag

theorem alreadyCommitted_eq_false {state : ConsensusState} {c : Certificate} {gcRound : Nat}
    (hc : gcRound < c.round) : state.alreadyCommitted c = false ↔
      dropBelow gcRound (state.lastCommitted[c.origin]?.getD 0) < c.round := by
  unfold ConsensusState.alreadyCommitted dropBelow
  cases state.lastCommitted[c.origin]? with
  | none => simp; omega
  | some w =>
    simp only [Option.any_some, decide_eq_false_iff_not, Option.getD_some]
    split <;> omega

section
variable {com : Committee} {G : CertificateDag com} {n : Consensus} {g : Nat}
  {ldr : Certificate} (heven : n.state.lastRound.committedRound % 2 = 0)
  (hgc : n.state.lastRound.gcRound = n.state.lastRound.committedRound - n.state.gcDepth)
  (habove : n.state.lastRound.committedRound < ldr.round)
  (hg : n.state.lastRound.gcRound ≤ g) (hgf : g ≤ (n.view heven).floor ldr)
  (hs : SoundDag G g n.state.dag) (hl : n.state.dag.Holds ldr)

include hgc habove

theorem floor_bounds : n.state.lastRound.gcRound ≤ (n.view heven).floor ldr ∧
    (n.view heven).floor ldr < ldr.round := by
  rcases (n.view heven).floor_cases ldr with ⟨h0, hf⟩ | ⟨h0, hf⟩ <;>
    simp only [Consensus.view] at h0 hf ⊢ <;> omega

include hg hgf hs

variable {c : Certificate}

theorem mem_expand_iff {x : Certificate} (hx : n.state.dag.Holds x) (hxl : x.round ≤ ldr.round)
    (hxf : (n.view heven).floor ldr < x.round) :
    c ∈ n.state.expand (ldr.round - n.state.gcDepth) x ↔ (n.view heven).SubDagEdge G ldr x c := by
  have hfloor := (n.view heven).floor_cases ldr
  change (n.state.gcDepth = 0 ∧ _ = n.state.lastRound.committedRound) ∨
    (0 < n.state.gcDepth ∧ _ = ldr.round - n.state.gcDepth) at hfloor
  rw [mem_expand]
  constructor
  · rintro ⟨hne, ⟨p, hp, hd⟩, hw⟩
    obtain ⟨hc, hcr, rfl⟩ := hs.withDigest_eq_some.mp hd
    have hcg := hs.above hc
    exact ⟨⟨(hs.mem hc).1, hp, by omega⟩, by omega,
      (alreadyCommitted_eq_false (by omega)).mp hw⟩
  · rintro ⟨hp, hcf, hw⟩
    have hrnd := hp.2.2
    have hcg : g < c.round := by omega
    exact ⟨by omega, ⟨c.digest, hp.2.1, hs.withDigest_eq_some.mpr
      ⟨hs.closed hx hp hcg, by omega, rfl⟩⟩, (alreadyCommitted_eq_false (by omega)).mpr hw⟩

include hl

omit hg in
theorem holds_of_inSubDag (h : (n.view heven).InSubDag G ldr c) :
    n.state.dag.Holds c ∧ c.round ≤ ldr.round ∧ (n.view heven).floor ldr < c.round := by
  have hfloor : (n.view heven).floor ldr < c.round := by
    cases h with
    | refl => exact (floor_bounds heven hgc habove).2
    | tail _ he => exact he.2.1
  exact ⟨hs.holds_of_path hl h.path (by omega), h.path.round_le, hfloor⟩

theorem reachable_expand_iff :
    Search.Reachable (n.state.expand (ldr.round - n.state.gcDepth)) ldr c ↔
      (n.view heven).InSubDag G ldr c := by
  constructor
  · intro h
    induction h with
    | refl => exact .refl
    | tail _ he ih =>
      obtain ⟨hx, hxl, hxf⟩ := holds_of_inSubDag heven hgc habove hgf hs hl ih
      exact .tail ih ((mem_expand_iff heven hgc habove hg hgf hs hx hxl hxf).mp he)
  · intro h
    induction h with
    | refl => exact .refl
    | tail hx he ih =>
      obtain ⟨hx, hxl, hxf⟩ := holds_of_inSubDag heven hgc habove hgf hs hl hx
      exact .tail ih ((mem_expand_iff heven hgc habove hg hgf hs hx hxl hxf).mpr he)

theorem orderDag_spec : ∃ certs, orderDag ldr n.state = .ok certs ∧
    (n.view heven).IsSubDag G ldr certs := by
  have hreach := fun c => reachable_expand_iff (c := c) heven hgc habove hg hgf hs hl
  obtain ⟨l, hl', hnd, hmem⟩ := Search.search_spec Certificate.digest
    (n.state.expand (ldr.round - n.state.gcDepth)) n.state.dagDigests ldr Certificate.round
    (fun x c hc => by
      obtain ⟨-, ⟨p, -, hd⟩, -⟩ := mem_expand.mp hc
      obtain ⟨hc, hcr, -⟩ := hs.withDigest_eq_some.mp hd
      have := hs.above hc
      omega)
    (fun x c hc => by
      obtain ⟨-, ⟨p, -, hd⟩, -⟩ := mem_expand.mp hc
      exact mem_dagDigests (hs.withDigest_eq_some.mp hd).1)
    (Nat.lt_succ_self _)
    (fun x y hx hy hxy => by
      rw [hreach] at hx hy
      exact G.digest_inj x (hx.path.mem (hs.mem hl).1) y (hy.path.mem (hs.mem hl).1) hxy)
  have hrnd : ¬ (l.any fun x => x.round = 0 ∧ x.parents ≠ []) = true := by
    simp only [List.any_eq_true, decide_eq_true_eq, not_exists, not_and]
    intro x hx h0
    have := hs.above (holds_of_inSubDag heven hgc habove hgf hs hl
      ((hreach x).mp ((hmem x).mp hx))).1
    omega
  refine ⟨l.insertionSort Certificate.SortedBefore, ?_, ?_⟩
  · rw [orderDag, if_neg (by omega), hl']
    simp only [if_neg hrnd]
  · refine ⟨List.pairwise_insertionSort _ _,
      (List.perm_insertionSort _ _).nodup_iff.mpr (List.Nodup.of_map _ hnd), fun c => ?_⟩
    rw [List.mem_insertionSort, hmem, hreach]

end

namespace ConsensusState

def GcConsistent (state : ConsensusState) : Prop :=
  state.lastRound.gcRound = state.lastRound.committedRound - state.gcDepth

/-- What updating with the certificates of a list does, field by field. -/
structure Updated (state : ConsensusState) (certs : List Certificate) (state' : ConsensusState) :
    Prop where
  gcConsistent : state'.GcConsistent
  gcDepth : state'.gcDepth = state.gcDepth
  lastCommittedSubDag : state'.lastCommittedSubDag = state.lastCommittedSubDag
  lastCommitted : ∀ a : Nat, state'.lastCommitted[a]?.getD 0 =
    max (state.lastCommitted[a]?.getD 0) (lastRoundOf certs a)
  committedRound : ∀ r, state'.lastRound.committedRound ≤ r ↔
    state.lastRound.committedRound ≤ r ∧ ∀ c ∈ certs, c.round ≤ r
  dag : ∀ r, state'.lastRound.gcRound < r → state'.dag[r]? = state.dag[r]?

variable {state state' : ConsensusState} {cs : List Certificate}

theorem Updated.gcRound_le (h : Updated state cs state') (hs : state.GcConsistent) :
    state.lastRound.gcRound ≤ state'.lastRound.gcRound := by
  have hle := ((h.committedRound state'.lastRound.committedRound).mp (le_refl _)).1
  have hgc := h.gcConsistent
  unfold GcConsistent at hs hgc
  rw [hgc, h.gcDepth]
  omega

theorem Updated.committedRound_eq (h : Updated state cs state') {leader : Certificate}
    (hldr : leader ∈ cs) (hbef : state.lastRound.committedRound ≤ leader.round)
    (hle : ∀ c ∈ cs, c.round ≤ leader.round) : state'.lastRound.committedRound = leader.round := by
  apply le_antisymm
  · exact (h.committedRound _).mpr ⟨hbef, hle⟩
  · exact ((h.committedRound _).mp (le_refl _)).2 leader hldr

theorem updated_nil (hs : state.GcConsistent) : Updated state [] state where
  gcConsistent := hs
  gcDepth := rfl
  lastCommittedSubDag := rfl
  lastCommitted := by simp [lastRoundOf]
  committedRound := by simp
  dag := fun _ _ => rfl

theorem updated_cons {c : Certificate} (hs : (state.update c).GcConsistent)
    (h : Updated (state.update c) cs state') : Updated state (c :: cs) state' where
  gcConsistent := h.gcConsistent
  gcDepth := h.gcDepth
  lastCommittedSubDag := h.lastCommittedSubDag
  lastCommitted := by
    intro a
    rw [h.lastCommitted, update, getD_raiseRound, lastRoundOf_cons, max_assoc]
  committedRound := by
    intro r
    rw [h.committedRound, List.forall_mem_cons, ← and_assoc]
    refine and_congr_left fun _ => ?_
    exact max_le_iff
  dag := by
    intro r hr
    have hle := h.gcRound_le hs
    rw [h.dag r hr]
    simp only [update] at hle ⊢
    rw [Dag.getElem?_filter_lt, if_pos (by omega)]

theorem update_gcConsistent (state : ConsensusState) (c : Certificate) :
    (state.update c).GcConsistent := rfl

theorem foldl_update_spec (cs : List Certificate) (hs : state.GcConsistent) :
    Updated state cs (cs.foldl update state) := by
  induction cs generalizing state with
  | nil => exact updated_nil hs
  | cons c cs ih =>
    exact updated_cons (update_gcConsistent state c) (ih (update_gcConsistent state c))

variable {com : Committee} {G : CertificateDag com}

theorem foldl_update_soundDag (cs : List Certificate) {g : Nat} (hs : state.GcConsistent)
    (hg : state.lastRound.gcRound ≤ g) (h : SoundDag G g state.dag) :
    SoundDag G (max g (cs.foldl update state).lastRound.gcRound) (cs.foldl update state).dag := by
  induction cs generalizing state g with
  | nil => rwa [List.foldl_nil, max_eq_left hg]
  | cons c cs ih =>
    have hrec := ih (update_gcConsistent state c) (le_max_right g _) (h.filter_lt _)
    have hle := (foldl_update_spec cs (update_gcConsistent state c)).gcRound_le
      (update_gcConsistent state c)
    rwa [max_assoc, max_eq_right hle] at hrec

end ConsensusState

end Axyl
