import Axyl.Consensus.Recovery
import Axyl.Consensus.CertificateDag
import Mathlib.Data.Set.Function

/-! What the digests of the consensus chain fix of the leader schedule. They cover the
certificates, the leader and the timestamp of every sub-dag, but not its scores. -/

namespace Axyl
open ConsensusBlocks List HashFunction LeaderSchedule Certificate Function
open Std (ExtTreeMap)

structure CommittedSubDag.DrawnFrom (C : Set Certificate) (d : CommittedSubDag) : Prop where
  leader : d.leader ∈ C
  certificates : ∀ c ∈ d.certificates, c ∈ C

theorem eq_of_map_digest_eq {C : Set Certificate} (hC : C.InjOn digest) {l m : List Certificate}
    (hl : ∀ c ∈ l, c ∈ C) (hm : ∀ c ∈ m, c ∈ C) (h : l.map digest = m.map digest) : l = m := by
  induction l generalizing m with
  | nil => exact (map_eq_nil_iff.mp h.symm).symm
  | cons c l ih =>
    cases m with
    | nil => cases h
    | cons d m =>
      obtain ⟨hhead, htail⟩ := List.cons.inj h
      obtain ⟨hc, hl⟩ := forall_mem_cons.mp hl
      obtain ⟨hd, hm⟩ := forall_mem_cons.mp hm
      rw [hC hc hd hhead, ih hl hm htail]

section
variable [HashFunction] {C : Set Certificate}

theorem CommittedSubDag.eq_of_digest_eq (hhash : Injective hash)
    (hC : C.InjOn Certificate.digest) {d d' : CommittedSubDag} (hd : d.DrawnFrom C)
    (hd' : d'.DrawnFrom C) (h : d.digest = d'.digest) :
    d' = { d with reputationScore := d'.reputationScore } := by
  obtain ⟨hcs, htail⟩ := append_inj' (hhash h) rfl
  have hldr : d.leader = d'.leader := hC hd.leader hd'.leader (List.cons.inj htail).1
  have hstm : d.commitTimestamp = d'.commitTimestamp := by simpa using (List.cons.inj htail).2
  have hlist : d.certificates = d'.certificates :=
    eq_of_map_digest_eq hC hd.certificates hd'.certificates hcs
  rw [hldr, hstm, hlist]

/-- Two rows with one number and one digest, and one score if they belong to the epoch. -/
structure AgreedRow (epoch : Nat) (e e' : Nat × ConsensusHeader) : Prop where
  number : e.1 = e'.1
  digest : e.2.digest = e'.2.digest
  scores : epoch ≤ e.2.subDag.leaderEpoch →
    e.2.subDag.reputationScore = e'.2.subDag.reputationScore

def AgreedSubDag (epoch : Nat) (d d' : CommittedSubDag) : Prop :=
  d.leaderEpoch = d'.leaderEpoch ∧ (epoch ≤ d.leaderEpoch → d = d')

theorem AgreedRow.subDag (hhash : Injective hash) (hC : C.InjOn Certificate.digest) {epoch : Nat}
    {e e' : Nat × ConsensusHeader} (h : AgreedRow epoch e e') (hd : e.2.subDag.DrawnFrom C)
    (hd' : e'.2.subDag.DrawnFrom C) : AgreedSubDag epoch e.2.subDag e'.2.subDag := by
  have heq := CommittedSubDag.eq_of_digest_eq hhash hC hd hd'
    (ConsensusHeader.eq_of_digest_eq hhash h.digest).2.1
  refine ⟨?_, fun hep => ?_⟩
  · rw [heq]
    rfl
  · rw [heq, ← h.scores hep]

theorem AgreedRow.subDags (hhash : Injective hash) (hC : C.InjOn Certificate.digest) {epoch : Nat}
    {rows rows' : List (Nat × ConsensusHeader)} (h : List.Forall₂ (AgreedRow epoch) rows rows')
    (hd : ∀ e ∈ rows, e.2.subDag.DrawnFrom C) (hd' : ∀ e ∈ rows', e.2.subDag.DrawnFrom C) :
    List.Forall₂ (AgreedSubDag epoch) (rows.map fun e => e.2.subDag)
      (rows'.map fun e => e.2.subDag) := by
  induction h with
  | nil => exact .nil
  | cons he _ ih =>
    obtain ⟨hc, hd⟩ := forall_mem_cons.mp hd
    obtain ⟨hc', hd'⟩ := forall_mem_cons.mp hd'
    exact .cons (he.subDag hhash hC hc hc') (ih hd hd')

end

namespace ConsensusBlocks

theorem subDags_eq_map (bs : ConsensusBlocks) : bs.subDags = bs.toList.map fun e => e.2.subDag := by
  rw [subDags, headers, map_map]
  rfl

variable {ep : Nat} {l l' : List CommittedSubDag}

theorem latestFinal_eq (h : List.Forall₂ (AgreedSubDag ep) l l') :
    latestFinal ep l = latestFinal ep l' := by
  induction h with
  | nil => rfl
  | @cons d d' l l' hd _ ih =>
    obtain ⟨hep, heq⟩ := hd
    unfold latestFinal
    by_cases hlt : d.leaderEpoch < ep
    · rw [if_pos hlt, if_pos (hep ▸ hlt)]
    · obtain rfl := heq (by omega)
      rw [if_neg hlt, if_neg hlt, ih]

theorem head?_filter_eq (h : List.Forall₂ (AgreedSubDag ep) l l') :
    (l.head?.filter fun d => ep ≤ d.leaderEpoch) =
      l'.head?.filter fun d => ep ≤ d.leaderEpoch := by
  cases h with
  | nil => rfl
  | @cons d d' l l' hd _ =>
    obtain ⟨hep, heq⟩ := hd
    by_cases hle : ep ≤ d.leaderEpoch
    · obtain rfl := heq hle
      rfl
    · have hle' : ¬ ep ≤ d'.leaderEpoch := hep ▸ hle
      simp [Option.filter, hle, hle']

end ConsensusBlocks

section
variable [HashFunction] [StdRng]

/-- Chains with the same numbers and digests, and with the same scores in the blocks of the
epoch, give the same leaders and the same next scores. -/
theorem fromStore_determined (hhash : Injective hash) {C : Set Certificate}
    (hC : C.InjOn Certificate.digest) (committee : Committee) (threshold : Nat)
    {blocks blocks' : ConsensusBlocks} (hd : ∀ d ∈ blocks.subDags, d.DrawnFrom C)
    (hd' : ∀ d ∈ blocks'.subDags, d.DrawnFrom C)
    (hrows : List.Forall₂ (AgreedRow committee.epoch) blocks.toList blocks'.toList) :
    (∀ round, (fromStore committee blocks threshold >>= (·.leader round)) =
      (fromStore committee blocks' threshold >>= (·.leader round))) ∧
    ∀ (b : Bullshark) (state state' : ConsensusState) (sequence : List Certificate) (index : Nat),
      state.lastCommittedSubDag =
        (blocks.getLatestSubDag.filter fun d => committee.epoch ≤ d.leaderEpoch) →
      state'.lastCommittedSubDag =
        (blocks'.getLatestSubDag.filter fun d => committee.epoch ≤ d.leaderEpoch) →
      b.resolveReputationScore state sequence index =
        b.resolveReputationScore state' sequence index := by
  have hagreed : List.Forall₂ (AgreedSubDag committee.epoch) blocks.subDags.reverse
      blocks'.subDags.reverse := by
    rw [forall₂_reverse_iff, subDags_eq_map, subDags_eq_map]
    rw [subDags_eq_map] at hd hd'
    exact AgreedRow.subDags hhash hC hrows (forall_mem_map.mp hd) (forall_mem_map.mp hd')
  have hlatest := latestFinal_eq hagreed
  refine ⟨fun round => ?_, fun b state state' sequence index hs hs' => ?_⟩
  · simp only [fromStore, ConsensusBlocks.readLatestCommitWithFinalReputationScores, hlatest]
  · have hlast : state.lastCommittedSubDag = state'.lastCommittedSubDag := by
      have := ConsensusBlocks.head?_filter_eq hagreed
      rw [List.head?_reverse, List.head?_reverse] at this
      rw [hs, hs']
      exact this
    simp only [Bullshark.resolveReputationScore, hlast]

end

def scoredLeader (epoch : Nat) : Certificate := ⟨⟨0, 2, epoch, 2, [], [], epoch⟩⟩

def scoredRow (epoch : Nat) (scores : List (Nat × Nat)) : Nat × ConsensusHeader :=
  (epoch, ⟨0, .new [scoredLeader epoch] (scoredLeader epoch) ⟨ExtTreeMap.ofList scores, true⟩ none,
    epoch⟩)

def scoredBlocks (rows : List (List (Nat × Nat))) : ConsensusBlocks :=
  ExtTreeMap.ofList (rows.mapIdx scoredRow)

/-- The blocks of an earlier epoch differ in their scores, that of the epoch does not. -/
theorem fromStore_determined_scored :
    letI := StdRng.first
    letI := encode
    let committee : Committee := { fourAuthorities with epoch := 1 }
    let blocks := scoredBlocks [[(0, 0), (1, 9), (2, 9), (3, 9)], [(0, 9), (1, 0), (2, 9), (3, 9)]]
    let blocks' := scoredBlocks [[(0, 9), (1, 9), (2, 9), (3, 0)], [(0, 9), (1, 0), (2, 9), (3, 9)]]
    List.Forall₂ (AgreedRow 1) blocks.toList blocks'.toList ∧ blocks ≠ blocks' ∧
    (∀ round, (fromStore committee blocks 33 >>= (·.leader round)) =
      (fromStore committee blocks' 33 >>= (·.leader round))) := by
  let _ := StdRng.first
  let _ := encode
  intro committee blocks blocks'
  have hC : (Set.range scoredLeader).InjOn digest := by
    rintro _ ⟨epoch, rfl⟩ _ ⟨epoch', rfl⟩ h
    exact congrArg scoredLeader h
  have hlist : ∀ first last, (scoredBlocks [first, last]).toList =
    [scoredRow 0 first, scoredRow 1 last] := fun _ _ => rfl
  have hdrawn : ∀ first last, ∀ d ∈ (scoredBlocks [first, last]).subDags,
      d.DrawnFrom (Set.range scoredLeader) := by
    intro first last d hd
    have hrow : ∀ epoch scores, (scoredRow epoch scores).2.subDag.DrawnFrom (Set.range scoredLeader) :=
      fun epoch _ => ⟨⟨epoch, rfl⟩, forall_mem_singleton.mpr ⟨epoch, rfl⟩⟩
    rw [subDags_eq_map, hlist] at hd
    rcases mem_pair.mp hd with rfl | rfl
    · exact hrow 0 first
    · exact hrow 1 last
  have hrows : List.Forall₂ (AgreedRow 1) blocks.toList blocks'.toList := by
    rw [hlist, hlist]
    exact .cons ⟨rfl, rfl, fun h => absurd h (by decide)⟩ (.cons ⟨rfl, rfl, fun _ => rfl⟩ .nil)
  refine ⟨hrows, by decide +kernel, ?_⟩
  exact (fromStore_determined Encodable.encode_injective hC committee 33 (hdrawn _ _) (hdrawn _ _)
    hrows).1

/-- Two chains with equal digests whose last scores differ: the leader of round two is
another one, and so are the next scores. -/
theorem fromStore_scores_undetermined :
    letI := StdRng.first
    letI := encode
    let blocks := scoredBlocks [[(0, 0), (1, 9), (2, 9), (3, 9)]]
    let blocks' := scoredBlocks [[(0, 9), (1, 9), (2, 9), (3, 0)]]
    let bullshark : Bullshark := ⟨fourAuthorities, 60, ⟨fourAuthorities, .default⟩, 33⟩
    let state : ConsensusBlocks → ConsensusState := fun blocks =>
      { ConsensusState.new 50 with lastCommittedSubDag := blocks.getLatestSubDag }
    Injective hash ∧
    List.Forall₂ (fun e e' : Nat × ConsensusHeader => e.1 = e'.1 ∧ e.2.digest = e'.2.digest)
      blocks.toList blocks'.toList ∧
    (fromStore fourAuthorities blocks 33 >>= (·.leader 2)).toOption ≠
      (fromStore fourAuthorities blocks' 33 >>= (·.leader 2)).toOption ∧
    (bullshark.resolveReputationScore (state blocks) [] 4).toOption ≠
      (bullshark.resolveReputationScore (state blocks') [] 4).toOption := by
  let _ := StdRng.first
  let _ := encode
  intro blocks blocks' bullshark state
  exact ⟨Encodable.encode_injective, .cons ⟨rfl, rfl⟩ .nil, by decide +kernel, by decide +kernel⟩

end Axyl
