import Axyl.Consensus.Bullshark

/-! The scores always cover exactly the committee, so that the assertion of
`resolve_reputation_score` holds and a final score always gives a swap table. -/

namespace Axyl
open List
open Std (ExtTreeMap)

namespace ReputationScores

def Covers (committee : Committee) (s : ReputationScores) : Prop :=
  ∀ id, id ∈ s.scoresPerAuthority ↔ committee.IsAuthority id

theorem covers_ofList {committee : Committee} {l : List (Nat × Nat)}
    (h : l.map Prod.fst = committee.ids) (final : Bool) :
    Covers committee ⟨ExtTreeMap.ofList l, final⟩ := by
  intro id
  simp only [ExtTreeMap.mem_ofList, h, contains_iff_mem]
  rfl

theorem covers_new (committee : Committee) : (new committee).Covers committee :=
  covers_ofList (map_map ..) false

variable {committee : Committee} {s : ReputationScores}

theorem Covers.addScore (h : s.Covers committee) {auth : Nat} (score : Nat)
    (ha : committee.IsAuthority auth) : (s.addScore auth score).Covers committee := by
  have hins : ∀ x id, id ∈ s.scoresPerAuthority.insert auth x ↔ committee.IsAuthority id := by
    intro x id
    rw [ExtTreeMap.mem_insert, Nat.compare_eq_eq, h id]
    exact ⟨fun hid => hid.elim (· ▸ ha) fun h => h, .inr⟩
  unfold ReputationScores.addScore
  split
  · exact hins _
  · exact hins _

theorem Covers.totalAuthorities (h : s.Covers committee) : s.totalAuthorities = committee.size := by
  have hperm : s.scoresPerAuthority.keys.Perm committee.ids :=
    (perm_ext_iff_of_nodup ExtTreeMap.nodup_keys committee.ids_nodup).mpr fun id =>
      ExtTreeMap.mem_keys.trans (h id)
  rw [ReputationScores.totalAuthorities, ← ExtTreeMap.length_keys, hperm.length_eq]
  exact length_map _

theorem Covers.ne_empty (h : s.Covers committee) : s.scoresPerAuthority ≠ ∅ := by
  obtain ⟨a, rest, ha⟩ := exists_cons_of_ne_nil committee.nonempty
  have hmem : a.id ∈ s.scoresPerAuthority := (h a.id).mpr (by
    rw [Committee.IsAuthority, Committee.ids, ha]
    exact mem_cons_self)
  rintro he
  simp [he] at hmem

end ReputationScores

namespace Bullshark

variable {committee : Committee} {b : Bullshark} {sequence : List Certificate}
    {scores : ReputationScores}

theorem covers_countVotes {last : Option CommittedSubDag}
    (h : scores.Covers committee) (hs : ∀ c ∈ sequence, committee.IsAuthority c.origin) :
    (countVotes last sequence scores).Covers committee := by
  cases last with
  | none => exact h
  | some last =>
    have hf : ∀ c ∈ sequence.filter fun c =>
        c.round = last.leader.round + 1 ∧ last.leader.digest ∈ c.parents,
        committee.IsAuthority c.origin := fun c hc => hs c (mem_filter.mp hc).1
    simp only [countVotes]
    generalize sequence.filter _ = votes at hf
    induction votes generalizing scores with
    | nil => exact h
    | cons c votes ih =>
      exact ih (h.addScore 1 (hf c mem_cons_self)) fun d hd => hf d (mem_cons_of_mem _ hd)

section
variable (hb : b.committee = committee)
include hb

theorem covers_nextScores (last : Option CommittedSubDag)
    (hlast : ∀ d, last = some d → d.reputationScore.Covers committee)
    (hs : ∀ c ∈ sequence, committee.IsAuthority c.origin) (subDagIndex : Nat) :
    (b.nextScores last sequence subDagIndex).Covers committee := by
  suffices hcarried : (b.carriedScores last subDagIndex).Covers committee from
    covers_countVotes hcarried hs
  unfold carriedScores
  rw [hb]
  split
  · exact ReputationScores.covers_new committee
  split
  · exact hlast _ rfl
  · exact ReputationScores.covers_new committee

theorem resolveReputationScore_eq {st : ConsensusState} {subDagIndex : Nat}
    (h : (b.nextScores st.lastCommittedSubDag sequence subDagIndex).Covers committee) :
    b.resolveReputationScore st sequence subDagIndex =
      .ok (b.nextScores st.lastCommittedSubDag sequence subDagIndex) := by
  simp only [resolveReputationScore, h.totalAuthorities, hb, if_true]

theorem updateLeaderSchedule_ok (ht : b.badNodesStakeThreshold ≤ 33)
    (h : scores.Covers committee) (round : Nat) :
    ∃ table, b.updateLeaderSchedule round scores = .ok (scores.finalOfSchedule,
      { b with leaderSchedule := b.leaderSchedule.updateLeaderSwapTable table }) ∧
      (scores.finalOfSchedule = false → table = b.leaderSchedule.leaderSwapTable) := by
  unfold updateLeaderSchedule
  cases hf : scores.finalOfSchedule with
  | false => exact ⟨b.leaderSchedule.leaderSwapTable, rfl, fun _ => rfl⟩
  | true =>
    obtain ⟨table, htab, -⟩ := LeaderSwapTable.new_cases committee round ht hf h.ne_empty
      fun id hid => (h id).mp hid
    refine ⟨table, ?_, by simp⟩
    simp only [if_true, hb, htab]
    rfl

end

end Bullshark

end Axyl
