import Axyl.Types.ConsensusHeader

/-! The consensus chain on disk and what recovery reads from it. -/

namespace Axyl
open List
open Std (ExtTreeMap)
open Std.ExtTreeMap

theorem eq_of_increasing {l l' : List ConsensusHeader}
    (h : l.Pairwise fun x y => x.number < y.number) (h' : l'.Pairwise fun x y => x.number < y.number)
    (hmem : ∀ x, x ∈ l ↔ x ∈ l') : l = l' := by
  have hnd : ∀ {l : List ConsensusHeader}, l.Pairwise (fun x y => x.number < y.number) →
      l.Nodup := by
    intro l hl
    refine hl.imp ?_
    rintro x _ hlt rfl
    omega
  apply List.Perm.eq_of_pairwise (fun x y _ _ hlt hgt => absurd hgt (Nat.not_lt_of_gt hlt)) h h'
  exact (perm_ext_iff_of_nodup (hnd h) (hnd h')).mpr hmem

abbrev ConsensusBlocks := ExtTreeMap Nat ConsensusHeader

def getConsensusByNumber (blocks cache : ConsensusBlocks) (number : Nat) : Option ConsensusHeader :=
  blocks[number]?.or cache[number]?

namespace ConsensusBlocks

def headers (blocks : ConsensusBlocks) : List ConsensusHeader := blocks.toList.map Prod.snd

def subDags (blocks : ConsensusBlocks) : List CommittedSubDag :=
  blocks.headers.map ConsensusHeader.subDag

def Keyed (blocks : ConsensusBlocks) : Prop :=
  ∀ (n : Nat) (header : ConsensusHeader), blocks[n]? = some header → header.number = n

def readLastCommitted (blocks : ConsensusBlocks) (epoch : Nat) : ExtTreeMap Nat Nat :=
  (((blocks.subDags.reverse.take 50).filter fun d => d.leaderEpoch = epoch).flatMap fun d =>
    d.leader :: d.certificates).foldl raiseRound ∅

def getLatestSubDag (blocks : ConsensusBlocks) : Option CommittedSubDag := blocks.subDags.getLast?

def latestFinal (epoch : Nat) : List CommittedSubDag → Option CommittedSubDag
  | [] => none
  | commit :: earlier =>
    if commit.leaderEpoch < epoch then none
    else if commit.reputationScore.finalOfSchedule then some commit
    else latestFinal epoch earlier

def readLatestCommitWithFinalReputationScores (blocks : ConsensusBlocks) (epoch : Nat) :
    Option CommittedSubDag := latestFinal epoch blocks.subDags.reverse

namespace Keyed

variable {bs : ConsensusBlocks} {header : ConsensusHeader}

section
variable (h : bs.Keyed)
include h

theorem mem_headers : header ∈ bs.headers ↔ bs[header.number]? = some header := by
  rw [headers, mem_map]
  constructor
  · rintro ⟨⟨n, x⟩, hmem, rfl⟩
    have hget := mem_toList_iff_getElem?_eq_some.mp hmem
    rw [h n x hget]
    exact hget
  · intro hget
    exact ⟨(header.number, header), mem_toList_iff_getElem?_eq_some.mpr hget, rfl⟩

theorem getElem?_eq_some {n : Nat} :
    bs[n]? = some header ↔ header ∈ bs.headers ∧ header.number = n := by
  rw [h.mem_headers]
  constructor
  · intro hget
    obtain rfl := h n header hget
    exact ⟨hget, rfl⟩
  · rintro ⟨hget, rfl⟩
    exact hget

theorem pairwise_headers : bs.headers.Pairwise fun x y => x.number < y.number := by
  rw [headers, pairwise_map]
  refine ExtTreeMap.ordered_keys_toList.imp_of_mem ?_
  rintro ⟨n, x⟩ ⟨n', y⟩ hx hy hlt
  have hxn := h n x (mem_toList_iff_getElem?_eq_some.mp hx)
  have hyn := h n' y (mem_toList_iff_getElem?_eq_some.mp hy)
  have hlt : n < n' := Nat.compare_eq_lt.mp hlt
  change x.number < y.number
  omega

theorem insert (header : ConsensusHeader) : Keyed (bs.insert header.number header) := by
  intro n x hx
  rw [ExtTreeMap.getElem?_insert] at hx
  split at hx
  · next heq =>
    cases hx
    exact Nat.compare_eq_eq.mp heq
  · exact h n x hx

theorem erase (num : Nat) : Keyed (bs.erase num) := by
  intro n x hx
  rw [getElem?_erase] at hx
  split at hx
  · cases hx
  · exact h n x hx

theorem headers_insert (hlast : ∀ x ∈ bs.headers, x.number < header.number) :
    ConsensusBlocks.headers (bs.insert header.number header) = bs.headers ++ [header] := by
  refine eq_of_increasing (h.insert header).pairwise_headers ?_ fun x => ?_
  · refine pairwise_append.mpr ⟨h.pairwise_headers, pairwise_singleton _ _, ?_⟩
    intro x hx y hy
    rw [mem_singleton.mp hy]
    exact hlast x hx
  · rw [(h.insert header).mem_headers, ExtTreeMap.getElem?_insert, mem_append,
      mem_singleton, h.mem_headers]
    constructor
    · intro hx
      split at hx
      · cases hx
        exact .inr rfl
      · exact .inl hx
    · rintro (hx | rfl)
      · have hlt := hlast x (h.mem_headers.mpr hx)
        rw [if_neg fun heq => ne_of_gt hlt (Nat.compare_eq_eq.mp heq)]
        exact hx
      · rw [if_pos (Nat.compare_eq_eq.mpr rfl)]

theorem le_getLast? (hlast : bs.headers.getLast? = some header) :
    ∀ x ∈ bs.headers, x.number ≤ header.number := by
  obtain ⟨init, heq⟩ := getLast?_eq_some_iff.mp hlast
  have hsort := h.pairwise_headers
  rw [heq] at hsort ⊢
  intro x hx
  rcases mem_append.mp hx with hx | hx
  · exact le_of_lt ((pairwise_append.mp hsort).2.2 x hx header mem_cons_self)
  · rw [mem_singleton.mp hx]

end

end Keyed

structure EpochChain (blocks : ConsensusBlocks) (epoch : Nat) (older ds : List CommittedSubDag) :
    Prop where
  subDags_eq : blocks.subDags = older ++ ds
  older_lt : ∀ d ∈ older, d.leaderEpoch < epoch
  epoch_eq : ∀ d ∈ ds, d.leaderEpoch = epoch

namespace EpochChain

variable {bs : ConsensusBlocks} {ep : Nat} {old ds : List CommittedSubDag}

section
variable (h : EpochChain bs ep old ds)
include h

theorem getD_readLastCommitted (a : Nat) : (bs.readLastCommitted ep)[a]?.getD 0 =
      lastRoundOf ((ds.reverse.take 50).flatMap fun d => d.leader :: d.certificates) a := by
  have hkeep : (ds.reverse.take 50).filter (fun d => d.leaderEpoch = ep) = ds.reverse.take 50 := by
    apply filter_eq_self.mpr
    intro d hd
    simpa using h.epoch_eq d (mem_reverse.mp (mem_of_mem_take hd))
  have hdrop : ∀ n, (old.reverse.take n).filter (fun d => d.leaderEpoch = ep) = [] := by
    intro n
    apply filter_eq_nil_iff.mpr
    intro d hd
    have := h.older_lt d (mem_reverse.mp (mem_of_mem_take hd))
    simp
    omega
  rw [readLastCommitted, h.subDags_eq, reverse_append, take_append, filter_append,
    hkeep, hdrop, getD_foldl_raiseRound]
  simp

theorem getLatestSubDag_filter :
    (bs.getLatestSubDag.filter fun d => ep ≤ d.leaderEpoch) = ds.getLast? := by
  rw [getLatestSubDag, h.subDags_eq]
  rcases eq_nil_or_concat ds with rfl | ⟨init, d, rfl⟩
  · rw [append_nil]
    cases hlast : old.getLast? with
    | none => rfl
    | some d =>
      have := h.older_lt d (mem_of_getLast? hlast)
      simp
      omega
  · have := h.epoch_eq d (by simp)
    simp [this]

theorem readLatestCommit_eq : bs.readLatestCommitWithFinalReputationScores ep =
      ds.reverse.find? fun d => d.reputationScore.finalOfSchedule := by
  have hscan : ∀ l : List CommittedSubDag, (∀ d ∈ l, d.leaderEpoch = ep) →
      latestFinal ep (l ++ old.reverse) = l.find? fun d => d.reputationScore.finalOfSchedule := by
    intro l
    induction l with
    | nil =>
      intro _
      cases hold : old.reverse with
      | nil => rfl
      | cons d earlier =>
        have := h.older_lt d (mem_reverse.mp (hold ▸ mem_cons_self))
        simp [latestFinal, this]
    | cons d l ih =>
      intro hl
      obtain ⟨hd, hl⟩ := forall_mem_cons.mp hl
      rw [cons_append, latestFinal, if_neg (by omega), List.find?_cons, ih hl]
      cases d.reputationScore.finalOfSchedule <;> rfl
  rw [readLatestCommitWithFinalReputationScores, h.subDags_eq, reverse_append]
  apply hscan
  intro d hd
  exact h.epoch_eq d (mem_reverse.mp hd)

end

end EpochChain

end ConsensusBlocks

end Axyl
