import Axyl.Lib.Except
import Axyl.Types.Certificate
import Mathlib.Data.Nat.Sqrt

/-! The leader schedule: round robin over the committee, with the authorities of poor
reputation swapped for authorities of good reputation. -/

namespace Axyl
open ReputationScores
open Std (ExtTreeMap)
open Std.ExtTreeMap

/-- The places where the consensus code stops the process, by a failed assertion, a
failed `expect` or checked arithmetic. `outOfFuel` has no place in the source: it is
the bound the model puts on a loop. -/
inductive Abort where
  | badNodesThreshold
  | scoresNotFinal
  | noScores
  | noGoodNodes
  | oddLeaderRound
  | missingHistory
  | leaderNotInCommittee
  | zeroLeaderRound
  | roundUnderflow
  | scoresIncomplete
  | committedRoundBehindSubDag
  | databaseUnavailable
  | recoveredEquivocation
  | outOfFuel
deriving DecidableEq, Repr

/-- `slice.choose(StdRng::from_seed(seed))`: an index into a slice of length `n + 1`,
determined by the seed and the length. -/
class StdRng where
  choose : Nat → (n : Nat) → Fin (n + 1)

structure LeaderSwapTable where
  round : Nat
  goodNodes : List Authority
  badNodes : ExtTreeMap Nat Authority
  good_of_bad : badNodes ≠ ∅ → goodNodes ≠ []
deriving DecidableEq

namespace LeaderSwapTable

def default : LeaderSwapTable := ⟨0, [], ∅, fun h => absurd rfl h⟩

def meanRep (auths : List (Nat × Nat)) : Nat := (auths.map (·.2)).sum / auths.length

def standardDev (auths : List (Nat × Nat)) : Nat :=
  let mean := meanRep auths
  Nat.sqrt ((auths.map fun a => (((a.2 : Int) - mean) * ((a.2 : Int) - mean)).toNat).sum /
    auths.length)

def nodesAtMost (committee : Committee) (auths : List (Nat × Nat)) (badCeil : Nat) :
    List Authority :=
  auths.reverse.filterMap fun a => if a.2 ≤ badCeil then committee.authority a.1 else none

def nodesAtLeast (committee : Committee) (auths : List (Nat × Nat)) (goodFloor : Nat) :
    List Authority :=
  auths.filterMap fun a => if goodFloor ≤ a.2 then committee.authority a.1 else none

/-- Lowers the ceiling until the list is short enough or the ceiling has bottomed out.
Returns the last ceiling with the list. -/
def badNodesLoop (committee : Committee) (auths : List (Nat × Nat))
    (listThreshold standardDev : Nat) : Nat → Nat → Except Abort (Nat × List Authority)
  | 0, _ => .error .outOfFuel
  | fuel + 1, badCeil =>
    let badNodes := nodesAtMost committee auths badCeil
    if badNodes.length ≤ listThreshold then .ok (badCeil, badNodes)
    else if badCeil = badCeil - standardDev then .ok (badCeil - standardDev, badNodes)
    else badNodesLoop committee auths listThreshold standardDev fuel (badCeil - standardDev)

def goodNodesLoop (committee : Committee) (auths : List (Nat × Nat))
    (listThreshold standardDev badCeil : Nat) : Nat → Nat → Except Abort (List Authority)
  | 0, _ => .error .outOfFuel
  | fuel + 1, goodFloor =>
    let goodNodes := nodesAtLeast committee auths goodFloor
    let next := max (goodFloor - standardDev) (badCeil + 1)
    if listThreshold ≤ goodNodes.length then .ok goodNodes
    else if goodFloor = next then .ok goodNodes
    else goodNodesLoop committee auths listThreshold standardDev badCeil fuel next

def ofNodes (round : Nat) (goodNodes badNodes : List Authority) : Except Abort LeaderSwapTable :=
  if h : badNodes ≠ [] → goodNodes ≠ [] then
    .ok
      { round, goodNodes
        badNodes := ofList (badNodes.map fun a => (a.id, a))
        good_of_bad := fun hb => h fun hn => hb (by rw [hn]; rfl) }
  else .error .noGoodNodes

def ofAuthorities (committee : Committee) (round listThreshold : Nat)
    (auths : List (Nat × Nat)) : Except Abort LeaderSwapTable :=
  let highestRep := (auths.head?.map (·.2)).getD 0
  let lowestRep := (auths.getLast?.map (·.2)).getD 0
  let std := standardDev auths
  if std = 0 ∨ highestRep - 2 * std < lowestRep then
    .ok { default with round }
  else do
    let ceil := highestRep - 2 * std
    let (badCeil, badNodes) ← badNodesLoop committee auths listThreshold std (ceil + 1) ceil
    let floor := max (highestRep - std) (badCeil + 1)
    let goodNodes ← goodNodesLoop committee auths listThreshold std badCeil (floor + 1) floor
    ofNodes round goodNodes badNodes

def new (committee : Committee) (round : Nat) (reputationScores : ReputationScores)
    (badNodesPercentThreshold : Nat) : Except Abort LeaderSwapTable :=
  let auths := reputationScores.authoritiesByScoreDesc
  if 33 < badNodesPercentThreshold then .error .badNodesThreshold
  else if reputationScores.finalOfSchedule = false then .error .scoresNotFinal
  -- the variance is divided by the number of authorities
  else if auths = [] then .error .noScores
  else
    ofAuthorities committee round (max (auths.length * badNodesPercentThreshold / 100) 1) auths

def swap [StdRng] (t : LeaderSwapTable) (leader leaderRound : Nat) : Option Authority :=
  if h : leader ∈ t.badNodes then
    match hg : t.goodNodes with
    | [] => absurd hg (t.good_of_bad fun he => by simp [he] at h)
    | g :: gs => some ((g :: gs).get (StdRng.choose leaderRound gs.length))
  else none

/-- The loop stops at the first ceiling with a list that is short enough, or at zero. -/
theorem badNodesLoop_ok (com : Committee) (auths : List (Nat × Nat))
    (listThreshold std fuel ceil : Nat) (hf : ceil < fuel) (hstd : 0 < std) :
    ∃ k, badNodesLoop com auths listThreshold std fuel ceil =
        .ok (ceil - k * std, nodesAtMost com auths (ceil - k * std)) ∧
      ((nodesAtMost com auths (ceil - k * std)).length ≤ listThreshold ∨ ceil - k * std = 0) ∧
      ∀ j < k, listThreshold < (nodesAtMost com auths (ceil - j * std)).length := by
  induction fuel generalizing ceil with
  | zero => omega
  | succ fuel ih =>
    unfold badNodesLoop
    dsimp only
    split
    · rename_i hshort
      exact ⟨0, by simp, by simp [hshort], by simp⟩
    rename_i hlong
    split
    · exact ⟨0, by simp [show ceil = 0 by omega], by omega, by simp⟩
    · obtain ⟨k, hk, hstop, hbef⟩ := ih (ceil - std) (by omega)
      have hnext (j : Nat) : ceil - std - j * std = ceil - (j + 1) * std := by
        rw [Nat.sub_sub, Nat.add_comm std, Nat.succ_mul]
      simp only [hnext] at hk hstop hbef
      refine ⟨k + 1, hk, hstop, fun j hj => ?_⟩
      cases j with
      | zero => simpa using hlong
      | succ j => exact hbef j (by omega)

theorem goodNodesLoop_ok (com : Committee) (auths : List (Nat × Nat))
    (listThreshold std badCeil fuel floor : Nat) (hf : floor < fuel) (hb : badCeil < floor) :
    ∃ f, goodNodesLoop com auths listThreshold std badCeil fuel floor =
      .ok (nodesAtLeast com auths f) ∧ badCeil < f ∧ f ≤ floor := by
  induction fuel generalizing floor with
  | zero => omega
  | succ fuel ih =>
    unfold goodNodesLoop
    dsimp only
    split
    · exact ⟨floor, rfl, hb, le_refl _⟩
    split
    · exact ⟨floor, rfl, hb, le_refl _⟩
    · obtain ⟨f, hf, h1, h2⟩ := ih (max (floor - std) (badCeil + 1)) (by omega) (by omega)
      exact ⟨f, hf, h1, by omega⟩

variable {auths : List (Nat × Nat)}

theorem standardDev_eq_zero (h : ∀ a ∈ auths, a.2 = 0) : standardDev auths = 0 := by
  have hm : meanRep auths = 0 := by
    rw [meanRep, List.map_congr_left (g := fun _ => 0) h]
    simp
  rw [standardDev, hm, List.map_congr_left (g := fun _ => 0)]
  · simp
  · intro a ha
    simp [h a ha]

theorem nodesAtLeast_ne_nil {com : Committee} {a : Nat × Nat} {floor : Nat} (ha : a ∈ auths)
    (hid : com.IsAuthority a.1) (hf : floor ≤ a.2) : nodesAtLeast com auths floor ≠ [] := by
  obtain ⟨x, hx⟩ := Option.isSome_iff_exists.mp ((com.authority_isSome_iff a.1).mpr hid)
  refine List.ne_nil_of_mem (List.mem_filterMap.mpr ⟨a, ha, ?_⟩) (a := x)
  rw [if_pos hf, hx]

def highestRep (auths : List (Nat × Nat)) : Nat := (auths.head?.map (·.2)).getD 0

def lowestRep (auths : List (Nat × Nat)) : Nat := (auths.getLast?.map (·.2)).getD 0

def ceiling (auths : List (Nat × Nat)) (k : Nat) : Nat :=
  highestRep auths - 2 * standardDev auths - k * standardDev auths

/-- Some authority is two standard deviations or more below the best. -/
def Spread (auths : List (Nat × Nat)) : Prop :=
  standardDev auths ≠ 0 ∧ lowestRep auths ≤ highestRep auths - 2 * standardDev auths

instance (auths : List (Nat × Nat)) : Decidable (Spread auths) :=
  inferInstanceAs (Decidable (_ ∧ _))

/-- The table swaps the authorities at or below the ceiling after `k` steps for those at or above
a floor over it. -/
structure Swaps (committee : Committee) (auths : List (Nat × Nat)) (listThreshold : Nat)
    (t : LeaderSwapTable) (k floor : Nat) : Prop where
  bad : t.badNodes =
    ofList ((nodesAtMost committee auths (ceiling auths k)).map fun a => (a.id, a))
  good : t.goodNodes = nodesAtLeast committee auths floor
  separate : ceiling auths k < floor
  stop : (nodesAtMost committee auths (ceiling auths k)).length ≤ listThreshold ∨
    ceiling auths k = 0
  before : ∀ j < k, listThreshold < (nodesAtMost committee auths (ceiling auths j)).length

theorem ofAuthorities_cases {com : Committee} {a : Nat × Nat} (round listThreshold : Nat)
    (hhead : auths.head? = some a) (hmax : ∀ b ∈ auths, b.2 ≤ a.2) (hid : com.IsAuthority a.1) :
    ∃ t, ofAuthorities com round listThreshold auths = .ok t ∧
      (¬ Spread auths ∧ t = { default with round } ∨
        Spread auths ∧ ∃ k floor, Swaps com auths listThreshold t k floor) := by
  by_cases hspr : Spread auths
  swap
  · refine ⟨_, if_pos ?_, .inl ⟨hspr, rfl⟩⟩
    change standardDev auths = 0 ∨ highestRep auths - 2 * standardDev auths < lowestRep auths
    unfold Spread at hspr
    omega
  -- with a zero highest score every score is zero, and so is the deviation
  have hpos : 0 < a.2 := by
    refine Nat.pos_of_ne_zero fun h0 => hspr.1 (standardDev_eq_zero fun b hb => ?_)
    have := hmax b hb
    omega
  have hhigh : highestRep auths = a.2 := by simp [highestRep, hhead]
  have hstd := hspr.1
  obtain ⟨k, hk, hstop, hbef⟩ := badNodesLoop_ok com auths listThreshold
    (standardDev auths) _ _ (Nat.lt_succ_self (highestRep auths - 2 * standardDev auths)) (by omega)
  obtain ⟨f, hf, hsep, hfle⟩ := goodNodesLoop_ok com auths listThreshold (standardDev auths)
    (ceiling auths k) _ _ (Nat.lt_succ_self
      (max (highestRep auths - standardDev auths) (ceiling auths k + 1))) (by omega)
  have hgood : nodesAtLeast com auths f ≠ [] := by
    refine nodesAtLeast_ne_nil (List.mem_of_head? hhead) hid ?_
    unfold ceiling at hfle
    omega
  have hlow : ¬ (standardDev auths = 0 ∨
      highestRep auths - 2 * standardDev auths < lowestRep auths) := by
    have := hspr.2
    omega
  have hnodes : ofNodes round (nodesAtLeast com auths f)
      (nodesAtMost com auths (ceiling auths k)) = .ok _ := dif_pos fun _ => hgood
  exact ⟨_, (if_neg hlow).trans
      (Fallible.bind_eq_ok.mpr ⟨_, hk, Fallible.bind_eq_ok.mpr ⟨_, hf, hnodes⟩⟩),
    .inr ⟨hspr, k, f, rfl, rfl, hsep, hstop, hbef⟩⟩

theorem new_cases (com : Committee) {scores : ReputationScores} {threshold : Nat}
    (round : Nat) (ht : threshold ≤ 33) (hfin : scores.finalOfSchedule = true)
    (hne : scores.scoresPerAuthority ≠ ∅)
    (hmem : ∀ id ∈ scores.scoresPerAuthority, com.IsAuthority id) :
    ∃ t, new com round scores threshold = .ok t ∧
      (¬ Spread scores.authoritiesByScoreDesc ∧ t = { default with round } ∨
        Spread scores.authoritiesByScoreDesc ∧ ∃ k floor, Swaps com scores.authoritiesByScoreDesc
            (max (scores.authoritiesByScoreDesc.length * threshold / 100) 1) t k floor) := by
  have hnil := authoritiesByScoreDesc_ne_nil hne
  obtain ⟨a, rest, ha⟩ := List.exists_cons_of_ne_nil hnil
  have hsc := mem_authoritiesByScoreDesc.mp (ha ▸ List.mem_cons_self)
  have hid : com.IsAuthority a.1 :=
    hmem _ (mem_iff_isSome_getElem?.mpr (by rw [hsc]; rfl))
  simp only [new, if_neg (Nat.not_lt.mpr ht), hfin, Bool.true_eq_false, if_neg hnil, if_false]
  exact ofAuthorities_cases _ _ (by rw [ha]; rfl) (fun b hb => score_le_head ha hb) hid

end LeaderSwapTable

structure LeaderSchedule where
  committee : Committee
  leaderSwapTable : LeaderSwapTable
deriving DecidableEq

namespace LeaderSchedule

def updateLeaderSwapTable (s : LeaderSchedule) (table : LeaderSwapTable) : LeaderSchedule :=
  { s with leaderSwapTable := table }

def nextLeader (s : LeaderSchedule) (round : Nat) : Fin s.committee.authorities.length :=
  ⟨(round / 2 - 1) % s.committee.size, Nat.mod_lt _ s.committee.size_pos⟩

def elected [StdRng] (s : LeaderSchedule) (round : Nat) : Authority :=
  let leader := s.committee.authorities.get (s.nextLeader round)
  (s.leaderSwapTable.swap leader.id round).getD leader

def leader [StdRng] (s : LeaderSchedule) (round : Nat) : Except Abort Authority :=
  if round % 2 = 0 then .ok (s.elected round) else .error .oddLeaderRound

end LeaderSchedule

end Axyl
