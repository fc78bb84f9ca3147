import Mathlib.Data.List.Sort
import Mathlib.Algebra.Order.BigOperators.Group.Finset
import Mathlib.Algebra.GroupWithZero.Nat

/-! Committee of validators with their voting powers, and the two thresholds
every consensus rule is stated with. Rounds, epochs, voting powers and seconds
are natural numbers. Identifiers and digests are the 32-byte strings of the
source read as numbers, so their order is the byte order of `authorities_by_id`. -/

namespace Axyl
open List

structure Authority where
  id : Nat
  votingPower : Nat
deriving DecidableEq, Repr

/-- The authorities are the values of `authorities_by_id`, in key order. A
committee of the source is never empty: `load` asserts it. -/
structure Committee where
  authorities : List Authority
  epoch : Nat
  sorted : authorities.Pairwise fun a b => a.id < b.id
  nonempty : authorities ≠ []
deriving DecidableEq

namespace Committee

def size (c : Committee) : Nat := c.authorities.length

def authority (c : Committee) (id : Nat) : Option Authority :=
  c.authorities.find? fun a => a.id = id

def votingPowerById (c : Committee) (id : Nat) : Nat :=
  match c.authority id with
  | some a => a.votingPower
  | none => 0

def totalVotingPower (c : Committee) : Nat :=
  (c.authorities.map Authority.votingPower).sum

def quorumThreshold (c : Committee) : Nat := 2 * c.totalVotingPower / 3 + 1

def validityThreshold (c : Committee) : Nat :=
  if (c.totalVotingPower + 2) / 3 = 0 then 1 else (c.totalVotingPower + 2) / 3

def ids (c : Committee) : List Nat := c.authorities.map Authority.id

def IsAuthority (c : Committee) (id : Nat) : Prop := id ∈ c.ids

instance (c : Committee) (id : Nat) : Decidable (c.IsAuthority id) :=
  inferInstanceAs (Decidable (id ∈ c.ids))

theorem ids_sorted (c : Committee) : c.ids.Pairwise (· < ·) :=
  pairwise_map.mpr c.sorted

theorem ids_nodup (c : Committee) : c.ids.Nodup :=
  c.ids_sorted.imp fun h => Nat.ne_of_lt h

theorem size_pos (c : Committee) : 0 < c.size := length_pos_iff.mpr c.nonempty

variable {c : Committee} {a : Authority}

theorem authority_eq_some {id : Nat} (h : c.authority id = some a) :
    a ∈ c.authorities ∧ a.id = id :=
  ⟨mem_of_find?_eq_some h, by simpa using find?_some h⟩

theorem authority_of_mem (ha : a ∈ c.authorities) : c.authority a.id = some a := by
  cases h : c.authority a.id with
  | none =>
    have hn := find?_eq_none.mp h a ha
    simp at hn
  | some b =>
    obtain ⟨hb, hid⟩ := authority_eq_some h
    -- two members with one id are one member, since the ids have no repetition
    have heq := inj_on_of_nodup_map c.ids_nodup hb ha hid
    rw [heq]

theorem authority_isSome_iff (c : Committee) (id : Nat) :
    (c.authority id).isSome ↔ c.IsAuthority id := by
  simp [authority, IsAuthority, ids, find?_isSome]

@[simp] theorem votingPowerById_of_mem (ha : a ∈ c.authorities) :
    c.votingPowerById a.id = a.votingPower := by
  simp [votingPowerById, authority_of_mem ha]

theorem votingPowerById_of_not_mem {id : Nat} (h : ¬ c.IsAuthority id) :
    c.votingPowerById id = 0 := by
  have hn : c.authority id = none := by
    rw [← Option.not_isSome_iff_eq_none, authority_isSome_iff]
    exact h
  simp [votingPowerById, hn]

section
variable (c : Committee)

theorem totalVotingPower_eq_sum :
    c.totalVotingPower = ∑ id ∈ c.ids.toFinset, c.votingPowerById id := by
  rw [sum_toFinset _ c.ids_nodup]
  simp only [totalVotingPower, ids, map_map]
  congr 1
  apply map_congr_left
  intro a ha
  simp [votingPowerById_of_mem ha]

theorem total_lt_quorum_add_validity :
    c.totalVotingPower < c.quorumThreshold + c.validityThreshold := by
  unfold quorumThreshold validityThreshold
  split <;> omega

theorem sum_votingPower_le_total (s : Finset Nat) :
    ∑ id ∈ s, c.votingPowerById id ≤ c.totalVotingPower := by
  rw [totalVotingPower_eq_sum]
  refine Finset.sum_le_sum_of_ne_zero fun id _ hne => mem_toFinset.mpr ?_
  by_contra h
  exact hne (votingPowerById_of_not_mem h)

theorem exists_mem_quorum_inter_validity {s t : Finset Nat}
    (hs : c.quorumThreshold ≤ ∑ id ∈ s, c.votingPowerById id)
    (ht : c.validityThreshold ≤ ∑ id ∈ t, c.votingPowerById id) : ∃ id, id ∈ s ∧ id ∈ t := by
  by_contra h
  have hdisj : Disjoint s t := Finset.disjoint_left.mpr fun id hi hj => h ⟨id, hi, hj⟩
  have hu := c.sum_votingPower_le_total (s ∪ t)
  rw [Finset.sum_union hdisj] at hu
  have := c.total_lt_quorum_add_validity
  omega

end

end Committee

end Axyl
