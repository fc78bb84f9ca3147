import Mathlib.Data.List.Sort
import Mathlib.Data.Finset.Card

/-! Sets of positions, and the elements of a list at these positions. -/

namespace Axyl
open List

structure Bitmap where
  indexes : List Nat
  sorted : indexes.Pairwise (· < ·)
deriving DecidableEq, Repr

namespace Bitmap

variable {α : Type} {x : α}

/-- One walk over the list and over the positions: the next position is compared with the place of
the element. `i` is the place of the head. -/
def walk : List α → Nat → List Nat → List α
  | [], _, _ => []
  | _ :: xs, i, [] => walk xs (i + 1) []
  | x :: xs, i, index :: indexes =>
    if index = i then x :: walk xs (i + 1) indexes else walk xs (i + 1) (index :: indexes)

def pick (b : Bitmap) (xs : List α) : List α := walk xs 0 b.indexes

theorem walk_sublist (xs : List α) (i : Nat) (idxs : List Nat) : (walk xs i idxs).Sublist xs := by
  induction xs generalizing i idxs with
  | nil => exact List.Sublist.refl []
  | cons x xs ih =>
    cases idxs with
    | nil => exact (ih (i + 1) []).cons x
    | cons idx idxs =>
      rw [walk]
      split
      · exact (ih (i + 1) idxs).cons_cons x
      · exact (ih (i + 1) (idx :: idxs)).cons x

variable {xs : List α}

theorem mem_walk {i : Nat} {idxs : List Nat} (hsort : idxs.Pairwise (· < ·))
    (hle : ∀ j ∈ idxs, i ≤ j) : x ∈ walk xs i idxs ↔ ∃ j ∈ idxs, xs[j - i]? = some x := by
  induction xs generalizing i idxs with
  | nil => simp [walk]
  | cons y xs ih =>
    -- a position after the head is one of the tail
    have htail : ∀ {j}, i + 1 ≤ j → (y :: xs)[j - i]? = xs[j - (i + 1)]? := by
      intro j hj
      rw [show j - i = (j - (i + 1)) + 1 by omega, getElem?_cons_succ]
    cases idxs with
    | nil => simp [walk, ih List.Pairwise.nil]
    | cons index idxs =>
      obtain ⟨hlt, hrest⟩ := pairwise_cons.mp hsort
      have hidx : i ≤ index := hle index mem_cons_self
      rw [walk]
      split
      · next heq =>
        subst heq
        rw [mem_cons, ih hrest hlt, exists_mem_cons_iff]
        refine or_congr ?_ (exists_congr fun j => and_congr_right fun hj => ?_)
        · rw [Nat.sub_self, getElem?_cons_zero, Option.some.injEq, eq_comm]
        · rw [htail (hlt j hj)]
      · next hne =>
        have hle' : ∀ j ∈ index :: idxs, i + 1 ≤ j := by
          intro j hj
          rcases mem_cons.mp hj with rfl | hj
          · omega
          · exact lt_of_le_of_lt hidx (hlt j hj)
        rw [ih hsort hle']
        exact exists_congr fun j => and_congr_right fun hj => by rw [htail (hle' j hj)]

theorem mem_pick {b : Bitmap} : x ∈ b.pick xs ↔ ∃ i ∈ b.indexes, xs[i]? = some x :=
  mem_walk b.sorted fun j _ => Nat.zero_le j

theorem pick_sublist (b : Bitmap) (xs : List α) : (b.pick xs).Sublist xs :=
  walk_sublist xs 0 b.indexes

theorem nodup_pick {b : Bitmap} (h : xs.Nodup) : (b.pick xs).Nodup :=
  h.sublist (pick_sublist b xs)

theorem exists_walk {ys : List α} (h : ys.Sublist xs) (i : Nat) : ∃ idxs : List Nat,
      idxs.Pairwise (· < ·) ∧ (∀ j ∈ idxs, i ≤ j) ∧ walk xs i idxs = ys := by
  induction h generalizing i with
  | slnil => exact ⟨[], List.Pairwise.nil, by simp, rfl⟩
  | cons x _ ih =>
    obtain ⟨idxs, hsort, hle, hwalk⟩ := ih (i + 1)
    refine ⟨idxs, hsort, fun j hj => Nat.le_of_succ_le (hle j hj), ?_⟩
    cases idxs with
    | nil => exact hwalk
    | cons idx idxs =>
      have hne : idx ≠ i := ne_of_gt (hle idx mem_cons_self)
      rw [walk, if_neg hne]
      exact hwalk
  | cons_cons x _ ih =>
    obtain ⟨idxs, hsort, hle, hwalk⟩ := ih (i + 1)
    refine ⟨i :: idxs, pairwise_cons.mpr ⟨hle, hsort⟩, ?_, ?_⟩
    · intro j hj
      rcases mem_cons.mp hj with rfl | hj
      · omega
      · exact Nat.le_of_succ_le (hle j hj)
    · rw [walk, if_pos rfl, hwalk]

theorem exists_pick {ys : List α} (h : ys.Sublist xs) : ∃ b : Bitmap, b.pick xs = ys := by
  obtain ⟨idxs, hsort, _, hwalk⟩ := exists_walk h 0
  exact ⟨⟨idxs, hsort⟩, hwalk⟩

end Bitmap

end Axyl
