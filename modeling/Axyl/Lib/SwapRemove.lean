import Mathlib.Data.List.Nodup
import Mathlib.Logic.Function.Basic

/-! Lists with an index from members to places, counted from one, where the last member takes the
place of the one removed. -/

namespace Axyl
open Function List

variable {α : Type}

def Indexed (l : List α) (index : α → Nat) : Prop :=
  ∀ a i, index a = i + 1 ↔ l[i]? = some a

namespace Indexed
variable {l : List α} {index : α → Nat} {a : α}

section
variable (h : Indexed l index)
include h

theorem mem_iff : a ∈ l ↔ index a ≠ 0 := by
  rw [mem_iff_getElem?]
  constructor
  · rintro ⟨i, hi⟩
    have := (h a i).mpr hi
    omega
  · intro hidx
    obtain ⟨i, hi⟩ := Nat.exists_eq_succ_of_ne_zero hidx
    exact ⟨i, (h a i).mp hi⟩

theorem place_unique {i j : Nat} (hi : l[i]? = some a) (hj : l[j]? = some a) : i = j := by
  have := (h a i).mpr hi
  have := (h a j).mpr hj
  omega

theorem nodup : l.Nodup := by
  rw [nodup_iff_injective_get]
  intro i j heq
  apply Fin.ext
  refine h.place_unique (a := l.get j) ?_ ?_
  · rw [← heq, get_eq_getElem, getElem?_eq_getElem i.isLt]
  · rw [get_eq_getElem, getElem?_eq_getElem j.isLt]

variable [DecidableEq α]

theorem push (ha : a ∉ l) : Indexed (l ++ [a]) (Function.update index a (l.length + 1)) := by
  intro b i
  rw [update_apply, getElem?_append]
  by_cases hb : b = a
  · subst hb
    rw [if_pos rfl]
    by_cases hi : i < l.length
    · rw [if_pos hi]
      constructor
      · intro heq
        omega
      · intro heq
        exact absurd (mem_of_getElem? heq) ha
    · rw [if_neg hi, getElem?_singleton]
      · simp
        omega
  · rw [if_neg hb, h b i]
    by_cases hi : i < l.length
    · rw [if_pos hi]
    · rw [if_neg hi, getElem?_eq_none (by omega), getElem?_singleton]
      split
      · simp [Ne.symm hb]
      · rfl

theorem dropLast (ha : index a = l.length) (hne : index a ≠ 0) :
    Indexed l.dropLast (Function.update index a 0) := by
  intro b i
  have hplace : l[l.length - 1]? = some a := (h a _).mp (by omega)
  rw [update_apply, getElem?_dropLast]
  by_cases hb : b = a
  · subst hb
    rw [if_pos rfl]
    split
    · constructor
      · intro heq
        omega
      · intro hi
        have := (h b i).mpr hi
        omega
    · simp
  · rw [if_neg hb, h b i]
    split
    next => rfl
    next hi =>
      simp only [reduceCtorEq, iff_false]
      intro heq
      have hlt := (List.getElem?_eq_some_iff.mp heq).1
      obtain rfl : i = l.length - 1 := by omega
      rw [hplace] at heq
      exact hb (Option.some.inj heq).symm

theorem replaceByLast {last : α} (hne : index a ≠ 0) (hlast : l[l.length - 1]? = some last)
    (ha : index a ≠ l.length) :
    Indexed (l.set (index a - 1) last).dropLast
      (Function.update (Function.update index last (index a)) a 0) := by
  have hplace : l[index a - 1]? = some a := (h a _).mp (by omega)
  have hlt := (List.getElem?_eq_some_iff.mp hplace).1
  have hlastIndex := (h last _).mpr hlast
  have hne' : last ≠ a := by
    rintro rfl
    omega
  intro b i
  rw [List.getElem?_dropLast, List.length_set, List.getElem?_set]
  by_cases hb : b = a
  · subst hb
    rw [update_self]
    constructor
    · intro heq
      omega
    · intro heq
      split at heq
      · split at heq
        · simp at heq
          exact absurd heq hne'
        · have := (h b i).mpr heq
          omega
      · cases heq
  by_cases hbl : b = last
  · subst hbl
    rw [update_of_ne hb, update_self]
    constructor
    · intro heq
      obtain rfl : index a - 1 = i := by omega
      rw [if_pos (by omega), if_pos rfl, if_pos hlt]
    · intro heq
      split at heq
      · split at heq
        · omega
        · have := (h b i).mpr heq
          omega
      · cases heq
  · rw [update_of_ne hb, update_of_ne hbl, h b i]
    constructor
    · intro heq
      have hi := (List.getElem?_eq_some_iff.mp heq).1
      rw [if_pos, if_neg]
      · exact heq
      · rintro rfl
        rw [hplace] at heq
        exact hb (Option.some.inj heq).symm
      · by_contra hge
        obtain rfl : i = l.length - 1 := by omega
        rw [hlast] at heq
        exact hbl (Option.some.inj heq).symm
    · intro heq
      split at heq
      · split at heq
        · simp at heq
          exact absurd heq.symm hbl
        · exact heq
      · cases heq

end

end Indexed

end Axyl
