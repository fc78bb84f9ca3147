import Mathlib.Logic.Basic

/-! Lists in which every element comes after what it requires. -/

namespace Axyl.After

variable {α β κ : Type} (name : α → κ) (requires : α → κ → Prop)

/-- Every element comes after the elements with the names that it requires, apart from what is there
before the list. -/
def Ordered : (κ → Prop) → List α → Prop
  | _, [] => True
  | there, a :: l =>
    (∀ k, requires a k → there k) ∧ Ordered (fun k => there k ∨ name a = k) l

variable {name requires} {there there' : κ → Prop} {l l' : List α}

theorem Ordered.mono (h : Ordered name requires there l) (hthere : ∀ k, there k → there' k) :
    Ordered name requires there' l := by
  induction l generalizing there there' with
  | nil => exact trivial
  | cons a l ih =>
    refine ⟨fun k hk => hthere k (h.1 k hk), ih h.2 ?_⟩
    intro k hk
    exact hk.imp_left (hthere k)

theorem ordered_append : Ordered name requires there (l ++ l') ↔ Ordered name requires there l ∧
      Ordered name requires (fun k => there k ∨ ∃ a ∈ l, name a = k) l' := by
  induction l generalizing there with
  | nil => simp [Ordered]
  | cons a l ih =>
    simp only [List.cons_append, Ordered, ih, and_assoc, List.mem_cons, exists_eq_or_imp, or_assoc]

theorem Ordered.snoc (h : Ordered name requires there l) {a : α}
    (ha : ∀ k, requires a k → there k ∨ ∃ b ∈ l, name b = k) :
    Ordered name requires there (l ++ [a]) :=
  ordered_append.mpr ⟨h, ha, trivial⟩

theorem Ordered.of_append_cons {a : α} (h : Ordered name requires there (l ++ a :: l')) {k : κ}
    (hk : requires a k) : there k ∨ ∃ b ∈ l, name b = k :=
  (ordered_append.mp h).2.1 k hk

theorem ordered_map {f : β → α} {l : List β} : Ordered name requires there (l.map f) ↔
    Ordered (fun b => name (f b)) (fun b => requires (f b)) there l := by
  induction l generalizing there with
  | nil => exact Iff.rfl
  | cons b l ih => exact and_congr Iff.rfl ih

end Axyl.After
