import Mathlib.Logic.Basic

/-! Inversion of computations that may fail. -/

namespace Axyl.Fallible

variable {ε α β : Type} {x : Except ε α} {f : α → Except ε β}

theorem bind_eq_ok {b : β} : (x >>= f) = .ok b ↔ ∃ a, x = .ok a ∧ f a = .ok b := by
  cases x with
  | error e | ok a => simp [bind, Except.bind]

variable {e : ε}

theorem bind_eq_error : (x >>= f) = .error e ↔ x = .error e ∨ ∃ a, x = .ok a ∧ f a = .error e := by
  cases x with
  | error e | ok a => simp [bind, Except.bind]

theorem ite_error_eq_ok {p : Prop} [Decidable p] {a : α} :
    (if p then .error e else x) = .ok a ↔ ¬ p ∧ x = .ok a := by
  split
  · next hp => simp [hp]
  · next hp => simp [hp]

theorem guard_eq_ok {p : Prop} [Decidable p] {u : Unit} :
    (if p then Except.error e else .ok ()) = .ok u ↔ ¬ p :=
  ite_error_eq_ok.trans (and_iff_left rfl)

theorem ite_error_ne {p : Prop} [Decidable p] {e' : ε} (he : e ≠ e') (hx : x ≠ .error e') :
    (if p then .error e else x) ≠ .error e' := by
  split
  · simpa using he
  · exact hx

def bindSome (r : Except ε (Option α)) (f : α → Except ε (Option β)) : Except ε (Option β) :=
  r >>= fun
    | none => .ok none
    | some a => f a

theorem bindSome_eq_some {r : Except ε (Option α)} {f : α → Except ε (Option β)} {b : β} :
    bindSome r f = .ok (some b) ↔ ∃ a, r = .ok (some a) ∧ f a = .ok (some b) := by
  rcases r with e | _ | a <;> simp [bindSome, bind, Except.bind]

theorem map_eq_ok {f : α → β} {b : β} : x.map f = .ok b ↔ ∃ a, x = .ok a ∧ f a = b := by
  cases x <;> simp [Except.map]

theorem exists_of_mapM {xs : List α} {ys : List β} (h : xs.mapM f = .ok ys) :
    ∀ y ∈ ys, ∃ x ∈ xs, f x = .ok y := by
  induction xs generalizing ys with
  | nil =>
    cases h
    exact nofun
  | cons x xs ih =>
    rw [List.mapM_cons, bind_eq_ok] at h
    obtain ⟨y, hy, h⟩ := h
    obtain ⟨ys', hys, h⟩ := bind_eq_ok.mp h
    cases h
    intro z hz
    rcases List.mem_cons.mp hz with rfl | hz
    · exact ⟨x, List.mem_cons_self, hy⟩
    · obtain ⟨x', hx', hz⟩ := ih hys z hz
      exact ⟨x', List.mem_cons_of_mem x hx', hz⟩

variable {γ : Type}

instance decidableExistsOk {P : α → Prop} [DecidablePred P] : Decidable (∃ a, x = .ok a ∧ P a) :=
  match x with
  | .ok a => decidable_of_iff (P a) (by simp)
  | .error _ => isFalse (by simp)

instance decidableExistsOkPair {x : Except ε (α × β)} {P : α → β → Prop}
    [∀ a b, Decidable (P a b)] : Decidable (∃ a b, x = .ok (a, b) ∧ P a b) :=
  decidable_of_iff (∃ r, x = .ok r ∧ P r.1 r.2) Prod.exists

section
variable {δ : Type} {f : α → β} {g : γ → δ} {p : Prop} [Decidable p] {y x' y' : Except ε α}

theorem map_ite_eq (hx : p → x.map f = x'.map f) (hy : ¬ p → y.map f = y'.map f) :
    (if p then x else y).map f = (if p then x' else y').map f := by
  by_cases hp : p
  · rw [if_pos hp, if_pos hp]
    exact hx hp
  · rw [if_neg hp, if_neg hp]
    exact hy hp

theorem map_guard {e : ε} (h : ¬ p → x.map f = y.map f) :
    (if p then .error e else x).map f = (if p then .error e else y).map f :=
  map_ite_eq (fun _ => rfl) h

theorem map_bind_eq {k k' : α → Except ε γ} (hxy : x.map f = y.map f)
    (hk : ∀ a b, f a = f b → (k a).map g = (k' b).map g) : (x >>= k).map g = (y >>= k').map g := by
  cases x with
  | error e =>
    cases y with
    | error e' =>
      cases hxy
      rfl
    | ok _ => cases hxy
  | ok a =>
    cases y with
    | error _ => cases hxy
    | ok b => exact hk a b (Except.ok.inj hxy)

end

def failure : Except ε α → Option ε
  | .ok _ => none
  | .error e => some e

theorem eq_error_of_failure (h : failure x = some e) : x = .error e := by
  cases x with
  | error e' => exact congrArg _ (Option.some.inj h)
  | ok a => cases h

theorem exists_of_failure (h : failure x = none) : ∃ a, x = .ok a := by
  cases x with
  | error e => cases h
  | ok a => exact ⟨a, rfl⟩

def Related (R : α → β → Prop) : Except ε α → Except ε β → Prop
  | .ok a, .ok b => R a b
  | .error e, .error e' => e = e'
  | _, _ => False

variable {R : α → β → Prop} {y : Except ε β}

theorem Related.bind {α' β' : Type} {S : α' → β' → Prop} {f : α → Except ε α'} {g : β → Except ε β'}
    (h : Related R x y) (hfg : ∀ a b, x = .ok a → R a b → Related S (f a) (g b)) :
    Related S (x >>= f) (y >>= g) := by
  cases x <;> cases y
  · exact h
  · exact h.elim
  · exact h.elim
  · exact hfg _ _ rfl h

theorem Related.mono {S : α → β → Prop} (h : Related R x y) (hRS : ∀ a b, x = .ok a → R a b → S a b)
    : Related S x y := by
  cases x <;> cases y
  · exact h
  · exact h.elim
  · exact h.elim
  · exact hRS _ _ rfl h

theorem Related.of_eq {R : α → α → Prop} {y : Except ε α} (h : x = y) (hR : ∀ a, R a a) :
    Related R x y := by
  subst h
  cases x with
  | error e => rfl
  | ok a => exact hR a

theorem Related.map_eq {f : α → γ} {g : β → γ} (h : Related R x y) (hfg : ∀ a b, R a b → f a = g b) :
    x.map f = y.map g := by
  cases x <;> cases y
  · exact congrArg _ h
  · exact h.elim
  · exact h.elim
  · exact congrArg _ (hfg _ _ h)

def Spec (P : α → Prop) (E : ε → Prop) : Except ε α → Prop
  | .ok a => P a
  | .error e => E e

variable {P : α → Prop} {E : ε → Prop}

theorem Spec.bind {Q : β → Prop} (h : Spec P E x) (hf : ∀ a, P a → Spec Q E (f a)) :
    Spec Q E (x >>= f) := by
  cases x with
  | error e => exact h
  | ok a => exact hf a h

theorem Spec.mono {Q : α → Prop} {F : ε → Prop} (h : Spec P E x) (hP : ∀ a, P a → Q a)
    (hE : ∀ e, E e → F e) : Spec Q F x := by
  cases x with
  | error e => exact hE e h
  | ok a => exact hP a h

theorem Spec.ok (h : Spec P E x) {a : α} (hx : x = .ok a) : P a := by
  rwa [hx] at h

theorem Spec.error (h : Spec P E x) (hx : x = .error e) : E e := by
  rwa [hx] at h

theorem Spec.exists_ok (h : Spec P (fun _ => False) x) : ∃ a, x = .ok a ∧ P a := by
  cases x with
  | error e => exact h.elim
  | ok a => exact ⟨a, rfl, h⟩

theorem Spec.of_error (h : ∀ e, x = .error e → E e) : Spec (fun a => x = .ok a) E x := by
  cases x with
  | error e => exact h e rfl
  | ok a => exact rfl

end Axyl.Fallible
