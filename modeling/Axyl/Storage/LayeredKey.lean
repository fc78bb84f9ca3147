import Axyl.Lib.WriteLog
import Axyl.Storage.LayeredDb
import Axyl.Storage.MemRows

/-! One key of the layered store: its cached row, its committed value and the operations between
the two. `D` are operations that are applied and not settled, `U` those that are not applied. -/

namespace Axyl
open List Function WriteLog
open Std (ExtTreeMap)
open OrderedKeys

section
variable {τ K V : Type} [LinearOrder τ] [LinearOrder K]

namespace DeferredOp

def effect : DeferredOp τ K V → τ × K → Option (Option V)
  | .insert t k v, key => if key = (t, k) then some (some v) else none
  | .remove t keys, key => if key.1 = t ∧ key.2 ∈ keys then some none else none
  | .clear t _, key => if key.1 = t then some none else none

def owned (t : τ) (k : K) : DeferredOp τ K V → Nat
  | .insert t' k' _ => if t = t' ∧ k = k' then 1 else 0
  | .remove t' keys => if t = t' then keys.count k else 0
  | .clear t' keys => if t = t' then keys.count k else 0

def Clears (t : τ) : DeferredOp τ K V → Prop
  | .clear t' _ => t = t'
  | _ => False

theorem effect_of_owned_eq_zero {op : DeferredOp τ K V} {t : τ} {k : K} (h : op.owned t k = 0) :
    op.effect (t, k) = none ∧ ¬ op.Clears t ∨ op.effect (t, k) = some none ∧ op.Clears t := by
  cases op with
  | insert t' k' v =>
    refine .inl ⟨if_neg fun heq => ?_, id⟩
    cases heq
    rw [owned, if_pos ⟨rfl, rfl⟩] at h
    cases h
  | remove t' keys =>
    refine .inl ⟨if_neg fun ⟨ht, hk⟩ => ?_, id⟩
    rw [owned, if_pos ht] at h
    exact count_eq_zero.mp h hk
  | clear t' keys =>
    by_cases ht : t = t'
    · exact .inr ⟨if_pos ht, ht⟩
    · exact .inl ⟨if_neg ht, ht⟩

theorem get_applyTxn (m : Tables τ K V) (op : DeferredOp τ K V) (t : τ) (k : K) :
    (op.applyTxn m t)[k]? = (op.effect (t, k)).getD (m t)[k]? := by
  cases op with
  | insert t' k' v =>
    rw [applyTxn, effect]
    by_cases ht : t = t'
    · subst ht
      rw [update_self, ExtTreeMap.getElem?_insert]
      by_cases hk : k = k' <;> simp [hk, Prod.ext_iff, @eq_comm K k' k]
    · rw [update_of_ne ht, if_neg fun h => ht (congrArg Prod.fst h)]
      rfl
  | remove t' keys =>
    rw [applyTxn, effect]
    by_cases ht : t = t'
    · subst ht
      generalize m t = rows
      induction keys generalizing rows with
      | nil => simp
      | cons k' keys ih =>
        rw [foldl_cons, ih, ExtTreeMap.getElem?_erase]
        by_cases hk : k = k'
        · subst hk
          by_cases hmem : k ∈ keys <;> simp [hmem]
        · simp [hk, Ne.symm hk]
    · rw [update_of_ne ht, if_neg fun h => ht h.1]
      rfl
  | clear t' keys =>
    rw [applyTxn, effect]
    by_cases ht : t = t'
    · subst ht
      rw [update_self, if_pos rfl]
      exact ExtTreeMap.getElem?_empty
    · rw [update_of_ne ht, if_neg ht]
      rfl

theorem get_foldl_applyTxn (m : Tables τ K V) (ops : List (DeferredOp τ K V)) (t : τ) (k : K) :
    (ops.foldl applyTxn m t)[k]? = (last effect ops (t, k)).getD (m t)[k]? :=
  get_foldl (fun (m : Tables τ K V) (key : τ × K) => (m key.1)[key.2]?)
    (k := (t, k)) (fun m op => get_applyTxn m op t k) m ops

end DeferredOp

open DeferredOp

def owners (t : τ) (k : K) : List (DeferredOp τ K V) → Nat
  | [] => 0
  | op :: ops => op.owned t k + owners t k ops

def Covered (t : τ) (k : K) : List (DeferredOp τ K V) → Prop
  | [] => True
  | op :: ops => (op.Clears t → 0 < owners t k (op :: ops)) ∧ Covered t k ops

theorem owners_append (t : τ) (k : K) (a b : List (DeferredOp τ K V)) :
    owners t k (a ++ b) = owners t k a + owners t k b := by
  induction a with
  | nil => exact (zero_add _).symm
  | cons op a ih => rw [cons_append, owners, owners, ih, add_assoc]

variable {t : τ} {k : K} {ops : List (DeferredOp τ K V)}

theorem Covered.snoc {op : DeferredOp τ K V} (h : Covered t k ops ∨ 0 < op.owned t k)
    (hop : op.Clears t → 0 < op.owned t k) : Covered t k (ops ++ [op]) := by
  induction ops with
  | nil => exact ⟨hop, trivial⟩
  | cons op' ops ih =>
    refine ⟨fun hclr => ?_, ih (h.imp_left And.right)⟩
    show 0 < owners t k ((op' :: ops) ++ [op])
    rw [owners_append]
    rcases h with h | h
    · exact Nat.add_pos_left (h.1 hclr) _
    · exact Nat.add_pos_right _ (Nat.add_pos_left h _)

theorem Covered.not_clears (h : Covered t k ops) (hzero : owners t k ops = 0) :
    ∀ op ∈ ops, ¬ op.Clears t := by
  induction ops with
  | nil => exact nofun
  | cons op ops ih =>
    refine forall_mem_cons.mpr ⟨fun hclr => ?_, ih h.2 (Nat.eq_zero_of_add_eq_zero hzero).2⟩
    exact absurd hzero (h.1 hclr).ne'

theorem last_of_owners_eq_zero (h : owners t k ops = 0) :
    last effect ops (t, k) = none ∧ (∀ op ∈ ops, ¬ op.Clears t) ∨
      last effect ops (t, k) = some none ∧ ∃ op ∈ ops, op.Clears t := by
  induction ops with
  | nil => exact .inl ⟨rfl, nofun⟩
  | cons op ops ih =>
    obtain ⟨hop, hops⟩ := Nat.eq_zero_of_add_eq_zero h
    rw [last]
    rcases ih hops with ⟨hlast, hnone⟩ | ⟨hlast, hsome⟩
    · rw [hlast]
      rcases effect_of_owned_eq_zero hop with ⟨heff, hclr⟩ | ⟨heff, hclr⟩
      · exact .inl ⟨heff, forall_mem_cons.mpr ⟨hclr, hnone⟩⟩
      · exact .inr ⟨heff, op, mem_cons_self, hclr⟩
    · obtain ⟨op', hop', hclr⟩ := hsome
      rw [hlast]
      exact .inr ⟨rfl, op', mem_cons_of_mem _ hop', hclr⟩

/-- The row of a key before and after an operation is issued. -/
def Issued (op : DeferredOp τ K V) (t : τ) (k : K) (r r' : Option (StoreEntry V)) : Prop :=
  (r' = r ∧ op.owned t k = 0 ∧ (r = none ∨ ¬ op.Clears t)) ∨
    ∃ x, op.effect (t, k) = some x ∧ op.owned t k = 1 ∧ RowIs r' x (inFlightOf r + 1)

theorem Issued.absent {op : DeferredOp τ K V} {r r' : Option (StoreEntry V)}
    (h : Issued op t k r r') (hr' : r' = none) : r = none ∧ op.owned t k = 0 := by
  rcases h with ⟨rfl, howned, -⟩ | ⟨x, -, -, hrow⟩
  · exact ⟨hr', howned⟩
  · exact absurd hr' hrow.ne_none

/-- What the tiers hold for one key whose value is `m`: the cached row `r`, the flag of a pending
clear and the committed value `d`. -/
structure KeyInv (t : τ) (k : K) (m : Option V) (r : Option (StoreEntry V)) (clearing : Bool)
    (d : Option V) (D U : List (DeferredOp τ K V)) : Prop where
  present : r ≠ none → RowIs r m (owners t k (D ++ U)) ∧ Covered t k (D ++ U)
  absent : r = none → owners t k (D ++ U) = 0
  value : m = (last effect U (t, k)).getD d
  /-- A clear that is applied and not settled. -/
  applied : r = none → (∃ op ∈ D, op.Clears t) → d = none
  /-- A clear that is queued although the flag is down: another one was settled since. -/
  queued : r = none → clearing = false → (∃ op ∈ U, op.Clears t) → d = none
  flag : clearing = true → ∃ op ∈ D ++ U, op.Clears t

namespace KeyInv

variable {t : τ} {k : K} {m d d' : Option V} {r r' : Option (StoreEntry V)} {clearing clearing' : Bool}
  {D U : List (DeferredOp τ K V)} {op : DeferredOp τ K V}

section
variable (h : KeyInv t k m r clearing d D U)
include h

theorem read (hr : r = none) : (if clearing then none else d) = m := by
  have hzero := h.absent hr
  rw [owners_append] at hzero
  have hU := last_of_owners_eq_zero (Nat.eq_zero_of_add_eq_zero hzero).2
  rw [h.value]
  cases hc : clearing with
  | true =>
    rcases hU with ⟨hlast, hnone⟩ | ⟨hlast, -⟩
    · obtain ⟨op, hop, hclr⟩ := h.flag hc
      have hD : op ∈ D := (mem_append.mp hop).resolve_right fun hop => hnone op hop hclr
      rw [hlast, h.applied hr ⟨op, hD, hclr⟩]
      rfl
    · rw [hlast]
      rfl
  | false =>
    rcases hU with ⟨hlast, -⟩ | ⟨hlast, hclear⟩
    · rw [hlast]
      rfl
    · rw [hlast, h.queued hr hc hclear]
      rfl

theorem issue (hrow : Issued op t k r r')
    (hflag : clearing' = true ↔ clearing = true ∨ op.Clears t) :
    KeyInv t k ((op.effect (t, k)).getD m) r' clearing' d D (U ++ [op]) where
  present hr' := by
    rcases hrow with ⟨rfl, howned, hclr⟩ | ⟨x, heff, howned, hrow⟩
    · have hclr := hclr.resolve_left hr'
      have heff : op.effect (t, k) = none :=
        (effect_of_owned_eq_zero howned).elim And.left fun hclear => absurd hclear.2 hclr
      obtain ⟨hrow, hcov⟩ := h.present hr'
      rw [← append_assoc, owners_append, owners, howned, heff]
      exact ⟨hrow, Covered.snoc (.inl hcov) fun hclear => absurd hclear hclr⟩
    · have hcnt : inFlightOf r = owners t k (D ++ U) := by
        by_cases hr : r = none
        · rw [hr, h.absent hr]
          rfl
        · exact (h.present hr).1.inFlightOf
      have hone : 0 < op.owned t k := by omega
      rw [← append_assoc, owners_append, owners, howned, heff, ← hcnt]
      exact ⟨hrow, Covered.snoc (.inr hone) fun _ => hone⟩
  absent hr' := by
    obtain ⟨hr, hop⟩ := hrow.absent hr'
    rw [← append_assoc, owners_append, h.absent hr, owners, hop]
    rfl
  value := by
    rw [last_concat, h.value]
    cases op.effect (t, k) <;> rfl
  applied hr' := h.applied (hrow.absent hr').1
  queued hr' hc hclear := by
    have hdown : clearing = false ∧ ¬ op.Clears t := by
      rw [← Bool.not_eq_true]
      refine ⟨fun hup => ?_, fun hup => ?_⟩
      · rw [hflag.mpr (.inl hup)] at hc
        cases hc
      · rw [hflag.mpr (.inr hup)] at hc
        cases hc
    obtain ⟨op', hop', hclr'⟩ := hclear
    rcases mem_append.mp hop' with hop' | hop'
    · exact h.queued (hrow.absent hr').1 hdown.1 ⟨op', hop', hclr'⟩
    · rw [mem_singleton.mp hop'] at hclr'
      exact absurd hclr' hdown.2
  flag hc := by
    rw [← append_assoc]
    rcases hflag.mp hc with hc | hc
    · obtain ⟨op', hop', hclr'⟩ := h.flag hc
      exact ⟨op', mem_append_left _ hop', hclr'⟩
    · exact ⟨op, mem_append_right _ (mem_singleton_self op), hc⟩

end

theorem settle (h : KeyInv t k m r clearing d (op :: D) U) (hr : Released (op.owned t k) r r')
    (hdown : op.Clears t → clearing' = false) (hflag : ¬ op.Clears t → clearing' = clearing) :
    KeyInv t k m r' clearing' d D U := by
  have hrow : r ≠ none → RowIs r' m (owners t k (D ++ U)) := by
    intro hne
    apply hr.present
    rw [add_comm]
    exact (h.present hne).1
  have hnone : r' = none → r = none := fun hr' =>
    not_not.mp fun hne => (hrow hne).ne_none hr'
  constructor
  case present =>
    intro hr'
    have hne : r ≠ none := fun hnone => hr' (hr.absent hnone)
    exact ⟨hrow hne, (h.present hne).2.2⟩
  case absent => exact fun hr' => (Nat.eq_zero_of_add_eq_zero (h.absent (hnone hr'))).2
  case value => exact h.value
  case applied =>
    rintro hr' ⟨op', hop', hclr⟩
    exact h.applied (hnone hr') ⟨op', mem_cons_of_mem _ hop', hclr⟩
  case queued =>
    intro hr' hc hclear
    by_cases hclr : op.Clears t
    · -- the flag goes down with this clear, which has emptied the table
      exact h.applied (hnone hr') ⟨op, mem_cons_self, hclr⟩
    · rw [hflag hclr] at hc
      exact h.queued (hnone hr') hc hclear
  case flag =>
    intro hc
    by_cases hclr : op.Clears t
    · rw [hdown hclr] at hc
      cases hc
    · rw [hflag hclr] at hc
      obtain ⟨op', hop', hclr'⟩ := h.flag hc
      rcases mem_cons.mp hop' with rfl | hop'
      · exact absurd hclr' hclr
      · exact ⟨op', hop', hclr'⟩

theorem touch (h : KeyInv t k m r clearing d D U) (hr : Released 0 r r') :
    KeyInv t k m r' clearing d D U := by
  have hrow : r ≠ none → RowIs r' m (owners t k (D ++ U)) := fun hne =>
    hr.present _ _ (h.present hne).1
  have hnone : r' = none → r = none := fun hr' =>
    not_not.mp fun hne => (hrow hne).ne_none hr'
  refine ⟨fun hr' => ?_, fun hr' => h.absent (hnone hr'), h.value,
    fun hr' => h.applied (hnone hr'), fun hr' => h.queued (hnone hr'), h.flag⟩
  have hne : r ≠ none := fun hnone => hr' (hr.absent hnone)
  exact ⟨hrow hne, (h.present hne).2⟩

theorem evict (h : KeyInv t k m r clearing d D U) (hr : Evicted r r') :
    KeyInv t k m r' clearing d D U := by
  by_cases hne : r = none
  · rcases hr with rfl | ⟨rfl, -⟩
    · exact h
    · rw [hne] at h
      exact h
  rcases hr with rfl | ⟨rfl, hzero⟩
  · exact h
  obtain ⟨hrow, hcov⟩ := h.present hne
  rw [hrow.inFlightOf] at hzero
  -- nothing in flight means that no clear of the table is under way
  have hclr := hcov.not_clears hzero
  refine ⟨fun hr' => absurd rfl hr', fun _ => hzero, h.value, fun _ => ?_, fun _ _ => ?_, h.flag⟩
  · rintro ⟨op, hop, hclear⟩
    exact absurd hclear (hclr op (mem_append_left _ hop))
  · rintro ⟨op, hop, hclear⟩
    exact absurd hclear (hclr op (mem_append_right _ hop))

theorem apply (h : KeyInv t k m r clearing d [] (D ++ U)) (hd : d' = (last effect D (t, k)).getD d ∨
      (r ≠ none ∧ m ≠ none) ∧ last effect D (t, k) = some none) :
    KeyInv t k m r clearing d' D U := by
  have hD : r = none → owners t k D = 0 := by
    intro hr
    have hzero := h.absent hr
    rw [nil_append, owners_append] at hzero
    omega
  have hd' : r = none → d' = (last effect D (t, k)).getD d := fun hr =>
    hd.resolve_right fun hlive => hlive.1.1 hr
  refine ⟨h.present, h.absent, ?_, fun hr hclear => ?_, fun hr hc hclear => ?_, h.flag⟩
  · have hval := h.value
    rw [last_append] at hval
    cases hlast : last effect U (t, k) with
    | some x =>
      rw [hlast] at hval
      exact hval
    | none =>
      rw [hlast] at hval
      rcases hd with hd | ⟨⟨-, hm⟩, hnone⟩
      · exact hval.trans hd.symm
      · -- the removal of a live key is never the last word
        rw [hnone] at hval
        exact absurd hval hm
  · rcases last_of_owners_eq_zero (hD hr) with ⟨-, hnone⟩ | ⟨hlast, -⟩
    · obtain ⟨op, hop, hclr⟩ := hclear
      exact absurd hclr (hnone op hop)
    · rw [hd' hr, hlast]
      rfl
  · obtain ⟨op, hop, hclr⟩ := hclear
    have hold := h.queued hr hc ⟨op, mem_append_right _ hop, hclr⟩
    rw [hd' hr, hold]
    rcases last_of_owners_eq_zero (hD hr) with ⟨hlast, -⟩ | ⟨hlast, -⟩ <;> rw [hlast] <;> rfl

end KeyInv

end

end Axyl
