import Mathlib.Data.List.Induction
import Mathlib.Data.List.Sort
import Std.Data.ExtTreeMap

/-! Lists of rows in the order of their keys, the merge of two such lists, and walks that go back
one row at a time. -/

namespace Axyl.MergeJoin
open List
open Std (TransCmp LawfulEqCmp OrientedCmp ReflCmp)

variable {K V : Type} {cmp : K → K → Ordering}

def Ordered (cmp : K → K → Ordering) (rows : List (K × V)) : Prop :=
  rows.Pairwise fun a b => cmp a.1 b.1 = .lt

theorem Ordered.ext [TransCmp cmp] {l₁ l₂ : List (K × V)} (h₁ : Ordered cmp l₁)
    (h₂ : Ordered cmp l₂) (h : ∀ row, row ∈ l₁ ↔ row ∈ l₂) : l₁ = l₂ := by
  have : Std.Irrefl fun a b : K × V => cmp a.1 b.1 = .lt := ⟨fun a ha => by
    have hself : cmp a.1 a.1 = .eq := ReflCmp.compare_self
    rw [hself] at ha
    cases ha⟩
  have : Std.Antisymm fun a b : K × V => cmp a.1 b.1 = .lt := ⟨fun a b hab hba => by
    rw [OrientedCmp.gt_iff_lt.mpr hba] at hab
    cases hab⟩
  exact h₁.eq_of_mem_iff h₂ h

/-- A row of `mem` takes the place of the row of `db` with its key. The row of `db` that comes
first is looked up in `hidden`, and the lookups are counted, since they happen one by one. -/
def mergeJoin (cmp : K → K → Ordering) (hidden : Nat → K → Bool) :
    Nat → List (K × V) → List (K × V) → List (K × V)
  | _, [], mem => mem
  | i, row :: db, [] =>
    if hidden i row.1 then mergeJoin cmp hidden (i + 1) db []
    else row :: mergeJoin cmp hidden (i + 1) db []
  | i, row :: db, row' :: mem =>
    match cmp row.1 row'.1 with
    | .lt =>
      if hidden i row.1 then mergeJoin cmp hidden (i + 1) db (row' :: mem)
      else row :: mergeJoin cmp hidden (i + 1) db (row' :: mem)
    | .eq => row' :: mergeJoin cmp hidden i db mem
    | .gt => row' :: mergeJoin cmp hidden i (row :: db) mem
termination_by _ db mem => db.length + mem.length

section
variable [TransCmp cmp] {hidden : Nat → K → Bool} {gone : K → Bool} {db mem : List (K × V)}
    {row : K × V}

theorem key_ne_of_lt (h : ∀ row' ∈ mem, cmp row.1 row'.1 = .lt) : ∀ row' ∈ mem, row'.1 ≠ row.1 := by
  intro row' hrow' heq
  have hlt := h row' hrow'
  have hself : cmp row.1 row.1 = .eq := ReflCmp.compare_self
  rw [heq, hself] at hlt
  cases hlt

theorem lt_of_cons {k : K} (h : Ordered cmp (row :: mem)) (hk : cmp k row.1 = .lt) :
    ∀ row' ∈ row :: mem, cmp k row'.1 = .lt := by
  intro row' hrow'
  rcases mem_cons.mp hrow' with rfl | hrow'
  · exact hk
  · exact TransCmp.lt_trans hk ((pairwise_cons.mp h).1 row' hrow')

variable {i : Nat}

theorem mem_mergeJoin [LawfulEqCmp cmp] (hdb : Ordered cmp db) (hmem : Ordered cmp mem)
    (hgone : ∀ i, ∀ row ∈ db, hidden i row.1 = gone row.1) : row ∈ mergeJoin cmp hidden i db mem ↔
      row ∈ mem ∨ row ∈ db ∧ gone row.1 = false ∧ ∀ row' ∈ mem, row'.1 ≠ row.1 := by
  induction i, db, mem using mergeJoin.induct cmp hidden with
  | case1 i mem =>
    rw [mergeJoin]
    simp
  | case2 i d db hhid ih =>
    rw [mergeJoin, if_pos hhid, ih (pairwise_cons.mp hdb).2 hmem fun j r hr =>
      hgone j r (mem_cons_of_mem _ hr)]
    grind
  | case3 i d db hhid ih =>
    rw [mergeJoin, if_neg hhid, mem_cons, ih (pairwise_cons.mp hdb).2 hmem
      fun j r hr => hgone j r (mem_cons_of_mem _ hr)]
    grind
  | case4 i d db m mem hlt hhid ih =>
    rw [mergeJoin, hlt]
    rw [if_pos hhid, ih (pairwise_cons.mp hdb).2 hmem fun j r hr =>
      hgone j r (mem_cons_of_mem _ hr)]
    grind
  | case5 i d db m mem hlt hhid ih =>
    rw [mergeJoin, hlt]
    rw [if_neg hhid, mem_cons, ih (pairwise_cons.mp hdb).2 hmem fun j r hr =>
      hgone j r (mem_cons_of_mem _ hr)]
    have hne := key_ne_of_lt (lt_of_cons hmem hlt)
    grind
  | case6 i d db m mem heq ih =>
    rw [mergeJoin, heq]
    rw [mem_cons, ih (pairwise_cons.mp hdb).2 (pairwise_cons.mp hmem).2
      fun j r hr => hgone j r (mem_cons_of_mem _ hr)]
    -- the later rows of the lower list have other keys than the two in front
    have hne : ∀ r ∈ db, r.1 ≠ d.1 := key_ne_of_lt (pairwise_cons.mp hdb).1
    grind
  | case7 i d db m mem hgt ih =>
    rw [mergeJoin, hgt]
    rw [mem_cons, ih hdb (pairwise_cons.mp hmem).2 hgone]
    have hlt : cmp m.1 d.1 = .lt := OrientedCmp.gt_iff_lt.mp hgt
    have hne : ∀ r ∈ d :: db, r.1 ≠ m.1 := key_ne_of_lt (lt_of_cons hdb hlt)
    grind

omit [TransCmp cmp] in
theorem of_mem_mergeJoin (h : row ∈ mergeJoin cmp hidden i db mem) : row ∈ db ∨ row ∈ mem := by
  fun_induction mergeJoin cmp hidden i db mem <;> grind

theorem ordered_mergeJoin [LawfulEqCmp cmp] (hdb : Ordered cmp db) (hmem : Ordered cmp mem) :
    Ordered cmp (mergeJoin cmp hidden i db mem) := by
  induction i, db, mem using mergeJoin.induct cmp hidden with
  | case1 i mem =>
    rw [mergeJoin]
    exact hmem
  | case2 i d db hhid ih =>
    rw [mergeJoin, if_pos hhid]
    exact ih (pairwise_cons.mp hdb).2 hmem
  | case3 i d db hhid ih =>
    rw [mergeJoin, if_neg hhid]
    refine pairwise_cons.mpr ⟨fun row hrow => ?_, ih (pairwise_cons.mp hdb).2 hmem⟩
    rcases of_mem_mergeJoin hrow with hrow | hrow
    · exact (pairwise_cons.mp hdb).1 row hrow
    · cases hrow
  | case4 i d db m mem hlt hhid ih =>
    rw [mergeJoin, hlt]
    rw [if_pos hhid]
    exact ih (pairwise_cons.mp hdb).2 hmem
  | case5 i d db m mem hlt hhid ih =>
    rw [mergeJoin, hlt]
    rw [if_neg hhid]
    refine pairwise_cons.mpr ⟨fun row hrow => ?_, ih (pairwise_cons.mp hdb).2 hmem⟩
    rcases of_mem_mergeJoin hrow with hrow | hrow
    · exact (pairwise_cons.mp hdb).1 row hrow
    · exact lt_of_cons hmem hlt row hrow
  | case6 i d db m mem heq ih =>
    rw [mergeJoin, heq]
    refine pairwise_cons.mpr ⟨fun row hrow => ?_,
      ih (pairwise_cons.mp hdb).2 (pairwise_cons.mp hmem).2⟩
    rcases of_mem_mergeJoin hrow with hrow | hrow
    · rw [← LawfulEqCmp.eq_of_compare heq]
      exact (pairwise_cons.mp hdb).1 row hrow
    · exact (pairwise_cons.mp hmem).1 row hrow
  | case7 i d db m mem hgt ih =>
    rw [mergeJoin, hgt]
    refine pairwise_cons.mpr ⟨fun row hrow => ?_, ih hdb (pairwise_cons.mp hmem).2⟩
    rcases of_mem_mergeJoin hrow with hrow | hrow
    · exact lt_of_cons hdb (OrientedCmp.gt_iff_lt.mp hgt) row hrow
    · exact (pairwise_cons.mp hmem).1 row hrow

theorem mergeJoin_eq [LawfulEqCmp cmp] {rows : List (K × V)} (hrows : Ordered cmp rows)
    (hdb : Ordered cmp db) (hmem : Ordered cmp mem)
    (hgone : ∀ i, ∀ row ∈ db, hidden i row.1 = gone row.1) (h : ∀ row, row ∈ rows ↔
      row ∈ mem ∨ row ∈ db ∧ gone row.1 = false ∧ ∀ row' ∈ mem, row'.1 ≠ row.1) :
    mergeJoin cmp hidden i db mem = rows :=
  (ordered_mergeJoin hdb hmem).ext hrows fun row =>
    (mem_mergeJoin hdb hmem hgone).trans (h row).symm

end

/-- The walk back from the row `first`. It ends when the answer of `prior` is not below the key
that was asked for. -/
def stepBack (cmp : K → K → Ordering) (prior : K → Option (K × V)) :
    Nat → Option (K × V) → List (K × V)
  | 0, _ => []
  | _, none => []
  | fuel + 1, some row =>
    row :: stepBack cmp prior fuel ((prior row.1).filter fun p => cmp p.1 row.1 = .lt)

section
variable {rows : List (K × V)} {p : K → Bool}

theorem Ordered.filter_eq_nil {row : K × V} (h : Ordered cmp (row :: rows))
    (hp : ∀ a b, cmp a b = .lt → p b = true → p a = true) (hrow : p row.1 = false) :
    rows.filter (fun row => p row.1) = [] := by
  rw [filter_eq_nil_iff]
  intro row' hrow' hp'
  rw [hp _ _ ((pairwise_cons.mp h).1 row' hrow') hp'] at hrow
  cases hrow

section
variable (h : Ordered cmp rows)
include h

section
variable (hp : ∀ a b, cmp a b = .lt → p b = true → p a = true)
include hp

theorem Ordered.takeWhile_eq :
    rows.takeWhile (fun row => p row.1) = rows.filter fun row => p row.1 := by
  induction rows with
  | nil => rfl
  | cons row rows ih =>
    rw [takeWhile_cons, filter_cons]
    cases hrow : p row.1 with
    | true => simp [ih (pairwise_cons.mp h).2]
    | false => simp [h.filter_eq_nil hp hrow]

theorem Ordered.dropWhile_eq :
    rows.dropWhile (fun row => p row.1) = rows.filter fun row => !p row.1 := by
  induction rows with
  | nil => rfl
  | cons row rows ih =>
    rw [dropWhile_cons, filter_cons]
    cases hrow : p row.1 with
    | true => simp [ih (pairwise_cons.mp h).2]
    | false =>
      have hall : rows.filter (fun row => !p row.1) = rows := by
        rw [filter_eq_self]
        intro row' hrow'
        have hnone := filter_eq_nil_iff.mp (h.filter_eq_nil hp hrow) row' hrow'
        simpa using hnone
      simp [hall]

end

theorem Ordered.filter_lt [TransCmp cmp] {l : List (K × V)} {row : K × V}
    (hl : l ++ [row] <+: rows) : rows.filter (fun r => cmp r.1 row.1 = .lt) = l := by
  obtain ⟨rest, rfl⟩ := hl
  obtain ⟨hpre, -, -⟩ := pairwise_append.mp h
  obtain ⟨-, -, hlt⟩ := pairwise_append.mp hpre
  obtain ⟨-, -, hgt⟩ := pairwise_append.mp h
  have hself : cmp row.1 row.1 = .eq := ReflCmp.compare_self
  rw [filter_append, filter_append, filter_eq_self.mpr, filter_eq_nil_iff.mpr,
    filter_eq_nil_iff.mpr, append_nil, append_nil]
  · intro r hr hlt'
    have hgt' := hgt row (mem_append_right _ (mem_singleton_self row)) r hr
    rw [OrientedCmp.gt_iff_lt.mpr hgt'] at hlt'
    cases hlt'
  · intro r hr hlt'
    rw [mem_singleton.mp hr, hself] at hlt'
    cases hlt'
  · intro r hr
    exact decide_eq_true (hlt r hr row (mem_singleton_self row))

theorem stepBack_eq [TransCmp cmp] {prior : K → Option (K × V)}
    (hprior : ∀ k, prior k = (rows.filter fun r => cmp r.1 k = .lt).getLast?)
    (hp : ∀ a b, cmp a b = .lt → p b = true → p a = true) {fuel : Nat}
    (hfuel : rows.length ≤ fuel) :
    stepBack cmp prior fuel (rows.filter fun row => p row.1).getLast? =
      (rows.filter fun row => p row.1).reverse := by
  have hwalk : ∀ l : List (K × V), l <+: rows → ∀ fuel, l.length ≤ fuel →
      stepBack cmp prior fuel l.getLast? = l.reverse := by
    intro l
    induction l using List.reverseRecOn with
    | nil =>
      intro _ fuel _
      cases fuel <;> rfl
    | append_singleton l row ih =>
      intro hl fuel hfuel
      rw [length_append, length_singleton] at hfuel
      obtain ⟨fuel, rfl⟩ : ∃ n, fuel = n + 1 := ⟨fuel - 1, by omega⟩
      have hbef := h.filter_lt hl
      have hnext : (prior row.1).filter (fun r => cmp r.1 row.1 = .lt) = l.getLast? := by
        rw [hprior, hbef]
        cases hlast : l.getLast? with
        | none => rfl
        | some r =>
          have hr : r ∈ l := mem_of_getLast? hlast
          rw [← hbef] at hr
          exact Option.filter_some_pos (mem_filter.mp hr).2
      rw [List.getLast?_concat, stepBack, hnext,
        ih ((prefix_append l [row]).trans hl) fuel (by omega), reverse_concat]
  apply hwalk
  · rw [← h.takeWhile_eq hp]
    exact takeWhile_prefix _
  · exact (length_filter_le _ _).trans hfuel

end

end

end Axyl.MergeJoin
