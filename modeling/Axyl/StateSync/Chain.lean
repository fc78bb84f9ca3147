import Axyl.Types.ConsensusHeader

/-! The hash-linked chain of headers that a sequence of sub-dags makes. -/

namespace Axyl
open List

variable [HashFunction]

def chainFrom : ConsensusHeader → List CommittedSubDag → List ConsensusHeader
  | _, [] => []
  | prev, d :: ds =>
    let header : ConsensusHeader := ⟨prev.digest, d, prev.number + 1⟩
    header :: chainFrom header ds

section
variable {base x : ConsensusHeader} {ds : List CommittedSubDag} {k : Nat}

theorem getElem?_chainFrom (h : (base :: chainFrom base ds)[k]? = some x) :
    (chainFrom base ds)[k]? = ds[k]?.map fun d => ⟨x.digest, d, x.number + 1⟩ := by
  induction ds generalizing base k with
  | nil => simp [chainFrom]
  | cons d ds ih =>
    cases k with
    | zero =>
      cases h
      rfl
    | succ k => exact ih h

theorem number_chainFrom (h : (base :: chainFrom base ds)[k]? = some x) :
    x.number = base.number + k := by
  induction k generalizing x with
  | zero =>
    cases h
    rfl
  | succ k ih =>
    have hlen := (List.getElem?_eq_some_iff.mp h).1
    have hprev := List.getElem?_eq_getElem (Nat.lt_of_succ_lt hlen)
    rw [List.getElem?_cons_succ, getElem?_chainFrom hprev, Option.map_eq_some_iff] at h
    obtain ⟨d, -, rfl⟩ := h
    exact congrArg Nat.succ (ih hprev)

theorem length_chainFrom (base : ConsensusHeader) (ds : List CommittedSubDag) :
    (chainFrom base ds).length = ds.length := by
  induction ds generalizing base with
  | nil => rfl
  | cons d ds ih => rw [chainFrom, length_cons, length_cons, ih]

theorem subDag_mem_of_mem_chainFrom (h : x ∈ chainFrom base ds) : x.subDag ∈ ds := by
  induction ds generalizing base with
  | nil => cases h
  | cons d ds ih =>
    rcases mem_cons.mp h with rfl | h
    · exact mem_cons_self
    · exact mem_cons_of_mem d (ih h)

def OnChain (base : ConsensusHeader) (ds : List CommittedSubDag) (x : ConsensusHeader) : Prop :=
  ∃ g ∈ base :: chainFrom base ds, g.digest = x.digest

instance decidableOnChain (base : ConsensusHeader) (ds : List CommittedSubDag) (x : ConsensusHeader) :
    Decidable (OnChain base ds x) :=
  inferInstanceAs (Decidable (∃ _ ∈ _, _))

variable {y : ConsensusHeader}

theorem onChain_of_mem (h : x ∈ chainFrom base ds) : OnChain base ds x :=
  ⟨x, mem_cons_of_mem base h, rfl⟩

theorem onChain_base : OnChain base ds base := ⟨base, mem_cons_self, rfl⟩

namespace OnChain

variable (hhash : Function.Injective HashFunction.hash)
include hhash

section
variable (h : OnChain base ds x)
include h

theorem getElem? :
    ∃ k g, (base :: chainFrom base ds)[k]? = some g ∧ g.digest = x.digest ∧
      x.number = base.number + k := by
  obtain ⟨g, hg, hdig⟩ := h
  obtain ⟨k, hk⟩ := mem_iff_getElem?.mp hg
  refine ⟨k, g, hk, hdig, ?_⟩
  rw [← (ConsensusHeader.eq_of_digest_eq hhash hdig).2.2]
  exact number_chainFrom hk

theorem base_le : base.number ≤ x.number := by
  obtain ⟨k, g, -, -, hnum⟩ := h.getElem? hhash
  omega

theorem le_length : x.number ≤ base.number + ds.length := by
  obtain ⟨k, g, hk, -, hnum⟩ := h.getElem? hhash
  have hlen := (List.getElem?_eq_some_iff.mp hk).1
  rw [length_cons, length_chainFrom] at hlen
  omega

omit h in
theorem digest_eq (hx : OnChain base ds x) (hy : OnChain base ds y) (h : x.number = y.number) :
    x.digest = y.digest := by
  obtain ⟨k, g, hk, hg, hxk⟩ := hx.getElem? hhash
  obtain ⟨k', g', hk', hg', hyk⟩ := hy.getElem? hhash
  obtain rfl : k = k' := by omega
  cases hk.symm.trans hk'
  exact hg.symm.trans hg'

theorem exists_parent (hlt : base.number < x.number) :
    ∃ g, OnChain base ds g ∧ g.number + 1 = x.number ∧ x.parentHash = g.digest := by
  obtain ⟨k, g, hk, hg, hnum⟩ := h.getElem? hhash
  obtain ⟨k, rfl⟩ : ∃ j, k = j + 1 := ⟨k - 1, by omega⟩
  have hlen := (List.getElem?_eq_some_iff.mp hk).1
  have hprev := List.getElem?_eq_getElem (Nat.lt_of_succ_lt hlen)
  generalize (base :: chainFrom base ds)[k] = p at hprev
  refine ⟨p, ⟨p, mem_of_getElem? hprev, rfl⟩, ?_, ?_⟩
  · have := number_chainFrom hprev
    omega
  · rw [List.getElem?_cons_succ, getElem?_chainFrom hprev, Option.map_eq_some_iff] at hk
    obtain ⟨d, -, rfl⟩ := hk
    exact (ConsensusHeader.eq_of_digest_eq hhash hg).1.symm

theorem of_parentHash (hlt : base.number < x.number) (hlnk : x.parentHash = y.digest) :
    OnChain base ds y := by
  obtain ⟨g, ⟨g', hg', hdig⟩, -, hpar⟩ := h.exists_parent hhash hlt
  exact ⟨g', hg', hdig.trans (hpar.symm.trans hlnk)⟩

end

theorem parentHash_eq (hx : OnChain base ds x) (hy : OnChain base ds y)
    (h : y.number + 1 = x.number) : x.parentHash = y.digest := by
  have hle := hy.base_le hhash
  obtain ⟨g, hg, hnum, hpar⟩ := hx.exists_parent hhash (by omega)
  rw [hpar]
  exact hg.digest_eq hhash hy (by omega)

end OnChain

end

end Axyl
