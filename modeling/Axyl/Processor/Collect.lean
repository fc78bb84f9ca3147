import Axyl.Processor.Orchestrator

/-! What accepting, draining and collecting a batch can do to the registry and to the parked
batches, with every fork active. -/

namespace Axyl
open List AuthoritySeqState
open Std (ExtTreeMap)
open BatchOrderingState
open Std.ExtTreeMap
open Fallible (Spec bind_eq_ok)

namespace BatchOrderingState

variable {o : BatchOrderingState} {a : Nat} {auth : AuthoritySeqState}

@[simp] theorem get_set (b : Nat) : (o.set a auth).get b = if b = a then auth else o.get b := by
  simp only [get, set, ExtTreeMap.getElem?_insert, Nat.compare_eq_eq, eq_comm (a := a)]
  split <;> rfl

@[simp] theorem parked_set (b : Nat) :
    (o.set a auth).parked b = if b = a then auth.parked else o.parked b := by
  simp only [parked, get_set]
  split <;> rfl

end BatchOrderingState

theorem nextSeq_eq_ok {k n : Nat} (h : nextSeq k = .ok n) : n = k + 1 := by
  unfold nextSeq at h
  split at h
  · cases h
    rfl
  · cases h

theorem nextSeq_eq_error {k : Nat} {e : EngineError} (h : nextSeq k = .error e) :
    e = .seqOverflow := by
  unfold nextSeq at h
  split at h
  · cases h
  · exact (Except.error.inj h).symm

namespace AuthoritySeqState

def parks (auth : AuthoritySeqState) (k : Nat) : Bool :=
  match auth.lastExecutedSeq with
  | none => false
  | some last => decide (last + 1 < k) && decide (auth.parked.size < maxParkedPerAuthority)

def accepting (auth : AuthoritySeqState) (k : Nat) : AuthoritySeqState :=
  { auth with lastExecutedSeq := some (max (auth.lastExecutedSeq.getD k) k) }

inductive Accept (auth : AuthoritySeqState) (k : Nat) (p : PreparedBatch) (n : Bool) :
    AcceptResult → AuthoritySeqState → Prop
  | inOrder (h : auth.parks k = false) : Accept auth k p n (.inOrder p) (auth.accepting k)
  | parked (h : auth.parks k) :
    Accept auth k p n .parked { auth with parked := auth.parked.insert k p }
  | forced (h : auth.parks k = false) : Accept auth k p n (.overflowForced p)
    { auth.accepting k with
      parked := if n then auth.parked.filter fun seq _ => k + 1 ≤ seq else auth.parked }

theorem tryAccept_spec (auth : AuthoritySeqState) (k : Nat) (p : PreparedBatch) (n : Bool) :
    Spec (fun r => auth.Accept k p n r.1 r.2) (fun e => nextSeq k = .error e)
      (auth.tryAccept k p n) := by
  have hin := @Accept.inOrder auth k p n
  have hforc := @Accept.forced auth k p n
  have hpark := @Accept.parked auth k p n
  obtain ⟨last, parked⟩ := auth
  cases last with
  | none =>
    rw [accepting, Option.getD_none, max_self] at hin
    exact hin rfl
  | some last =>
    simp only [parks, accepting, Option.getD_some, Bool.and_eq_true, Bool.and_eq_false_iff,
      decide_eq_true_eq, decide_eq_false_iff_not] at hin hforc hpark
    unfold tryAccept
    dsimp only
    split
    · rename_i hle
      rw [max_eq_left hle] at hin
      exact hin (.inl (by omega))
    · rename_i hgt
      rw [max_eq_right (by omega)] at hin hforc
      split
      · split
        · rename_i hfull
          split
          · rename_i hn
            rw [if_pos hn] at hforc
            cases hnext : nextSeq k with
            | error e => exact rfl
            | ok bound =>
              rw [nextSeq_eq_ok hnext]
              exact hforc (.inr (by omega))
          · rename_i hn
            rw [if_neg hn] at hforc
            exact hforc (.inr (by omega))
        · rename_i hroom
          exact hpark ⟨by omega, Nat.lt_of_not_le hroom⟩
      · exact hin (.inl (by omega))

/-- What accepting and draining keep of one authority's state, and the errors they stop with. -/
structure Kept (I : AuthoritySeqState → Prop) (E : EngineError → Prop) (p : PreparedBatch)
    (n : Bool) : Prop where
  accept : ∀ auth, I auth → Spec (fun r => I r.2) E (auth.tryAccept p.batch.seq p n)
  drain : ∀ auth last, I auth → auth.lastExecutedSeq = some last →
    Spec (fun next => next ∈ auth.parked → I ⟨some next, auth.parked.erase next⟩) E (nextSeq last)

theorem kept_trivial (p : PreparedBatch) (n : Bool) :
    Kept (fun _ => True) (· = .seqOverflow) p n where
  accept auth _ := (tryAccept_spec auth p.batch.seq p n).mono (fun _ _ => trivial)
    fun _ => nextSeq_eq_error
  drain _ _ _ _ := (Spec.of_error fun _ => nextSeq_eq_error).mono (fun _ _ _ => trivial)
    fun _ he => he

section
variable {I : AuthoritySeqState → Prop} {E : EngineError → Prop} {p : PreparedBatch} {n : Bool}
  {auth : AuthoritySeqState}

theorem Kept.drainLoop (h : Kept I E p n) (hauth : I auth) (check : Bool) (turns : Nat)
    (reg : ExecutedBatchRegistry) : Spec (fun r => I r.2.1) E (drainLoop check turns auth reg) := by
  induction turns generalizing auth reg with
  | zero => exact hauth
  | succ turns ih =>
    rw [drainLoop]
    split
    · exact hauth
    · rename_i last hlast
      refine (h.drain auth last hauth hlast).bind fun next hnext => ?_
      split
      · exact hauth
      · rename_i q hq
        have herased := hnext (mem_iff_isSome_getElem?.mpr (by rw [hq]; rfl))
        split
        · exact (ih herased _).bind fun r hr => hr
        · exact (ih herased _).bind fun r hr => hr

end

end AuthoritySeqState

/-- The change from one registry to the next that adds the digests of a list, each of them new. -/
structure Registers (reg : ExecutedBatchRegistry) (ps : List PreparedBatch)
    (reg' : ExecutedBatchRegistry) : Prop where
  count : ∀ d, (ps.map PreparedBatch.batchDigest).count d + (reg.contains d).toNat =
    (reg'.contains d).toNat
  retry : ∀ d, reg'.retryCount d = reg.retryCount d

namespace Registers

variable {reg reg' reg'' : ExecutedBatchRegistry} {ps qs : List PreparedBatch} {d : Nat}

theorem refl (reg : ExecutedBatchRegistry) : Registers reg [] reg := ⟨fun _ => by simp, fun _ => rfl⟩

theorem append (h : Registers reg ps reg') (h' : Registers reg' qs reg'') :
    Registers reg (ps ++ qs) reg'' := by
  refine ⟨fun d => ?_, fun d => (h'.retry d).trans (h.retry d)⟩
  have h₁ := h.count d
  have h₂ := h'.count d
  rw [map_append, count_append]
  omega

theorem tryRegister (reg : ExecutedBatchRegistry) (p : PreparedBatch) :
    Registers reg (if (reg.tryRegister p.batchDigest).1 then [p] else [])
      (reg.tryRegister p.batchDigest).2 := by
  refine ⟨fun d => ?_, fun d => rfl⟩
  rw [ExecutedBatchRegistry.contains_tryRegister]
  by_cases hd : p.batchDigest = d
  · subst hd
    cases hc : reg.contains p.batchDigest <;> simp [ExecutedBatchRegistry.tryRegister, hc]
  · have hne : (p.batchDigest == d) = false := beq_false_of_ne hd
    cases hc : reg.contains p.batchDigest <;>
      simp [ExecutedBatchRegistry.tryRegister, hc, hne, count_cons]

section
variable (h : Registers reg ps reg')
include h

theorem contains_mono (hd : reg.contains d) : reg'.contains d := by
  have := h.count d
  rw [hd] at this
  cases hc : reg'.contains d with
  | true => rfl
  | false =>
    rw [hc, Bool.toNat_true, Bool.toNat_false] at this
    omega

theorem mem_of_contains (hd : reg.contains d = false)
    (hd' : reg'.contains d) : d ∈ ps.map PreparedBatch.batchDigest := by
  have := h.count d
  rw [hd, hd', Bool.toNat_true, Bool.toNat_false] at this
  apply count_pos_iff.mp
  omega

theorem not_mem_of_contains (hd : reg.contains d) : d ∉ ps.map PreparedBatch.batchDigest := by
  have := h.count d
  rw [hd, h.contains_mono hd] at this
  apply count_eq_zero.mp
  omega

end

end Registers

structure Drains (parked : ExtTreeMap Nat PreparedBatch) (reg : ExecutedBatchRegistry)
    (drained : List PreparedBatch) (parked' : ExtTreeMap Nat PreparedBatch)
    (reg' : ExecutedBatchRegistry) : Prop where
  registers : Registers reg drained reg'
  kept : ∀ (k : Nat) q, parked'[k]? = some q → parked[k]? = some q
  left : ∀ (k : Nat) q, parked[k]? = some q → parked'[k]? = some q ∨ reg'.contains q.batchDigest
  mem : ∀ p ∈ drained, ∃ (k : Nat) (q : PreparedBatch),
    parked[k]? = some q ∧ p = { q with drained := true }

theorem Drains.refl (parked : ExtTreeMap Nat PreparedBatch) (reg : ExecutedBatchRegistry) :
    Drains parked reg [] parked reg :=
  ⟨.refl reg, fun _ _ h => h, fun _ _ h => .inl h, nofun⟩

theorem Drains.cons {parked parked' : ExtTreeMap Nat PreparedBatch}
    {reg reg' : ExecutedBatchRegistry} {rest : List PreparedBatch} {n : Nat} {q : PreparedBatch}
    (hq : parked[n]? = some q)
    (h : Drains (parked.erase n) (reg.tryRegister q.batchDigest).2 rest parked' reg') :
    Drains parked reg
      (if (reg.tryRegister q.batchDigest).1 then { q with drained := true } :: rest else rest)
      parked' reg' := by
  have herase : ∀ k : Nat, (parked.erase n)[k]? = if n = k then none else parked[k]? := by
    intro k
    simp only [getElem?_erase, Nat.compare_eq_eq]
  have hreg := (Registers.tryRegister reg { q with drained := true }).append h.registers
  refine ⟨?_, fun k x hx => ?_, fun k x hx => ?_, fun p hp => ?_⟩
  · split at hreg
    · rename_i hnew
      rwa [if_pos hnew]
    · rename_i hnew
      rwa [if_neg hnew]
  · have := h.kept k x hx
    rw [herase] at this
    split at this
    · cases this
    · exact this
  · by_cases hk : n = k
    · subst hk
      rw [hq, Option.some.injEq] at hx
      subst hx
      refine .inr (h.registers.contains_mono ?_)
      simp
    · apply h.left
      rw [herase, if_neg hk]
      exact hx
  · have hrest : p ∈ rest → ∃ (k : Nat) (q : PreparedBatch),
        parked[k]? = some q ∧ p = { q with drained := true } := by
      intro hp
      obtain ⟨k, x, hx, rfl⟩ := h.mem p hp
      rw [herase] at hx
      split at hx
      · cases hx
      · exact ⟨k, x, hx, rfl⟩
    split at hp
    · rcases mem_cons.mp hp with rfl | hp
      · exact ⟨n, q, hq, rfl⟩
      · exact hrest hp
    · exact hrest hp

namespace AuthoritySeqState

theorem drainLoop_spec {turns : Nat} {auth auth' : AuthoritySeqState}
    {reg reg' : ExecutedBatchRegistry} {drained : List PreparedBatch}
    (h : drainLoop true turns auth reg = .ok (drained, auth', reg')) :
    Drains auth.parked reg drained auth'.parked reg' := by
  induction turns generalizing auth reg drained with
  | zero =>
    cases h
    exact .refl _ _
  | succ turns ih =>
    rw [drainLoop] at h
    split at h
    · cases h
      exact .refl _ _
    · obtain ⟨next, hnext, h⟩ := bind_eq_ok.mp h
      split at h
      · cases h
        exact .refl _ _
      · rename_i q hq
        obtain ⟨⟨rest, auth₁, reg₁⟩, hrest, h⟩ := bind_eq_ok.mp h
        cases h
        exact .cons hq (ih hrest)

end AuthoritySeqState

namespace BatchOrderingState

def Within (I : AuthoritySeqState → Prop) (epoch : Nat) (o : BatchOrderingState) : Prop :=
  o.epoch = epoch ∧ ∀ a, I (o.get a)

section
variable {I : AuthoritySeqState → Prop} {E : EngineError → Prop} {p : PreparedBatch} {n : Bool}
  {o : BatchOrderingState} {epoch : Nat}

theorem Within.set (h : o.Within I epoch) (a : Nat) {auth : AuthoritySeqState} (hauth : I auth) :
    (o.set a auth).Within I epoch := by
  refine ⟨h.1, fun b => ?_⟩
  rw [get_set]
  split
  · exact hauth
  · exact h.2 b

theorem Within.drainEpoch (h : ∀ a, I (o.get a)) (hdefault : I .default) (epoch : Nat) :
    (o.drainEpoch epoch).2.Within I (max o.epoch epoch) := by
  unfold BatchOrderingState.drainEpoch
  split
  · rename_i hle
    exact ⟨(max_eq_left hle).symm, h⟩
  · rename_i hlt
    refine ⟨(max_eq_right (Nat.le_of_not_le hlt)).symm, fun a => ?_⟩
    simpa [get] using hdefault

theorem Within.tryAccept (h : AuthoritySeqState.Kept I E p n) (ho : o.Within I epoch) (a : Nat) :
    Spec (fun r => r.2.Within I epoch) E (o.tryAccept a p.batch.seq p n) := by
  unfold BatchOrderingState.tryAccept
  split
  · exact ho
  · have hacc := h.accept (o.get a) (ho.2 a)
    split
    · exact hacc.error ‹_›
    · exact ho.set a (hacc.ok ‹_›)

theorem Within.drainConsecutive (h : AuthoritySeqState.Kept I E p n) (ho : o.Within I epoch)
    (a : Nat) (reg : ExecutedBatchRegistry) (check : Bool) :
    Spec (fun r => r.2.1.Within I epoch) E (o.drainConsecutive a reg check) := by
  unfold BatchOrderingState.drainConsecutive
  split
  · exact ho
  · rename_i auth hauth
    have hget : I auth := by simpa [get, hauth] using ho.2 a
    have hloop := h.drainLoop hget check (auth.parked.size + 1) reg
    split
    · exact hloop.error ‹_›
    · exact ho.set a (hloop.ok ‹_›)

end

variable {o o' : BatchOrderingState} {a k : Nat} {p : PreparedBatch} {res : AcceptResult}

theorem tryAccept_eq_ok (h : o.tryAccept a k p true = .ok (res, o')) (hk : k ≠ 0) :
    ∃ auth, (o.get a).Accept k p true res auth ∧ o' = o.set a auth := by
  rw [tryAccept, if_neg hk] at h
  split at h
  · cases h
  · rename_i auth hauth
    cases h
    exact ⟨auth, (tryAccept_spec _ _ _ _).ok hauth, rfl⟩

theorem tryAccept_cases (h : o.tryAccept a k p true = .ok (res, o')) :
    (res = .inOrder p ∧ ∀ b, o'.parked b = o.parked b) ∨ (res = .parked ∧
        ∀ b, o'.parked b = if b = a then (o.parked a).insert k p else o.parked b) ∨
      (res = .overflowForced p ∧ ∀ b, o'.parked b =
        if b = a then (o.parked a).filter fun seq _ => k + 1 ≤ seq else o.parked b) := by
  by_cases hk : k = 0
  · rw [tryAccept, if_pos hk] at h
    cases h
    exact .inl ⟨rfl, fun _ => rfl⟩
  · obtain ⟨auth, hacc, rfl⟩ := tryAccept_eq_ok h hk
    cases hacc with
    | inOrder =>
      refine .inl ⟨rfl, fun b => ?_⟩
      rw [parked_set]
      split
      · rename_i hb
        rw [hb]
        rfl
      · rfl
    | parked => exact .inr (.inl ⟨rfl, fun b => parked_set b⟩)
    | forced => exact .inr (.inr ⟨rfl, fun b => parked_set b⟩)

theorem drainConsecutive_spec {reg reg' : ExecutedBatchRegistry} {drained : List PreparedBatch}
    (h : o.drainConsecutive a reg true = .ok (drained, o', reg')) :
    (∀ b, b ≠ a → o'.parked b = o.parked b) ∧
      Drains (o.parked a) reg drained (o'.parked a) reg' := by
  unfold drainConsecutive at h
  split at h
  · cases h
    exact ⟨fun _ _ => rfl, .refl _ _⟩
  · rename_i auth hauth
    split at h
    · cases h
    · rename_i d auth₁ reg₁ hloop
      cases h
      have hget : o.parked a = auth.parked := by simp [parked, get, hauth]
      refine ⟨fun b hb => ?_, ?_⟩
      · rw [parked_set, if_neg hb]
      · rw [parked_set, if_pos rfl, hget]
        exact drainLoop_spec hloop

end BatchOrderingState

structure Collects (s : CollectState) (p : PreparedBatch) (c : Collected) (s' : CollectState) :
    Prop where
  registers : Registers s.registry c.batches s'.registry
  duplicate_iff : c.disposition = .duplicate ↔ s.registry.contains p.batchDigest
  placed : c.disposition ≠ .duplicate →
    p ∈ c.batches ∨ (s'.ordering.parked p.beneficiary)[p.batch.seq]? = some p
  mem : ∀ x ∈ c.batches, x = p ∨ ∃ (a k : Nat) (q : PreparedBatch),
    (s.ordering.parked a)[k]? = some q ∧ x = { q with drained := true }
  parkedFrom : ∀ (a k : Nat) q, (s'.ordering.parked a)[k]? = some q →
    (s.ordering.parked a)[k]? = some q ∨ q = p
  parkedTo : ∀ (a k : Nat) q, (s.ordering.parked a)[k]? = some q →
    (s'.ordering.parked a)[k]? = some q ∨ s'.registry.contains q.batchDigest ∨
      (a = p.beneficiary ∧ k = p.batch.seq ∧
        (s'.ordering.parked a)[k]? = some p ∧ c.disposition = .parked) ∨
      (a = p.beneficiary ∧ k ≤ p.batch.seq ∧ c.disposition = .overflowForced)

namespace CollectState

variable {s s' : CollectState} {p : PreparedBatch} {c : Collected} {disp : Disposition}
    {o : BatchOrderingState}

theorem registerAndDrain_spec (h : s.registerAndDrain disp p o = .ok (c, s'))
    (hnew : s.registry.contains p.batchDigest = false) : c.disposition = disp ∧ p ∈ c.batches ∧
      Registers s.registry c.batches s'.registry ∧
      (∀ x ∈ c.batches, x = p ∨ ∃ (a k : Nat) (q : PreparedBatch),
        (o.parked a)[k]? = some q ∧ x = { q with drained := true }) ∧
      (∀ (a k : Nat) q, (s'.ordering.parked a)[k]? = some q → (o.parked a)[k]? = some q) ∧
      ∀ (a k : Nat) q, (o.parked a)[k]? = some q →
        (s'.ordering.parked a)[k]? = some q ∨ s'.registry.contains q.batchDigest := by
  have hfre : (s.registry.tryRegister p.batchDigest).1 = true := by
    simp [ExecutedBatchRegistry.tryRegister, hnew]
  unfold registerAndDrain at h
  dsimp only at h
  rw [if_pos hfre] at h
  obtain ⟨⟨drained, o', reg'⟩, hdrain, h⟩ := bind_eq_ok.mp h
  cases h
  obtain ⟨hoth, hd⟩ := drainConsecutive_spec hdrain
  have hreg := Registers.tryRegister s.registry p
  rw [if_pos hfre] at hreg
  refine ⟨rfl, mem_cons_self, hreg.append hd.registers, fun x hx => ?_, ?_, ?_⟩
  · rcases mem_cons.mp hx with rfl | hx
    · exact .inl rfl
    · obtain ⟨k, q, hq, rfl⟩ := hd.mem x hx
      exact .inr ⟨p.beneficiary, k, q, hq, rfl⟩
  · intro a k q hq
    by_cases ha : a = p.beneficiary
    · subst ha
      exact hd.kept k q hq
    · rwa [hoth a ha] at hq
  · intro a k q hq
    by_cases ha : a = p.beneficiary
    · subst ha
      exact hd.left k q hq
    · exact .inl (by rwa [hoth a ha])

theorem collects_parked (hnew : s.registry.contains p.batchDigest = false)
    (hp : ∀ b, o.parked b = if b = p.beneficiary then
      (s.ordering.parked p.beneficiary).insert p.batch.seq p else s.ordering.parked b) :
    Collects s p ⟨.parked, []⟩ { s with ordering := o } := by
  have hget : ∀ a k : Nat, (o.parked a)[k]? =
      if a = p.beneficiary ∧ k = p.batch.seq then some p else (s.ordering.parked a)[k]? := by
    intro a k
    rw [hp]
    by_cases ha : a = p.beneficiary
    · subst ha
      simp only [if_true, ExtTreeMap.getElem?_insert, Nat.compare_eq_eq, true_and,
        eq_comm (a := p.batch.seq)]
    · simp [ha]
  refine ⟨.refl _, by simp [hnew], fun _ => .inr ?_,
    forall_mem_nil _, fun a k q hq => ?_, fun a k q hq => ?_⟩
  · rw [hget, if_pos ⟨rfl, rfl⟩]
  · rw [hget] at hq
    split at hq
    · exact .inr (Option.some.inj hq).symm
    · exact .inl hq
  · by_cases hat : a = p.beneficiary ∧ k = p.batch.seq
    · refine .inr (.inr (.inl ⟨hat.1, hat.2, ?_, rfl⟩))
      rw [hget, if_pos hat]
    · refine .inl ?_
      rw [hget, if_neg hat]
      exact hq

theorem collects_accepted (low : Nat → Nat → Prop)
    (hnew : s.registry.contains p.batchDigest = false) (hdup : disp ≠ .duplicate)
    (h : s.registerAndDrain disp p o = .ok (c, s'))
    (hsub : ∀ (a k : Nat) q, (o.parked a)[k]? = some q → (s.ordering.parked a)[k]? = some q)
    (hlow : ∀ (a k : Nat) q, (s.ordering.parked a)[k]? = some q →
      (o.parked a)[k]? = some q ∨ low a k) (hforc : ∀ a k, low a k →
      a = p.beneficiary ∧ k ≤ p.batch.seq ∧ disp = .overflowForced) : Collects s p c s' := by
  obtain ⟨hdisp, hmem, hreg, hfrom, hkept, hleft⟩ := registerAndDrain_spec h hnew
  refine ⟨hreg, by simp [hdisp, hnew, hdup], fun _ => .inl hmem,
    fun x hx => ?_, fun a k q hq => .inl (hsub a k q (hkept a k q hq)), fun a k q hq => ?_⟩
  · rcases hfrom x hx with hx | ⟨a, k, q, hq, hx⟩
    · exact .inl hx
    · exact .inr ⟨a, k, q, hsub a k q hq, hx⟩
  · rcases hlow a k q hq with hstill | hlost
    · exact (hleft a k q hstill).imp_right .inl
    · obtain ⟨ha, hk, hd⟩ := hforc a k hlost
      exact .inr (.inr (.inr ⟨ha, hk, hdisp.trans hd⟩))

theorem collect_spec (h : s.collect true true p = .ok (c, s')) : Collects s p c s' := by
  unfold collect at h
  split at h
  · rename_i hdup
    cases h
    exact ⟨.refl _, ⟨fun _ => hdup, fun _ => rfl⟩, fun hne => absurd rfl hne,
      nofun, fun _ _ _ hq => .inl hq, fun _ _ _ hq => .inl hq⟩
  · rename_i hdup
    have hnew : s.registry.contains p.batchDigest = false := Bool.eq_false_iff.mpr hdup
    obtain ⟨⟨result, o⟩, hacc, h⟩ := bind_eq_ok.mp h
    obtain ⟨rfl, hp⟩ | ⟨rfl, hp⟩ | ⟨rfl, hp⟩ := tryAccept_cases hacc
    · apply collects_accepted (fun _ _ => False) hnew (by decide) h
      · intro a k q hq
        rwa [hp] at hq
      · intro a k q hq
        exact .inl (by rwa [hp])
      · exact fun _ _ hf => hf.elim
    · cases h
      exact collects_parked hnew hp
    · have hget : ∀ (a k : Nat) q, (o.parked a)[k]? = some q ↔
          (s.ordering.parked a)[k]? = some q ∧ ¬(a = p.beneficiary ∧ k ≤ p.batch.seq) := by
        intro a k q
        rw [hp]
        by_cases ha : a = p.beneficiary
        · subst ha
          rw [if_pos rfl, getElem?_filter', Option.filter_eq_some_iff, decide_eq_true_iff,
            Nat.succ_le_iff]
          simp only [true_and, Nat.not_le]
        · simp [ha]
      apply collects_accepted (fun a k => a = p.beneficiary ∧ k ≤ p.batch.seq) hnew (by decide) h
      · exact fun a k q hq => ((hget a k q).mp hq).1
      · intro a k q hq
        by_cases hlow : a = p.beneficiary ∧ k ≤ p.batch.seq
        · exact .inr hlow
        · exact .inl ((hget a k q).mpr ⟨hq, hlow⟩)
      · exact fun _ _ hlow => ⟨hlow.1, hlow.2, rfl⟩

section
variable {I : AuthoritySeqState → Prop} {E : EngineError → Prop} {n : Bool} {epoch : Nat}

section
variable (h : AuthoritySeqState.Kept I E p n)
include h

theorem within_registerAndDrain (ho : o.Within I epoch) (disp : Disposition) (q : PreparedBatch) :
    Spec (fun r => r.2.ordering.Within I epoch) E (s.registerAndDrain disp q o) := by
  unfold registerAndDrain
  dsimp only
  split
  · exact (ho.drainConsecutive h _ _ _).bind fun r hr => hr
  · exact ho

theorem within_collectV1 (hs : s.ordering.Within I epoch) :
    Spec (fun r => r.2.ordering.Within I epoch) E (s.collectV1 n p) := by
  unfold collectV1
  dsimp only
  split
  · refine (hs.tryAccept h _).bind ?_
    rintro ⟨result, o⟩ ho
    cases result with
    | parked => exact ho
    | inOrder q | overflowForced q => exact (ho.drainConsecutive h _ _ _).bind fun r hr => hr
  · exact hs

/-- Collecting a batch keeps the epoch, and of every authority what accepting and draining
keep. -/
theorem within_collect (hs : s.ordering.Within I epoch)
    (v2 : Bool) : Spec (fun r => r.2.ordering.Within I epoch) E (s.collect v2 n p) := by
  unfold collect
  split
  · exact hs
  · split
    · refine (hs.tryAccept h _).bind ?_
      rintro ⟨result, o⟩ ho
      cases result with
      | parked => exact ho
      | inOrder q | overflowForced q => exact within_registerAndDrain h ho _ q
    · exact within_collectV1 h hs

end

theorem run_collect_within {v2 : Bool} {ps : List PreparedBatch} {outs : List Collected}
    (h : Machine.run (collect v2 n) s ps = .ok (outs, s'))
    (hkept : ∀ q ∈ ps, AuthoritySeqState.Kept I E q n) (hs : s.ordering.Within I epoch) :
    s'.ordering.Within I epoch :=
  (Machine.run_spec (I := fun s : CollectState => s.ordering.Within I epoch)
    (fun q hq _ hs => within_collect (hkept q hq) hs v2) hs).ok h

end

end CollectState

namespace Processor

variable {σ : Type} [Evm σ] [HashFunction] {cfg : ProcessorConfig} {p p' : Processor σ}

theorem epoch_executeConsensusOutput {o : ConsensusOutput} {r : OutputResult}
    (h : p.executeConsensusOutput cfg o = .ok (r, p')) :
    p'.ordering.epoch = max p.ordering.epoch o.epoch := by
  obtain ⟨φ, hφ, rfl, rfl⟩ := phases_of_executeConsensusOutput h
  exact (CollectState.run_collect_within hφ.collect (fun q _ => kept_trivial q _)
    (.drainEpoch (fun _ => trivial) trivial o.epoch)).1

end Processor

end Axyl
