import Axyl.Processor.Collect

/-! Which batches one turn of the collecting loop makes executable, told from the state before
it: the batch itself, and the parked batches that follow its number without a gap. -/

namespace Axyl
open ExecutedBatchRegistry
open Std ExtTreeMap
open BatchOrderingState
open Fallible (bind_eq_ok)

def follows (parked : ExtTreeMap Nat PreparedBatch) : Nat → Nat → List PreparedBatch
  | 0, _ => []
  | turns + 1, seq =>
    match parked[seq + 1]? with
    | none => []
    | some q => q :: follows parked turns (seq + 1)

variable {parked : ExtTreeMap Nat PreparedBatch} {seq : Nat}
    {parked' : ExtTreeMap Nat PreparedBatch} {reg' reg : ExecutedBatchRegistry}
  {o' o : BatchOrderingState}

theorem follows_congr (h : ∀ k, seq < k → parked[k]? = parked'[k]?) (turns : Nat) :
    follows parked turns seq = follows parked' turns seq := by
  induction turns generalizing seq with
  | zero => rfl
  | succ turns ih =>
    rw [follows, follows, h (seq + 1) (by omega)]
    · rw [ih fun k hk => h k (by omega)]

theorem follows_erase (parked : ExtTreeMap Nat PreparedBatch) (turns seq : Nat) :
    follows (parked.erase seq) turns seq = follows parked turns seq := by
  apply follows_congr
  intro k hk
  rw [getElem?_erase, if_neg]
  rw [Nat.compare_eq_eq]
  omega

theorem length_follows_le (parked : ExtTreeMap Nat PreparedBatch) (turns seq : Nat) :
    (follows parked turns seq).length ≤ parked.size := by
  induction turns generalizing parked seq with
  | zero => exact Nat.zero_le _
  | succ turns ih =>
    rw [follows]
    split
    · exact Nat.zero_le _
    · rename_i q hq
      have hmem : seq + 1 ∈ parked := mem_iff_isSome_getElem?.mpr (by rw [hq]; rfl)
      have hrest := ih (parked.erase (seq + 1)) (seq + 1)
      rw [follows_erase, size_erase, if_pos (ExtTreeMap.mem_iff_contains.mp hmem)]
        at hrest
      have hpos : parked.size ≠ 0 := by
        intro hzero
        rw [ExtTreeMap.eq_empty_iff_size_eq_zero.mpr hzero] at hmem
        exact not_mem_empty hmem
      rw [List.length_cons]
      omega

theorem follows_of_length_lt {turns turns' : Nat} (h : (follows parked turns seq).length < turns)
    (hle : turns ≤ turns') : follows parked turns' seq = follows parked turns seq := by
  induction turns generalizing turns' seq with
  | zero => exact absurd h (Nat.not_lt_zero _)
  | succ turns ih =>
    obtain ⟨turns', rfl⟩ := Nat.exists_eq_add_one_of_ne_zero (Nat.ne_zero_of_lt hle)
    rw [follows] at h ⊢
    rw [follows]
    split at h
    · rfl
    · rw [ih (Nat.lt_of_succ_lt_succ h) (by omega)]

theorem follows_size_congr (h : ∀ k, seq < k → parked[k]? = parked'[k]?) :
    follows parked (parked.size + 1) seq = follows parked' (parked'.size + 1) seq := by
  have hlt := Nat.lt_succ_of_le (length_follows_le parked (parked.size + 1) seq)
  have hlt' := Nat.lt_succ_of_le (length_follows_le parked' (parked'.size + 1) seq)
  calc follows parked (parked.size + 1) seq
      = follows parked (max (parked.size + 1) (parked'.size + 1)) seq :=
        (follows_of_length_lt hlt (by omega)).symm
    _ = follows parked' (max (parked.size + 1) (parked'.size + 1)) seq := follows_congr h _
    _ = follows parked' (parked'.size + 1) seq := follows_of_length_lt hlt' (by omega)

def ExecutedBatchRegistry.unregistered (reg : ExecutedBatchRegistry) :
    List PreparedBatch → List PreparedBatch
  | [] => []
  | q :: qs =>
    if reg.contains q.batchDigest then reg.unregistered qs
    else q :: (reg.tryRegister q.batchDigest).2.unregistered qs

theorem ExecutedBatchRegistry.unregistered_congr (h : ∀ d, reg.contains d = reg'.contains d)
    (qs : List PreparedBatch) : reg.unregistered qs = reg'.unregistered qs := by
  induction qs generalizing reg reg' with
  | nil => rfl
  | cons q qs ih =>
    have hnext : ∀ d, (reg.tryRegister q.batchDigest).2.contains d =
        (reg'.tryRegister q.batchDigest).2.contains d := by
      intro d
      rw [contains_tryRegister, contains_tryRegister, h]
    rw [unregistered, unregistered, h, ih h, ih hnext]

namespace AuthoritySeqState

variable {auth auth' : AuthoritySeqState} {k : Nat} {p : PreparedBatch} {res : AcceptResult}

def behind (auth : AuthoritySeqState) : List PreparedBatch :=
  match auth.lastExecutedSeq with
  | none => []
  | some last => follows auth.parked (auth.parked.size + 1) last

theorem Accept.parked_iff (h : auth.Accept k p true res auth') : res = .parked ↔ auth.parks k := by
  cases h with
  | inOrder hparks | parked hparks | forced hparks => simp [hparks]

theorem Accept.behind (h : auth.Accept k p true res auth') (hres : res ≠ .parked) :
    auth'.behind = (auth.accepting k).behind := by
  cases h with
  | inOrder => rfl
  | parked => exact absurd rfl hres
  | forced =>
    -- the jump drops only what lies below it
    apply follows_size_congr
    intro j hj
    have hlt : k < j := by omega
    rw [if_pos rfl, getElem?_filter']
    cases hq : auth.parked[j]? with
    | none => simp [accepting, hq]
    | some q => simp [accepting, hq, Option.filter, Nat.succ_le_of_lt hlt]

theorem drainLoop_eq {turns last : Nat} {reg reg' : ExecutedBatchRegistry}
    {drained : List PreparedBatch} (hlast : auth.lastExecutedSeq = some last)
    (h : drainLoop true turns auth reg = .ok (drained, auth', reg')) :
    drained = (reg.unregistered (follows auth.parked turns last)).map
      fun q => { q with drained := true } := by
  induction turns generalizing auth reg drained last with
  | zero =>
    cases h
    rfl
  | succ turns ih =>
    rw [drainLoop, hlast] at h
    obtain ⟨next, hnext, h⟩ := bind_eq_ok.mp h
    obtain rfl := nextSeq_eq_ok hnext
    rw [follows]
    cases hq : auth.parked[last + 1]? with
    | none =>
      rw [hq] at h
      cases h
      rfl
    | some q =>
      rw [hq] at h
      dsimp only at h ⊢
      obtain ⟨⟨rest, auth₁, reg₁⟩, hrest, h⟩ := bind_eq_ok.mp h
      cases h
      have hr := ih rfl hrest
      rw [follows_erase] at hr
      rw [unregistered]
      cases hc : reg.contains q.batchDigest with
      | true =>
        have hsame : ∀ d, (reg.tryRegister q.batchDigest).2.contains d = reg.contains d := by
          intro d
          rw [contains_tryRegister]
          by_cases hd : q.batchDigest = d
          · rw [← hd, hc, Bool.or_true]
          · rw [beq_false_of_ne hd, Bool.false_or]
        rw [unregistered_congr hsame] at hr
        simpa [tryRegister, hc] using hr
      | false =>
        simpa [tryRegister, hc] using hr

end AuthoritySeqState

theorem BatchOrderingState.drainConsecutive_eq {a : Nat} {drained : List PreparedBatch}
    (h : o.drainConsecutive a reg true = .ok (drained, o', reg')) :
    drained = (reg.unregistered (o.get a).behind).map fun q => { q with drained := true } := by
  unfold drainConsecutive at h
  split at h
  · rename_i hnone
    cases h
    simp [get, hnone, AuthoritySeqState.default, AuthoritySeqState.behind, unregistered]
  · rename_i auth hauth
    have hget : o.get a = auth := by simp [get, hauth]
    rw [hget]
    split at h
    · cases h
    · rename_i d auth₁ reg₁ hloop
      cases h
      unfold AuthoritySeqState.behind
      split
      · rename_i hlast
        rw [AuthoritySeqState.drainLoop, hlast] at hloop
        cases hloop
        rfl
      · rename_i last hlast
        exact AuthoritySeqState.drainLoop_eq hlast hloop

theorem BatchOrderingState.tryAccept_eq {a k : Nat} {p : PreparedBatch}
    {res : AcceptResult} (h : o.tryAccept a k p true = .ok (res, o')) :
    (res = .parked ↔ k ≠ 0 ∧ (o.get a).parks k) ∧ (res ≠ .parked →
      (o'.get a).behind = (if k = 0 then o.get a else (o.get a).accepting k).behind) := by
  by_cases hk : k = 0
  · rw [tryAccept, if_pos hk] at h
    cases h
    simp [hk]
  · obtain ⟨auth, hacc, rfl⟩ := tryAccept_eq_ok h hk
    rw [get_set, if_pos rfl, if_neg hk, hacc.parked_iff]
    exact ⟨(and_iff_right hk).symm, hacc.behind⟩

namespace CollectState

variable {s s' : CollectState} {p : PreparedBatch} {c : Collected}

def withholds (s : CollectState) (p : PreparedBatch) : Bool :=
  s.registry.contains p.batchDigest ||
    (p.batch.seq != 0 && (s.ordering.get p.beneficiary).parks p.batch.seq)

/-- The parked batches that an accepted one makes executable: they follow it without a gap and
are not registered. -/
def unlocks (s : CollectState) (p : PreparedBatch) : List PreparedBatch :=
  if s.withholds p then []
  else
    let auth := s.ordering.get p.beneficiary
    (s.registry.tryRegister p.batchDigest).2.unregistered
      (if p.batch.seq = 0 then auth else auth.accepting p.batch.seq).behind

theorem registerAndDrain_batches {disposition : Disposition} {o : BatchOrderingState}
    (h : s.registerAndDrain disposition p o = .ok (c, s'))
    (hnew : s.registry.contains p.batchDigest = false) :
    c.batches = p :: ((s.registry.tryRegister p.batchDigest).2.unregistered
      (o.get p.beneficiary).behind).map fun q => { q with drained := true } := by
  have hfre : (s.registry.tryRegister p.batchDigest).1 = true := by
    simp [tryRegister, hnew]
  unfold registerAndDrain at h
  dsimp only at h
  rw [if_pos hfre] at h
  obtain ⟨⟨drained, o', reg'⟩, hdrain, h⟩ := bind_eq_ok.mp h
  cases h
  rw [drainConsecutive_eq hdrain]

theorem collect_batches (h : s.collect true true p = .ok (c, s')) :
    c.batches = if s.withholds p then [] else
      p :: (s.unlocks p).map fun q => { q with drained := true } := by
  unfold collect at h
  split at h
  · rename_i hdup
    cases h
    simp [withholds, hdup]
  · rename_i hdup
    have hnew : s.registry.contains p.batchDigest = false := Bool.eq_false_iff.mpr hdup
    obtain ⟨⟨result, o⟩, hacc, h⟩ := bind_eq_ok.mp h
    obtain ⟨hparks, hbehind⟩ := tryAccept_eq hacc
    have hkp : s.withholds p = true ↔ result = .parked := by
      rw [hparks, withholds, hnew, Bool.false_or, Bool.and_eq_true, bne_iff_ne]
    by_cases hpark : result = .parked
    · subst hpark
      cases h
      rw [if_pos (hkp.mpr rfl)]
    · rw [if_neg (mt hkp.mp hpark), unlocks, if_neg (mt hkp.mp hpark)]
      dsimp only
      rw [← hbehind hpark]
      rcases tryAccept_cases hacc with ⟨rfl, -⟩ | ⟨rfl, -⟩ | ⟨rfl, -⟩
      · exact registerAndDrain_batches h hnew
      · exact absurd rfl hpark
      · exact registerAndDrain_batches h hnew

end CollectState

end Axyl
