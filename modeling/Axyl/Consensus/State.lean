import Axyl.Consensus.LeaderSchedule

/-! The state of consensus: the certificates held in memory, what has been committed,
and the insertion, garbage collection and update of that state. -/

namespace Axyl
open List
open Std (ExtTreeMap)

/-- The certificates of one round by author. The digest the source keeps next to each
certificate is the certificate's own. -/
abbrev RoundTable := ExtTreeMap Nat Certificate

def RoundTable.values (table : RoundTable) : List Certificate := table.toList.map Prod.snd

abbrev Dag := ExtTreeMap Nat RoundTable

def Dag.table (dag : Dag) (round : Nat) : RoundTable := dag[round]?.getD ∅

def Dag.entry (dag : Dag) (round author : Nat) : Option Certificate := (dag.table round)[author]?

namespace Dag

variable {table : RoundTable} {c : Certificate}

theorem mem_values : c ∈ table.values ↔ ∃ a : Nat, table[a]? = some c := by
  simp only [RoundTable.values, mem_map, Prod.exists,
    ExtTreeMap.mem_toList_iff_getElem?_eq_some, exists_eq_right]

variable {dag : Dag} {r : Nat}

theorem mem_table_values : c ∈ (dag.table r).values ↔ ∃ a, dag.entry r a = some c := mem_values

theorem nodup_origins (h : ∀ (a : Nat) c, table[a]? = some c → c.origin = a) :
    (table.values.map Certificate.origin).Nodup := by
  have hkeys : table.values.map Certificate.origin = table.keys := by
    rw [RoundTable.values, map_map, ← ExtTreeMap.map_fst_toList_eq_keys]
    refine map_congr_left fun e he => h e.1 e.2 ?_
    exact ExtTreeMap.mem_toList_iff_getElem?_eq_some.mp he
  rw [hkeys]
  exact ExtTreeMap.nodup_keys

@[simp] theorem entry_empty (r a : Nat) : Dag.entry ∅ r a = none := by
  simp [entry, table]

theorem table_of_getElem? (h : dag[r]? = some table) : dag.table r = table := by
  simp [Dag.table, h]

theorem exists_table_of_entry {a : Nat} (h : dag.entry r a = some c) :
    ∃ table, dag[r]? = some table := by
  cases ht : dag[r]? with
  | none => simp [entry, Dag.table, ht] at h
  | some table => exact ⟨table, rfl⟩

theorem getElem?_filter_lt (dag : Dag) (g r : Nat) :
    (dag.filter fun r _ => g < r)[r]? = if g < r then dag[r]? else none := by
  rw [ExtTreeMap.getElem?_filter']
  by_cases h : g < r
  · simp only [h, decide_true, if_true]
    cases dag[r]? <;> rfl
  · simp [h]

theorem entry_filter_lt (dag : Dag) (g r a : Nat) :
    Dag.entry (dag.filter fun r _ => g < r) r a = if g < r then dag.entry r a else none := by
  simp only [entry, table, getElem?_filter_lt]
  split <;> simp

end Dag

inductive ConsensusError where
  | certificateEquivocation (certificate existing : Certificate)
  | missingParent (digest : Nat) (certificate : Certificate)
  | missingParentRound (certificate : Certificate)
deriving DecidableEq, Repr

inductive Outcome where
  | certificateBelowCommitRound
  | noLeaderElectedForOddRound
  | leaderBelowCommitRound
  | leaderNotFound
  | notEnoughSupportForLeader
  | commit
  | scheduleChanged
deriving DecidableEq, Repr

structure ConsensusRound where
  committedRound : Nat
  gcRound : Nat
deriving DecidableEq, Repr

namespace ConsensusRound

def newWithGcDepth (committedRound gcDepth : Nat) : ConsensusRound where
  committedRound := committedRound
  gcRound := committedRound - gcDepth

def update (r : ConsensusRound) (newCommittedRound gcDepth : Nat) : ConsensusRound :=
  newWithGcDepth (max r.committedRound newCommittedRound) gcDepth

end ConsensusRound

structure ConsensusState where
  lastRound : ConsensusRound
  gcDepth : Nat
  lastCommitted : ExtTreeMap Nat Nat
  lastCommittedSubDag : Option CommittedSubDag
  dag : Dag
deriving DecidableEq

namespace ConsensusState

def new (gcDepth : Nat) : ConsensusState where
  lastRound := ⟨0, 0⟩
  gcDepth := gcDepth
  lastCommitted := ∅
  lastCommittedSubDag := none
  dag := ∅

/-- Parents are compared with the digests of the round below; the smallest missing
digest is the one reported. -/
def checkParents (certificate : Certificate) (dag : Dag) (gcRound : Nat) :
    Except ConsensusError Unit :=
  if certificate.round ≤ gcRound + 1 then .ok ()
  else
    match dag[certificate.round - 1]? with
    | none => .error (.missingParentRound certificate)
    | some roundTable =>
      match certificate.parents.find? fun p => p ∉ roundTable.values.map Certificate.digest with
      | some p => .error (.missingParent p certificate)
      | none => .ok ()

theorem checkParents_eq_ok {c : Certificate} {dag : Dag} {gcRound : Nat} :
    checkParents c dag gcRound = .ok () ↔ c.round ≤ gcRound + 1 ∨
      ((∃ table, dag[c.round - 1]? = some table) ∧
        ∀ p ∈ c.parents, ∃ d ∈ (dag.table (c.round - 1)).values, d.digest = p) := by
  unfold checkParents
  split
  · simp_all
  · rename_i hr
    simp only [hr, false_or]
    split
    · simp_all
    · rename_i table ht
      rw [Dag.table_of_getElem? ht]
      split
      · rename_i p hp
        have hmem := mem_of_find?_eq_some hp
        have hnot := find?_some hp
        simp only [reduceCtorEq, false_iff, not_and]
        intro _ hall
        obtain ⟨d, hd, rfl⟩ := hall p hmem
        simp [mem_map_of_mem hd] at hnot
      · rename_i hp
        simp only [true_iff]
        refine ⟨⟨table, ht⟩, fun p hpm => ?_⟩
        have := find?_eq_none.mp hp p hpm
        simpa using this

theorem checkParents_eq_error {c : Certificate} {dag : Dag} {gcRound : Nat} {e : ConsensusError}
    (h : checkParents c dag gcRound = .error e) :
    e = .missingParentRound c ∨ ∃ p ∈ c.parents, e = .missingParent p c := by
  unfold checkParents at h
  split at h
  · cases h
  split at h
  · cases h
    exact .inl rfl
  split at h
  · rename_i p hp
    cases h
    exact .inr ⟨p, mem_of_find?_eq_some hp, rfl⟩
  · cases h

def insertCertificate (dag : Dag) (certificate : Certificate) : Dag :=
  dag.insert certificate.round
    ((dag.table certificate.round).insert certificate.origin certificate)

theorem entry_insertCertificate (dag : Dag) (c : Certificate) (r a : Nat) :
    (insertCertificate dag c).entry r a =
      if r = c.round ∧ a = c.origin then some c else dag.entry r a := by
  simp only [insertCertificate, Dag.entry, Dag.table, ExtTreeMap.getElem?_insert, Nat.compare_eq_eq]
  by_cases hr : c.round = r
  · subst hr
    by_cases ha : c.origin = a
    · subst ha
      simp
    · simp [ha, Ne.symm ha, ExtTreeMap.getElem?_insert]
  · simp [hr, Ne.symm hr]

/-- The certificate is stored before it is compared with the one it replaces, so the
dag has changed also when an equivocation is reported. -/
def tryInsertInDag (dag : Dag) (lastCommitted : ExtTreeMap Nat Nat) (gcRound : Nat)
    (certificate : Certificate) : Except ConsensusError Bool × Dag :=
  if certificate.round ≤ gcRound then (.ok false, dag)
  else
    match checkParents certificate dag gcRound with
    | .error e => (.error e, dag)
    | .ok () =>
      let inserted := insertCertificate dag certificate
      match dag.entry certificate.round certificate.origin with
      | some existing =>
        if existing.digest ≠ certificate.digest then
          (.error (.certificateEquivocation certificate existing), inserted)
        else (.ok (lastCommitted[certificate.origin]?.getD 0 < certificate.round), inserted)
      | none => (.ok (lastCommitted[certificate.origin]?.getD 0 < certificate.round), inserted)

theorem tryInsertInDag_cases (dag : Dag) (last : ExtTreeMap Nat Nat) (gcRound : Nat)
    (c : Certificate) : (c.round ≤ gcRound ∧ tryInsertInDag dag last gcRound c = (.ok false, dag)) ∨
    (gcRound < c.round ∧ ∃ e, checkParents c dag gcRound = .error e ∧
      tryInsertInDag dag last gcRound c = (.error e, dag)) ∨
    (gcRound < c.round ∧ checkParents c dag gcRound = .ok () ∧
      ∃ existing, dag.entry c.round c.origin = some existing ∧ existing.digest ≠ c.digest ∧
        tryInsertInDag dag last gcRound c =
          (.error (.certificateEquivocation c existing), insertCertificate dag c)) ∨
    (gcRound < c.round ∧ checkParents c dag gcRound = .ok () ∧
      (∀ existing, dag.entry c.round c.origin = some existing → existing.digest = c.digest) ∧
        tryInsertInDag dag last gcRound c =
          (.ok (last[c.origin]?.getD 0 < c.round), insertCertificate dag c)) := by
  unfold tryInsertInDag
  by_cases hr : c.round ≤ gcRound
  · simp [hr]
  · rw [if_neg hr]
    cases hp : checkParents c dag gcRound with
    | error e => exact .inr (.inl ⟨by omega, e, rfl, rfl⟩)
    | ok u =>
      right; right
      cases he : dag.entry c.round c.origin with
      | none => exact .inr ⟨by omega, rfl, by simp, rfl⟩
      | some existing =>
        by_cases hd : existing.digest = c.digest
        · exact .inr ⟨by omega, rfl, by simp [hd], by simp [hd]⟩
        · exact .inl ⟨by omega, rfl, existing, rfl, hd, by simp [hd]⟩

def tryInsert (state : ConsensusState) (certificate : Certificate) :
    Except ConsensusError Bool × ConsensusState :=
  let (result, dag) :=
    tryInsertInDag state.dag state.lastCommitted state.lastRound.gcRound certificate
  (result, { state with dag })

def update (state : ConsensusState) (certificate : Certificate) : ConsensusState :=
  let lastRound := state.lastRound.update certificate.round state.gcDepth
  { state with
    lastCommitted := raiseRound state.lastCommitted certificate
    lastRound
    dag := state.dag.filter fun r _ => lastRound.gcRound < r }

def proactiveGc (state : ConsensusState) (highestSeenRound : Nat) : ConsensusState :=
  if highestSeenRound ≤ state.gcDepth then state
  else
    let proactiveGcRound := highestSeenRound - state.gcDepth
    if proactiveGcRound ≤ state.lastRound.gcRound then state
    else { state with dag := state.dag.filter fun r _ => proactiveGcRound < r }

end ConsensusState

end Axyl
