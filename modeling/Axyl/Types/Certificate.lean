import Axyl.Types.Committee
import Std.Data.ExtTreeMap

/-! Headers and their checks, certificates and committed sub-dags. A `BTreeMap` or `HashMap` of the
source is an `ExtTreeMap`: iteration is in key order and equal contents are equal
maps. Every iteration over a `HashMap` that is modelled here is order-insensitive
or is sorted by the source itself. -/

namespace Axyl
open List
open Std (ExtTreeMap)
open Std.ExtTreeMap

/-- `payload` keeps the insertion order of the `IndexMap`, `parents` the ascending
order of the `BTreeSet`. `digest` is the cached digest of all the other fields. -/
structure Header where
  author : Nat
  round : Nat
  epoch : Nat
  createdAt : Nat
  payload : List (Nat × Nat)
  parents : List Nat
  digest : Nat
deriving DecidableEq, Repr

/-- The signer bitmap and the aggregate signature, which no function of the commit
rule reads, are left out; so is the local creation time of the metrics. -/
structure Certificate where
  header : Header
deriving DecidableEq, Repr

def packNonce (epoch round : Nat) : Nat := (epoch <<< 32) ||| round

theorem packNonce_eq {ep round : Nat} (h : round < 4294967296) :
    packNonce ep round = ep * 4294967296 + round := by
  rw [packNonce, ← Nat.shiftLeft_add_eq_or_of_lt (i := 32) h, Nat.shiftLeft_eq]

namespace Certificate

def round (c : Certificate) : Nat := c.header.round
def epoch (c : Certificate) : Nat := c.header.epoch
def origin (c : Certificate) : Nat := c.header.author
def digest (c : Certificate) : Nat := c.header.digest
def parents (c : Certificate) : List Nat := c.header.parents
def createdAt (c : Certificate) : Nat := c.header.createdAt
def nonce (c : Certificate) : Nat := packNonce c.epoch c.round

end Certificate

def lastRoundOf (certs : List Certificate) (author : Nat) : Nat :=
  ((certs.filter fun c => c.origin = author).map Certificate.round).foldr max 0

def raiseRound (rounds : ExtTreeMap Nat Nat) (c : Certificate) : ExtTreeMap Nat Nat :=
  rounds.insert c.origin (max (rounds[c.origin]?.getD c.round) c.round)

def highestRound (rounds : ExtTreeMap Nat Nat) : Nat := (rounds.toList.map Prod.snd).foldr max 0

theorem lastRoundOf_cons (c : Certificate) (cs : List Certificate) (a : Nat) :
    lastRoundOf (c :: cs) a = max (if c.origin = a then c.round else 0) (lastRoundOf cs a) := by
  unfold lastRoundOf
  by_cases h : c.origin = a <;> simp [h]

theorem lastRoundOf_append (l m : List Certificate) (a : Nat) :
    lastRoundOf (l ++ m) a = max (lastRoundOf l a) (lastRoundOf m a) := by
  induction l with
  | nil => simp [lastRoundOf]
  | cons c l ih => rw [cons_append, lastRoundOf_cons, lastRoundOf_cons, ih, max_assoc]

variable {l : List Certificate}

theorem lastRoundOf_le_iff {a r : Nat} :
    lastRoundOf l a ≤ r ↔ ∀ c ∈ l, c.origin = a → c.round ≤ r := by
  induction l with
  | nil => simp [lastRoundOf]
  | cons d l ih =>
    rw [lastRoundOf_cons, max_le_iff, ih]
    by_cases h : d.origin = a <;> simp [h]

theorem round_le_lastRoundOf {c : Certificate} (h : c ∈ l) : c.round ≤ lastRoundOf l c.origin :=
  lastRoundOf_le_iff.mp (le_refl _) c h rfl

theorem getD_raiseRound (rs : ExtTreeMap Nat Nat) (c : Certificate) (a : Nat) :
    (raiseRound rs c)[a]?.getD 0 = max (rs[a]?.getD 0) (if c.origin = a then c.round else 0) := by
  simp only [raiseRound, ExtTreeMap.getElem?_insert, Nat.compare_eq_eq]
  split
  · rename_i h
    subst h
    cases rs[c.origin]? <;> simp
  · simp

theorem getD_foldl_raiseRound (cs : List Certificate) (rs : ExtTreeMap Nat Nat) (a : Nat) :
    (cs.foldl raiseRound rs)[a]?.getD 0 = max (rs[a]?.getD 0) (lastRoundOf cs a) := by
  induction cs generalizing rs with
  | nil => simp [lastRoundOf]
  | cons c cs ih => rw [foldl_cons, ih, getD_raiseRound, lastRoundOf_cons, max_assoc]

theorem highestRound_le_iff {rs : ExtTreeMap Nat Nat} {r : Nat} :
    highestRound rs ≤ r ↔ ∀ a : Nat, rs[a]?.getD 0 ≤ r := by
  have hfold : ∀ l : List Nat, l.foldr max 0 ≤ r ↔ ∀ x ∈ l, x ≤ r := by
    intro l
    induction l with
    | nil => simp
    | cons x l ih => rw [foldr_cons, max_le_iff, ih, forall_mem_cons]
  rw [highestRound, hfold]
  constructor
  · intro h a
    cases ha : rs[a]? with
    | none => exact Nat.zero_le r
    | some x =>
      apply h
      exact mem_map.mpr ⟨(a, x), mem_toList_iff_getElem?_eq_some.mpr ha, rfl⟩
  · intro h x hx
    obtain ⟨e, he, rfl⟩ := mem_map.mp hx
    have hget := h e.1
    rwa [mem_toList_iff_getElem?_eq_some.mp he] at hget

structure ReputationScores where
  scoresPerAuthority : ExtTreeMap Nat Nat
  finalOfSchedule : Bool
deriving DecidableEq

namespace ReputationScores

def new (committee : Committee) : ReputationScores where
  scoresPerAuthority := ofList (committee.authorities.map fun a => (a.id, 0))
  finalOfSchedule := false

def addScore (s : ReputationScores) (authority score : Nat) : ReputationScores :=
  match s.scoresPerAuthority[authority]? with
  | some val => { s with scoresPerAuthority := s.scoresPerAuthority.insert authority (val + score) }
  | none => { s with scoresPerAuthority := s.scoresPerAuthority.insert authority score }

def totalAuthorities (s : ReputationScores) : Nat := s.scoresPerAuthority.size

def authoritiesByScoreDesc (s : ReputationScores) : List (Nat × Nat) :=
  s.scoresPerAuthority.toList.insertionSort fun a b => b.2 < a.2 ∨ (a.2 = b.2 ∧ b.1 ≤ a.1)

variable {s : ReputationScores}

theorem mem_authoritiesByScoreDesc {id score : Nat} :
    (id, score) ∈ s.authoritiesByScoreDesc ↔ s.scoresPerAuthority[id]? = some score := by
  rw [authoritiesByScoreDesc, mem_insertionSort, mem_toList_iff_getElem?_eq_some]

theorem authoritiesByScoreDesc_ne_nil (h : s.scoresPerAuthority ≠ ∅) :
    s.authoritiesByScoreDesc ≠ [] := by
  intro hn
  apply h
  have hp := perm_insertionSort (fun a b : Nat × Nat => b.2 < a.2 ∨ (a.2 = b.2 ∧ b.1 ≤ a.1))
    s.scoresPerAuthority.toList
  rw [authoritiesByScoreDesc] at hn
  rw [hn] at hp
  apply ExtTreeMap.toList_eq_nil_iff.mp hp.nil_eq.symm

theorem score_le_head {a b : Nat × Nat} {rest : List (Nat × Nat)}
    (hs : s.authoritiesByScoreDesc = a :: rest) (hb : b ∈ s.authoritiesByScoreDesc) :
    b.2 ≤ a.2 := by
  let r : Nat × Nat → Nat × Nat → Prop := fun a b => b.2 < a.2 ∨ (a.2 = b.2 ∧ b.1 ≤ a.1)
  have : Std.Total r := ⟨fun a b => by omega⟩
  have : IsTrans (Nat × Nat) r := ⟨fun a b c => by omega⟩
  have hp : s.authoritiesByScoreDesc.Pairwise r :=
    pairwise_insertionSort r s.scoresPerAuthority.toList
  rw [hs] at hp hb
  rcases mem_cons.mp hb with rfl | hb
  · exact le_refl _
  · have := (pairwise_cons.mp hp).1 b hb
    omega

end ReputationScores

structure CommittedSubDag where
  certificates : List Certificate
  leader : Certificate
  reputationScore : ReputationScores
  commitTimestamp : Nat
deriving DecidableEq

namespace CommittedSubDag

def new (certificates : List Certificate) (leader : Certificate)
    (reputationScore : ReputationScores) (previousSubDag : Option CommittedSubDag) :
    CommittedSubDag where
  certificates := certificates
  leader := leader
  reputationScore := reputationScore
  commitTimestamp := max ((previousSubDag.map commitTimestamp).getD 0) leader.createdAt

def leaderRound (d : CommittedSubDag) : Nat := d.leader.round
def leaderEpoch (d : CommittedSubDag) : Nat := d.leader.epoch

def committedAt (d : CommittedSubDag) : Nat :=
  if d.commitTimestamp = 0 then d.leader.createdAt else d.commitTimestamp

end CommittedSubDag

structure BlockNumHash where
  number : Nat
  hash : Nat
deriving Repr, DecidableEq

inductive HeaderError where
  | invalidEpoch (theirs ours : Nat)
  | unknownAuthority (id : Nat)
  | unknownWorkerId
  | tooManyParents (parents size : Nat)
  | invalidParents
  | wrongNumberOfParents (expected got : Nat)
  | peerNotAuthor
  | unknownExecutionResult (target : BlockNumHash)
  | storage (e : String)
  | tooOld (digest headerRound maxRound : Nat)
  | tooNew (digest headerRound maxRound : Nat)
  | invalidRound (digest headerRound : Nat)
  | parentMissingSignature
  | invalidParentRound
  | invalidParentTimestamp (header parent : Nat)
  | duplicateParents
  | syncBatches (e : String)
  | invalidTimestamp (created received : Nat)
  | alreadyVoted (digest round : Nat)
  | alreadyVotedForLaterRound (theirs ours : Nat)
  | invalidGenesisParent (digest : Nat)
deriving Repr, DecidableEq

def numberOfWorkers : Nat := 1

/-- `Header::validate`. The digest of a header from the wire is computed here for the first time,
so that its comparison cannot fail. -/
def Header.validate (header : Header) (committee : Committee) : Except HeaderError Unit :=
  if header.epoch ≠ committee.epoch then .error (.invalidEpoch header.epoch committee.epoch)
  else if committee.size < header.parents.length then
    .error (.tooManyParents header.parents.length committee.size)
  else if (committee.authority header.author).isNone then .error (.unknownAuthority header.author)
  else if header.payload.any fun entry => numberOfWorkers ≤ entry.2 then .error .unknownWorkerId
  else .ok ()

end Axyl
