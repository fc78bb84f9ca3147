import Axyl.Lib.Search
import Axyl.Consensus.State

/-! The Bullshark commit rule and the loop that feeds certificates to it. `Consensus` is the pair of
protocol and state that `Consensus::run` owns; its methods are those of `Bullshark`, which borrow
both. Metrics, logs and timers are left out, and with them `max_inserted_certificate_round`. The
first failure ends the loop: a `ConsensusError` leaves it and an abort stops the process. -/

namespace Axyl
open Certificate
open Std (ExtTreeMap)

def RoundTable.withDigest (table : RoundTable) (digest : Nat) : Option Certificate :=
  table.values.find? fun c => c.digest = digest

namespace ConsensusState

def alreadyCommitted (state : ConsensusState) (certificate : Certificate) : Bool :=
  state.lastCommitted[certificate.origin]?.any fun r => certificate.round ≤ r

/-- The parents pushed for `x`, before those already ordered are taken out. A parent
that is not in the dag is only logged. -/
def expand (state : ConsensusState) (gcRound : Nat) (x : Certificate) : List Certificate :=
  if x.round = gcRound + 1 then []
  else
    (x.parents.filterMap (state.dag.table (x.round - 1)).withDigest).filter fun c =>
      !state.alreadyCommitted c

def dagDigests (state : ConsensusState) : List Nat :=
  state.dag.toList.flatMap fun entry => entry.2.values.map Certificate.digest

variable {st : ConsensusState}

theorem mem_dagDigests {r a : Nat} {c : Certificate}
    (h : st.dag.entry r a = some c) : c.digest ∈ st.dagDigests := by
  obtain ⟨table, ht⟩ := Dag.exists_table_of_entry h
  rw [Dag.entry, Dag.table_of_getElem? ht] at h
  refine List.mem_flatMap.mpr ⟨(r, table), ExtTreeMap.mem_toList_iff_getElem?_eq_some.mpr ht, ?_⟩
  exact List.mem_map_of_mem (Dag.mem_values.mpr ⟨a, h⟩)

theorem mem_expand {gcRound : Nat} {x c : Certificate} :
    c ∈ st.expand gcRound x ↔ x.round ≠ gcRound + 1 ∧
      (∃ p ∈ x.parents, (st.dag.table (x.round - 1)).withDigest p = some c) ∧
        st.alreadyCommitted c = false := by
  unfold expand
  split <;> simp_all

end ConsensusState

def Certificate.SortedBefore (a b : Certificate) : Prop :=
  a.round < b.round ∨ (a.round = b.round ∧ a.digest ≤ b.digest)

instance (a b : Certificate) : Decidable (a.SortedBefore b) :=
  inferInstanceAs (Decidable (_ ∨ _))

instance : Std.Total SortedBefore where
  total a b := by
    unfold SortedBefore
    omega

instance : IsTrans Certificate SortedBefore where
  trans a b c := by
    unfold SortedBefore
    omega

/-- `order_dag`. The subtraction `x.round() - 1` is checked; the search of the model
goes on below round zero with the tables of round zero, so a certificate that the
source stops at is among those found. -/
def orderDag (leader : Certificate) (state : ConsensusState) : Except Abort (List Certificate) :=
  if leader.round = 0 then .error .zeroLeaderRound
  else
    match Search.search Certificate.digest (state.expand (leader.round - state.gcDepth))
        (state.dagDigests.length + 1) leader with
    | none => .error .outOfFuel
    | some ordered =>
      if ordered.any fun x => x.round = 0 ∧ x.parents ≠ [] then .error .roundUnderflow
      else .ok (ordered.insertionSort SortedBefore)

variable [StdRng]

@[ext] structure Bullshark where
  committee : Committee
  numSubDagsPerSchedule : Nat
  leaderSchedule : LeaderSchedule
  badNodesStakeThreshold : Nat
deriving DecidableEq

structure Consensus where
  protocol : Bullshark
  state : ConsensusState
deriving DecidableEq

def Certificate.eq (a b : Certificate) : Bool :=
  a.digest = b.digest && a.round = b.round && a.epoch = b.epoch && a.origin = b.origin

def LeaderSchedule.leaderCertificate (s : LeaderSchedule) (round : Nat) (dag : Dag) :
    Except Abort (Option Certificate) := do
  let leader ← s.leader round
  return dag.entry round leader.id

/-- One round of the backwards walk: the certificates of the table that some certificate
of `parents` has as a parent. -/
def linkedStep (dag : Dag) (parents : List Certificate) (round : Nat) : List Certificate :=
  (dag.table round).values.filter fun c => parents.any fun x => c.digest ∈ x.parents

def roundsBelow (lo hi : Nat) : List Nat := (List.range (hi - lo)).map fun i => hi - (i + 1)

def linked (leader prevLeader : Certificate) (dag : Dag) : Bool :=
  ((roundsBelow prevLeader.round leader.round).foldl (linkedStep dag) [leader]).any
    prevLeader.eq

def leaderRounds (committedRound leaderRound : Nat) : List Nat :=
  (List.range ((leaderRound - committedRound - 2) / 2)).map fun i => leaderRound - 2 * (i + 1)

def orderLeadersLoop (s : LeaderSchedule) (dag : Dag) :
    List Nat → Certificate → List Certificate → Except Abort (List Certificate)
  | [], leader, later => .ok (leader :: later)
  | r :: rounds, leader, later => do
    match ← s.leaderCertificate r dag with
    | none => orderLeadersLoop s dag rounds leader later
    | some prevLeader =>
      if linked leader prevLeader dag then
        orderLeadersLoop s dag rounds prevLeader (leader :: later)
      else orderLeadersLoop s dag rounds leader later

namespace Bullshark

def orderLeaders (b : Bullshark) (leader : Certificate) (state : ConsensusState) :
    Except Abort (List Certificate) := do
  if leader.round % 2 ≠ 0 then throw .oddLeaderRound
  if leader.round < 2 then throw .roundUnderflow
  let toCommit ← orderLeadersLoop b.leaderSchedule state.dag
    (leaderRounds state.lastRound.committedRound leader.round) leader []
  if toCommit.all fun c => (b.committee.authority c.origin).isSome then return toCommit
  else throw .leaderNotInCommittee

theorem orderLeadersLoop_of_orderLeaders {b : Bullshark} {ldr : Certificate}
    {st : ConsensusState} {leaders : List Certificate} (h : b.orderLeaders ldr st = .ok leaders) :
    orderLeadersLoop b.leaderSchedule st.dag
      (leaderRounds st.lastRound.committedRound ldr.round) ldr [] = .ok leaders := by
  by_cases hodd : ldr.round % 2 ≠ 0
  · rw [orderLeaders, if_pos hodd] at h
    cases h
  by_cases hlow : ldr.round < 2
  · rw [orderLeaders, if_neg hodd, if_pos hlow] at h
    cases h
  rw [orderLeaders, if_neg hodd, if_neg hlow] at h
  obtain ⟨toCommit, hloop, h⟩ := Fallible.bind_eq_ok.mp h
  split at h
  · cases h
    exact hloop
  · cases h

/-- The scores carried over, before the votes of the sub-dag are counted. They start
again at every window of `numSubDagsPerSchedule` commit rounds. -/
def carriedScores (b : Bullshark) (last : Option CommittedSubDag) (subDagIndex : Nat) :
    ReputationScores :=
  if subDagIndex / 2 % b.numSubDagsPerSchedule = 0 then .new b.committee
  else
    match last with
    | some last => last.reputationScore
    | none => .new b.committee

def countVotes (last : Option CommittedSubDag) (sequence : List Certificate)
    (scores : ReputationScores) : ReputationScores :=
  match last with
  | none => scores
  | some last =>
    (sequence.filter fun c =>
      c.round = last.leader.round + 1 ∧ last.leader.digest ∈ c.parents).foldl
        (fun s c => s.addScore c.origin 1) scores

def nextScores (b : Bullshark) (last : Option CommittedSubDag) (sequence : List Certificate)
    (subDagIndex : Nat) : ReputationScores :=
  { countVotes last sequence (b.carriedScores last subDagIndex) with
    finalOfSchedule := (subDagIndex / 2 + 1) % b.numSubDagsPerSchedule = 0 }

def resolveReputationScore (b : Bullshark) (state : ConsensusState)
    (committedSequence : List Certificate) (subDagIndex : Nat) : Except Abort ReputationScores :=
  let scores := b.nextScores state.lastCommittedSubDag committedSequence subDagIndex
  if scores.totalAuthorities = b.committee.size then .ok scores else .error .scoresIncomplete

def updateLeaderSchedule (b : Bullshark) (leaderRound : Nat) (scores : ReputationScores) :
    Except Abort (Bool × Bullshark) :=
  if scores.finalOfSchedule then do
    let table ← LeaderSwapTable.new b.committee leaderRound scores b.badNodesStakeThreshold
    return (true, { b with leaderSchedule := b.leaderSchedule.updateLeaderSwapTable table })
  else .ok (false, b)

def support (b : Bullshark) (leader : Certificate) (table : RoundTable) : Nat :=
  ((table.values.filter fun c => leader.digest ∈ c.parents).map fun c =>
    b.committee.votingPowerById c.origin).sum

end Bullshark

namespace Consensus

/-- One iteration of the loop of `commit_leader`: the sub-dag of one leader. The flag
says whether the schedule was updated. -/
def commitSubDag (n : Consensus) (leader : Certificate) :
    Except Abort (CommittedSubDag × Bool × Consensus) := do
  let sequence ← orderDag leader n.state
  let state := sequence.foldl ConsensusState.update n.state
  let score ← n.protocol.resolveReputationScore state sequence leader.nonce
  let subDag := CommittedSubDag.new sequence leader score state.lastCommittedSubDag
  let (changed, protocol) ← n.protocol.updateLeaderSchedule leader.round score
  return (subDag, changed, ⟨protocol, { state with lastCommittedSubDag := some subDag }⟩)

def commitLeaders (n : Consensus) :
    List Certificate → Except Abort (Outcome × List CommittedSubDag × Consensus)
  | [] => .ok (.commit, [], n)
  | leader :: leadersToCommit => do
    let (subDag, changed, n) ← n.commitSubDag leader
    if changed ∧ leadersToCommit ≠ [] then return (.scheduleChanged, [subDag], n)
    let (outcome, subDags, n) ← n.commitLeaders leadersToCommit
    return (outcome, subDag :: subDags, n)

def commitLeader (n : Consensus) (leaderRound : Nat) :
    Except Abort (Outcome × List CommittedSubDag × Consensus) := do
  match ← n.protocol.leaderSchedule.leaderCertificate leaderRound n.state.dag with
  | none => return (.leaderNotFound, [], n)
  | some leader =>
    match n.state.dag[leaderRound + 1]? with
    | none => throw .missingHistory
    | some table =>
      if n.protocol.support leader table < n.protocol.committee.validityThreshold then
        return (.notEnoughSupportForLeader, [], n)
      else
        n.commitLeaders (← n.protocol.orderLeaders leader n.state)

def commitLoop (leaderRound : Nat) :
    Nat → Consensus → Except Abort (Outcome × List CommittedSubDag × Consensus)
  | 0, _ => .error .outOfFuel
  | fuel + 1, n => do
    let (outcome, subDags, n) ← n.commitLeader leaderRound
    if outcome = .scheduleChanged then
      let (outcome, more, n) ← commitLoop leaderRound fuel n
      return (outcome, subDags ++ more, n)
    else return (outcome, subDags, n)

/-- A round of the certificate's leader above the last commit is tried with at most as
many retries as there are rounds. -/
def processCertificate (n : Consensus) (certificate : Certificate) :
    Except Abort (Except ConsensusError (Outcome × List CommittedSubDag) × Consensus) :=
  let (inserted, state) := n.state.tryInsert certificate
  let n := { n with state }
  match inserted with
  | .error e => .ok (.error e, n)
  | .ok false => .ok (.ok (.certificateBelowCommitRound, []), n)
  | .ok true =>
    if certificate.round = 0 then .error .roundUnderflow
    else
      let r := certificate.round - 1
      if r % 2 ≠ 0 ∨ r < 2 then .ok (.ok (.noLeaderElectedForOddRound, []), n)
      else if r ≤ n.state.lastRound.committedRound then
        .ok (.ok (.leaderBelowCommitRound, []), n)
      else do
        let (outcome, subDags, n) ← commitLoop r r n
        return (.ok (if subDags = [] then outcome else .commit, subDags), n)

end Consensus

inductive Failure where
  | abort (reason : Abort)
  | error (e : ConsensusError)
deriving DecidableEq, Repr

namespace Consensus

def new (committee : Committee) (gcDepth numSubDagsPerSchedule badNodesStakeThreshold : Nat)
    (table : LeaderSwapTable) : Consensus where
  protocol :=
    { committee, numSubDagsPerSchedule, badNodesStakeThreshold
      leaderSchedule := ⟨committee, table⟩ }
  state := .new gcDepth

/-- `process_certificate` on one certificate after the other: the sub-dags committed until
the end or the first failure. -/
def deliver (n : Consensus) : List Certificate → List CommittedSubDag × Except Failure Consensus
  | [] => ([], .ok n)
  | c :: cs =>
    match n.processCertificate c with
    | .error a => ([], .error (.abort a))
    | .ok (.error e, _) => ([], .error (.error e))
    | .ok (.ok (_, subDags), n) =>
      let (more, last) := n.deliver cs
      (subDags ++ more, last)

/-- The arms of the `select!` of `Consensus::run`, the shutdown apart. -/
inductive Event where
  | certificate (c : Certificate)
  | gcTick
deriving DecidableEq, Repr

def newCertificate (n : Consensus) (c : Certificate) :
    Except Abort (Except ConsensusError (Outcome × List CommittedSubDag) × Consensus) :=
  if c.epoch = n.protocol.committee.epoch then n.processCertificate c
  else .ok (.ok (.certificateBelowCommitRound, []), n)

def proactiveGc (n : Consensus) (highestSeenRound : Nat) : Consensus :=
  if 0 < highestSeenRound then { n with state := n.state.proactiveGc highestSeenRound } else n

def run (highestSeenRound : Nat) (n : Consensus) :
    List Event → List CommittedSubDag × Except Failure Consensus
  | [] => ([], .ok n)
  | .gcTick :: events => run highestSeenRound (n.proactiveGc highestSeenRound) events
  | .certificate c :: events =>
    match n.newCertificate c with
    | .error a => ([], .error (.abort a))
    | .ok (.error e, _) => ([], .error (.error e))
    | .ok (.ok (_, subDags), n) =>
      let (more, last) := run (max highestSeenRound c.round) n events
      (subDags ++ more, last)

end Consensus

end Axyl
