import Axyl.Types.Certificate
import Axyl.Lib.Reactor

/-! Vote requests of a primary in one epoch. Every request is a task, and an event is one step of
one task: what it does up to the next point where another task can see or change what it reads.
What the certificate store, the workers and the clock say is part of the event. Times
are milliseconds, except those that headers carry, which are seconds. -/

namespace Axyl
open Std (ExtTreeMap)

structure ProposedHeader extends Header where
  latestExecutionBlock : BlockNumHash
deriving Repr, DecidableEq

/-- The signature is a function of the digest and the key of the author, and is left out. -/
structure Vote where
  headerDigest : Nat
  round : Nat
  epoch : Nat
  origin : Nat
  author : Nat
deriving Repr, DecidableEq

structure VoteInfo where
  epoch : Nat
  round : Nat
  voteDigest : Nat
deriving Repr, DecidableEq

namespace Vote

def new (header : ProposedHeader) (author : Nat) : Vote where
  headerDigest := header.digest
  round := header.round
  epoch := header.epoch
  origin := header.author
  author := author

def digest (vote : Vote) : Nat := vote.headerDigest

def info (vote : Vote) : VoteInfo := ⟨vote.epoch, vote.round, vote.digest⟩

end Vote

inductive PrimaryNetworkError where
  | invalidHeader (e : HeaderError)
  | inquorate (stake threshold : Nat)
  | certificate (e : String)
  | storage (e : String)
  | internal (e : String)
deriving Repr, DecidableEq

inductive PrimaryRPCError where
  | voteInFlight
  | network (e : PrimaryNetworkError)
deriving Repr, DecidableEq

inductive PrimaryResponse where
  | vote (vote : Vote)
  | missingParents (digests : List Nat)
  | error (e : PrimaryRPCError)
  | recoverableError (e : PrimaryRPCError)
  | tooOld (headerRound limitRound : Nat)
  | epochMismatch (expected received : Nat)
deriving Repr, DecidableEq

namespace PrimaryResponse

def intoErrorRef (e : PrimaryNetworkError) : PrimaryResponse :=
  match e with
  | .invalidHeader (.tooOld _ headerRound maxRound) => .tooOld headerRound maxRound
  | .invalidHeader (.invalidEpoch theirs ours) =>
    if theirs = ours + 1 then .recoverableError (.network e) else .epochMismatch ours theirs
  | e => .error (.network e)

def ofResult : Except PrimaryNetworkError PrimaryResponse → PrimaryResponse
  | .ok response => response
  | .error e => intoErrorRef e

def vote? : PrimaryResponse → Option Vote
  | .vote v => some v
  | _ => none

theorem vote?_intoErrorRef (e : PrimaryNetworkError) : (intoErrorRef e).vote? = none := by
  unfold intoErrorRef
  split
  · rfl
  · split <;> rfl
  · rfl

end PrimaryResponse

def inFlightTtl : Nat := 15000

inductive AuthVoteState where
  | inFlight (epoch round digest createdAt : Nat)
  | completed (epoch round digest : Nat) (response : Option PrimaryResponse)
deriving Repr, DecidableEq

namespace AuthVoteState

def round : AuthVoteState → Nat
  | .inFlight _ round _ _ => round
  | .completed _ round _ _ => round

def vote? : AuthVoteState → Option Vote
  | .inFlight .. => none
  | .completed _ _ _ response => response.bind PrimaryResponse.vote?

def expired (now : Nat) : AuthVoteState → Bool
  | .inFlight _ _ _ createdAt => inFlightTtl < now - createdAt
  | .completed .. => false

def isCompleted : AuthVoteState → Bool
  | .inFlight .. => false
  | .completed .. => true

end AuthVoteState

abbrev AuthEquivocationMap := ExtTreeMap Nat AuthVoteState

namespace AuthEquivocationMap

variable (cache : AuthEquivocationMap)

/-- What the cached response of the same header says: an answer, or to process the header again. -/
def checkResponse (parents : List Certificate) :
    Option PrimaryResponse → Option (Except PrimaryNetworkError PrimaryResponse)
  | none => none
  | some (.recoverableError _) => none
  | some (.missingParents missing) =>
    if parents.isEmpty then some (.ok (.missingParents missing))
    else if parents.length ≠ missing.length then
      some (.error (.invalidHeader (.wrongNumberOfParents missing.length parents.length)))
    else if parents.any fun p => p.digest ∉ missing then
      some (.error (.invalidHeader .invalidParents))
    else none
  | some response => some (.ok response)

def checkState (header : ProposedHeader) (parents : List Certificate) (now : Nat) :
    AuthVoteState → Option (Except PrimaryNetworkError PrimaryResponse)
  | .inFlight epoch round digest createdAt =>
    if round < header.round then none
    else if (AuthVoteState.inFlight epoch round digest createdAt).expired now then none
    else some (.ok (.recoverableError .voteInFlight))
  | .completed epoch round digest response =>
    if digest = header.digest then checkResponse parents response
    else if header.epoch < epoch ∨ epoch = header.epoch ∧ header.round ≤ round then
      some (.error (.invalidHeader (.alreadyVotedForLaterRound header.round round)))
    else none

def checkEquivocation (header : ProposedHeader) (parents : List Certificate) (now : Nat) :
    Option (Except PrimaryNetworkError PrimaryResponse) × AuthEquivocationMap :=
  let inFlight := AuthVoteState.inFlight header.epoch header.round header.digest now
  match cache[header.author]? with
  | none => (none, cache.insert header.author inFlight)
  | some state =>
    match checkState header parents now state with
    | some result => (some result, cache)
    | none => (none, cache.insert header.author inFlight)

def complete (header : ProposedHeader) (response : PrimaryResponse) : AuthEquivocationMap :=
  if cache[header.author]?.any fun state => header.round < state.round then cache
  else cache.insert header.author (.completed header.epoch header.round header.digest (some response))

def dropGuard (header : ProposedHeader) : AuthEquivocationMap :=
  match cache[header.author]? with
  | some (.inFlight _ round _ _) => if round = header.round then cache.erase header.author else cache
  | _ => cache

def evictExpiredInflight (now : Nat) : AuthEquivocationMap :=
  cache.filter fun _ state => !state.expired now

def evictOldestCompleted (maxEntries : Nat) : AuthEquivocationMap :=
  if cache.size ≤ maxEntries then cache
  else
    let minRound := ((cache.toList.map fun entry => entry.2.round).min?).getD 0
    let old := cache.toList.filter fun entry => entry.2.isCompleted && entry.2.round ≤ minRound + 10
    ((old.take (cache.size - maxEntries)).map Prod.fst).foldl ExtTreeMap.erase cache

def maxAuthLastVoteEntries : Nat := 1000

def cleanup (now : Nat) : AuthEquivocationMap :=
  (cache.evictExpiredInflight now).evictOldestCompleted maxAuthLastVoteEntries

end AuthEquivocationMap

structure VoteConfig where
  committee : Committee
  gcDepth : Nat
  maxHeaderTimeDriftTolerance : Nat
  /-- An observer has none. -/
  authorityId : Option Nat

def anchorDivergesFromExecuted (executed : List (Nat × Nat)) (target : BlockNumHash) : Bool :=
  (executed.lookup target.number).any fun hash => hash ≠ target.hash

namespace VoteInner

variable (cfg : VoteConfig) (header : ProposedHeader)

def check (parents : List Certificate) (committedRound : Nat) (executed : List (Nat × Nat)) :
    Except PrimaryNetworkError Unit :=
  match header.validate cfg.committee with
  | .error e => .error (.invalidHeader e)
  | .ok () =>
    let maxRound := committedRound + cfg.gcDepth
    if header.round < 1 then .error (.invalidHeader (.invalidRound header.digest header.round))
    else if maxRound < header.round then
      .error (.invalidHeader (.tooNew header.digest header.round maxRound))
    else if cfg.committee.size < parents.length then
      .error (.invalidHeader (.tooManyParents parents.length cfg.committee.size))
    else if anchorDivergesFromExecuted executed header.latestExecutionBlock then
      .error (.invalidHeader (.unknownExecutionResult header.latestExecutionBlock))
    else .ok ()

def sumStake : List Certificate → List Nat → Nat → Except PrimaryNetworkError Nat
  | [], _, stake => .ok stake
  | parent :: parents, authors, stake =>
    if parent.epoch ≠ header.epoch then
      .error (.invalidHeader (.invalidEpoch parent.epoch header.epoch))
    else if parent.round + 1 ≠ header.round then .error (.invalidHeader .invalidParentRound)
    else if header.createdAt < parent.createdAt then
      .error (.invalidHeader (.invalidParentTimestamp header.createdAt parent.createdAt))
    else if parent.origin ∈ authors then .error (.invalidHeader .duplicateParents)
    else
      sumStake parents (parent.origin :: authors)
        (stake + cfg.committee.votingPowerById parent.origin)

def checkParents (parents : List Certificate) : Except PrimaryNetworkError Unit :=
  match sumStake cfg header parents [] 0 with
  | .error e => .error e
  | .ok stake =>
    if stake < cfg.committee.quorumThreshold then
      .error (.inquorate stake cfg.committee.quorumThreshold)
    else .ok ()

def checkTime (now : Nat) : Except PrimaryNetworkError Unit :=
  if now < header.createdAt ∧ cfg.maxHeaderTimeDriftTolerance < header.createdAt - now then
    .error (.invalidHeader (.invalidTimestamp header.createdAt now))
  else .ok ()

def checkPrevious (authorityId : Nat) : Option VoteInfo → Except PrimaryNetworkError (Option Vote)
  | none => .ok none
  | some info =>
    if header.epoch ≠ info.epoch then .error (.invalidHeader (.invalidEpoch header.epoch info.epoch))
    else if header.round < info.round then
      .error (.invalidHeader (.alreadyVotedForLaterRound header.round info.round))
    else if header.round = info.round then
      if (Vote.new header authorityId).digest ≠ info.voteDigest then
        .error (.invalidHeader (.alreadyVoted header.digest header.round))
      else .ok (some (Vote.new header authorityId))
    else .ok none

end VoteInner

/-- Where a task is: before the checks, waiting for parents, certificates or batches, before the
look at the clock, before it reads the stored vote, before it writes its vote (with the vote that
it read), before it records the header, before the guard completes and before the answer. -/
inductive VotePc where
  | check
  | parents
  | certificates
  | batches
  | clock
  | read
  | write (authorityId : Nat) (previous : Option VoteInfo)
  | record (vote : Vote)
  | complete (result : Except PrimaryNetworkError PrimaryResponse)
  | answer (response : PrimaryResponse)
  | done
deriving Repr

structure VoteTask where
  header : ProposedHeader
  parents : List Certificate
  pc : VotePc
deriving Repr

/-- `now` and `createdAt` are the times of the events, `seconds` the wall clock. -/
inductive VoteEvent where
  | request (peer : Nat) (header : ProposedHeader) (parents : List Certificate) (now : Nat)
  | check (task committedRound : Nat) (executed : List (Nat × Nat))
  /-- `check_for_missing_parents`, or `try_accept_unknown_certs` if the request has parents. -/
  | parents (task : Nat) (missing : Except PrimaryNetworkError (List Nat))
  /-- `notify_read_parent_certificates`. -/
  | certificates (task : Nat) (parents : Except PrimaryNetworkError (List Certificate))
  /-- `sync_header_batches`. -/
  | batches (task : Nat) (synced : Except PrimaryNetworkError Unit)
  | clock (task seconds : Nat)
  | read (task : Nat)
  | write (task : Nat) (failure : Option String)
  | record (task : Nat) (failure : Option String)
  | complete (task : Nat)
  | answer (task now : Nat)
  /-- The network layer cancels the request. -/
  | cancel (task : Nat)
deriving Repr

inductive VoteEffect where
  | wrote (vote : Vote)
  | answered (response : PrimaryResponse)
deriving Repr, DecidableEq

structure VoteHandler where
  authLastVote : AuthEquivocationMap
  tasks : List VoteTask

namespace VoteHandler

def new : VoteHandler := ⟨∅, []⟩

variable (cfg : VoteConfig) (stored : Nat → Except String (Option VoteInfo)) (s : VoteHandler)

def setPc (i : Nat) (task : VoteTask) (pc : VotePc) : VoteHandler :=
  { s with tasks := s.tasks.set i { task with pc } }

def continueWith (i : Nat) (task : VoteTask) (result : Except PrimaryNetworkError Unit)
    (pc : VotePc) : VoteHandler :=
  match result with
  | .ok () => s.setPc i task pc
  | .error e => s.setPc i task (.complete (.error e))

def request (peer : Nat) (header : ProposedHeader) (parents : List Certificate) (now : Nat) :
    List VoteEffect × VoteHandler :=
  match cfg.committee.authority header.author with
  | none =>
    ([.answered (.intoErrorRef (.invalidHeader (.unknownAuthority header.author)))], s)
  | some authority =>
    if peer ≠ authority.id then ([.answered (.intoErrorRef (.invalidHeader .peerNotAuthor))], s)
    else
      match s.authLastVote.checkEquivocation header parents now with
      | (some result, cache) => ([.answered (.ofResult result)], { s with authLastVote := cache })
      | (none, cache) => ([], ⟨cache, s.tasks ++ [⟨header, parents, .check⟩]⟩)

def stepTask (i : Nat) (task : VoteTask) (event : VoteEvent) : List VoteEffect × VoteHandler :=
  match task.pc, event with
  | .check, .check _ committedRound executed =>
    ([], s.continueWith i task (VoteInner.check cfg task.header task.parents committedRound executed)
      .parents)
  | .parents, .parents _ missing =>
    match missing with
    | .error e => ([], s.setPc i task (.complete (.error e)))
    | .ok digests =>
      if task.parents.isEmpty ∧ digests ≠ [] then
        ([], s.setPc i task (.complete (.ok (.missingParents digests))))
      else ([], s.setPc i task .certificates)
  | .certificates, .certificates _ parents =>
    match parents with
    | .error e => ([], s.setPc i task (.complete (.error e)))
    | .ok parents =>
      ([], s.continueWith i task (VoteInner.checkParents cfg task.header parents) .batches)
  | .batches, .batches _ synced => ([], s.continueWith i task synced .clock)
  | .clock, .clock _ seconds =>
    ([], s.continueWith i task (VoteInner.checkTime cfg task.header seconds) .read)
  | .read, .read _ =>
    match cfg.authorityId with
    | none =>
      ([], s.setPc i task (.complete (.error (.internal "node is not a validator; cannot vote"))))
    | some id =>
      match stored task.header.author with
      | .error e => ([], s.setPc i task (.complete (.error (.invalidHeader (.storage e)))))
      | .ok previous =>
        match VoteInner.checkPrevious task.header id previous with
        | .error e => ([], s.setPc i task (.complete (.error e)))
        | .ok (some vote) => ([], s.setPc i task (.complete (.ok (.vote vote))))
        | .ok none => ([], s.setPc i task (.write id previous))
  | .write id _, .write _ failure =>
    match failure with
    | some e => ([], s.setPc i task (.complete (.error (.storage e))))
    | none =>
      let vote := Vote.new task.header id
      ([.wrote vote], s.setPc i task (.record vote))
  | .record vote, .record _ failure =>
    match failure with
    | some e => ([], s.setPc i task (.complete (.error (.storage e))))
    | none => ([], s.setPc i task (.complete (.ok (.vote vote))))
  | .complete result, .complete _ =>
    ([], { s.setPc i task (.answer (.ofResult result)) with
      authLastVote := s.authLastVote.complete task.header (.ofResult result) })
  | .answer response, .answer _ now =>
    ([.answered response], { s.setPc i task .done with authLastVote := s.authLastVote.cleanup now })
  | .parents, .cancel _ | .certificates, .cancel _ | .batches, .cancel _ | .clock, .cancel _ =>
    ([], { s.setPc i task .done with authLastVote := s.authLastVote.dropGuard task.header })
  | _, _ => ([], s)

end VoteHandler

def VoteEvent.task? : VoteEvent → Option Nat
  | .request .. => none
  | .check i .. => some i
  | .parents i _ => some i
  | .certificates i _ => some i
  | .batches i _ => some i
  | .clock i _ => some i
  | .read i => some i
  | .write i _ => some i
  | .record i _ => some i
  | .complete i => some i
  | .answer i _ => some i
  | .cancel i => some i

namespace VoteHandler

def step (cfg : VoteConfig) (stored : Nat → Except String (Option VoteInfo)) (s : VoteHandler) :
    VoteEvent → List VoteEffect × VoteHandler
  | .request peer header parents now => s.request cfg peer header parents now
  | event =>
    match event.task?.bind fun i => s.tasks[i]?.map fun task => (i, task) with
    | some (i, task) => s.stepTask cfg stored i task event
    | none => ([], s)

end VoteHandler

end Axyl
