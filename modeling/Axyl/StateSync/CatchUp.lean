import Axyl.Lib.Reactor
import Axyl.StateSync.Chain
import Axyl.Subscriber.Follow

/-! A node that follows the chain: the forward streamer, which sends the headers between the
executed anchor and a target in order, the tables it reads, and the catch-up subscriber at the
other end of its channel. What the backwards walk writes and publishes, what peers answer and
whether execution keeps up are inputs. -/

namespace Axyl
open Std (ExtTreeMap)

inductive PeerAnswer where
  /-- The request cannot be sent or the connection is lost. -/
  | failed
  | other
  | header (header : ConsensusHeader)
deriving DecidableEq

def firstOfNumber (number : Nat) : List PeerAnswer → Option ConsensusHeader
  | [] | .failed :: _ => none
  | .other :: answers => firstOfNumber number answers
  | .header header :: answers =>
    if header.number = number then some header else firstOfNumber number answers

def requestConsensus (number : Nat) (answers : List PeerAnswer) : Option ConsensusHeader :=
  firstOfNumber number (answers.take 3)

inductive CatchUpStage where
  | lookup
  | request
  | check (header : ConsensusHeader) (fromGapFetch : Bool)
deriving DecidableEq

structure CatchUp where
  lastConsensusHeight : Nat
  maxConsensus : ConsensusHeader
  number : Nat
  lastParent : Nat
  resultHeader : ConsensusHeader
  stage : CatchUpStage
deriving DecidableEq

/-- The variables of `spawn_stream_consensus_headers`; `catchUp` is there during an attempt. -/
structure Streamer where
  lastConsensusHeader : ConsensusHeader
  pendingCatchUpTarget : Option ConsensusHeader
  catchUp : Option CatchUp
deriving DecidableEq

structure CatchUpNode where
  blocks : ConsensusBlocks
  cache : ConsensusBlocks
  /-- The watch of the latest header from peers, and whether the streamer has seen it. -/
  latest : ConsensusHeader
  changed : Bool
  streamer : Streamer
  channel : List ConsensusHeader
  follower : Option Follower
deriving DecidableEq

inductive CatchUpEvent where
  | publish (header : ConsensusHeader)
  /-- The backwards walk stores a header. -/
  | walk (header : ConsensusHeader)
  | changed
  | retry
  | lookup
  | reply (answers : List PeerAnswer)
  | forward (executed : Bool)
  | receive (keys : Bool)
  | deliver (sends : Bool)
deriving DecidableEq

inductive CatchUpEffect where
  /-- The streamer sends the header to the subscriber. -/
  | streamed (header : ConsensusHeader)
  | output (effect : SubscriberEffect)
deriving DecidableEq

section
variable [HashFunction]

namespace Streamer

variable (s : Streamer)

def attempt (target : ConsensusHeader) : Streamer :=
  { s with
    catchUp := some {
      lastConsensusHeight := s.lastConsensusHeader.number
      maxConsensus := target
      number := s.lastConsensusHeader.number + 1
      lastParent := s.lastConsensusHeader.digest
      resultHeader := s.lastConsensusHeader
      stage := .lookup } }

def caughtUp (target result : ConsensusHeader) : Streamer where
  lastConsensusHeader := result
  pendingCatchUpTarget := if result.number < target.number then some target else none
  catchUp := none

def failed (target : ConsensusHeader) : Streamer where
  lastConsensusHeader := s.lastConsensusHeader
  pendingCatchUpTarget := some target
  catchUp := none

end Streamer

namespace CatchUpNode

/-- The subscriber starts behind the executed anchor, and the saved headers above it come first. -/
def start (cfg : SubscriberConfig) (blocks cache : ConsensusBlocks) (latest anchor : ConsensusHeader) :
    CatchUpNode where
  blocks := blocks
  cache := cache
  latest := latest
  changed := false
  streamer := ⟨anchor, none, none⟩
  channel := getMissingConsensus blocks cache cfg.epoch anchor
  follower := some (.start cfg blocks cache anchor)

variable (cfg : SubscriberConfig) (n : CatchUpNode)

def withStage (c : CatchUp) (stage : CatchUpStage) : CatchUpNode :=
  { n with streamer := { n.streamer with catchUp := some { c with stage } } }

def lookup (c : CatchUp) : CatchUpNode :=
  if c.number = c.maxConsensus.number then n.withStage c (.check c.maxConsensus false)
  else
    match getConsensusByNumber n.blocks n.cache c.number with
    | some header => n.withStage c (.check header false)
    | none => n.withStage c .request

def reply (c : CatchUp) (answers : List PeerAnswer) : CatchUpNode :=
  match requestConsensus c.number answers with
  | some header => n.withStage c (.check header true)
  | none => { n with streamer := .caughtUp c.maxConsensus c.resultHeader }

/-- The header does not link to the one before it, whose row is taken for poisoned unless the table
of blocks has it or the attempt started from it. -/
def mismatch (c : CatchUp) : CatchUpNode :=
  let poisonedParentNumber := c.number - 1
  let poisoned := c.lastConsensusHeight < poisonedParentNumber ∧
    n.blocks[poisonedParentNumber]?.map ConsensusHeader.digest ≠ some c.lastParent
  { n with
    cache := if poisoned then n.cache.erase poisonedParentNumber else n.cache
    streamer := n.streamer.failed c.maxConsensus }

/-- The header links to the one before it. It is sent once execution has reached the block that it
builds on. -/
def pass (c : CatchUp) (header : ConsensusHeader) (fromGapFetch executed : Bool) :
    List CatchUpEffect × CatchUpNode :=
  let n := { n with cache := if fromGapFetch then n.cache.insert header.number header else n.cache }
  if executed = false then ([], { n with streamer := n.streamer.failed c.maxConsensus })
  else
    let n := { n with channel := n.channel ++ [header] }
    if c.number = c.maxConsensus.number then
      ([.streamed header], { n with streamer := .caughtUp c.maxConsensus header })
    else
      ([.streamed header], n.withStage
        { c with number := c.number + 1, lastParent := header.digest, resultHeader := header } .lookup)

def expectedDigest (c : CatchUp) (header : ConsensusHeader) : Nat :=
  (⟨c.lastParent, header.subDag, c.number⟩ : ConsensusHeader).digest

def forward (c : CatchUp) (header : ConsensusHeader) (fromGapFetch executed : Bool) :
    List CatchUpEffect × CatchUpNode :=
  if header.subDag.leaderEpoch < cfg.epoch then
    ([], { n with streamer := .caughtUp c.maxConsensus c.resultHeader })
  else if expectedDigest c header ≠ header.digest then ([], n.mismatch c)
  else n.pass c header fromGapFetch executed

def stream (c : CatchUp) : CatchUpEvent → List CatchUpEffect × CatchUpNode
  | .lookup => if c.stage = .lookup then ([], n.lookup c) else ([], n)
  | .reply answers => if c.stage = .request then ([], n.reply c answers) else ([], n)
  | .forward executed =>
    match c.stage with
    | .check header fromGapFetch => n.forward cfg c header fromGapFetch executed
    | _ => ([], n)
  | _ => ([], n)

def wake : CatchUpEvent → CatchUpNode
  | .changed =>
    if n.changed then
      let streamer :=
        if n.streamer.lastConsensusHeader.number < n.latest.number then n.streamer.attempt n.latest
        else n.streamer
      { n with changed := false, streamer }
    else n
  | .retry =>
    match n.streamer.pendingCatchUpTarget with
    | some target =>
      if n.streamer.lastConsensusHeader.number < target.number then
        { n with streamer := n.streamer.attempt target }
      else { n with streamer := { n.streamer with pendingCatchUpTarget := none } }
    | none => n
  | _ => n

def streamerStep (event : CatchUpEvent) : List CatchUpEffect × CatchUpNode :=
  match n.streamer.catchUp with
  | some c => n.stream cfg c event
  | none => ([], n.wake event)

def receive (keys : Bool) : CatchUpNode :=
  match n.follower, n.channel with
  | some f, header :: channel =>
    if f.waiting.length < maxCatchupPipeline then
      { n with channel, follower := some (f.receive cfg keys header) }
    else n
  | _, _ => n

def save : SubscriberEffect → CatchUpNode
  | .saved header =>
    { n with
      blocks := n.blocks.insert header.number header
      cache := n.cache.erase header.number }
  | .sent _ => n

def deliver (sends : Bool) : List CatchUpEffect × CatchUpNode :=
  match n.follower with
  | some f =>
    let (effects, f) := f.deliver cfg sends
    (effects.map .output,
      { effects.foldl save n with follower := if effects ≠ [] ∧ sends = false then none else some f })
  | none => ([], n)

def step : CatchUpEvent → List CatchUpEffect × CatchUpNode
  | .publish header =>
    if n.latest.number < header.number then ([], { n with latest := header, changed := true })
    else ([], n)
  | .walk header => ([], { n with cache := n.cache.insert header.number header })
  | .receive keys => ([], n.receive cfg keys)
  | .deliver sends => n.deliver cfg sends
  | event => n.streamerStep cfg event

def run (n : CatchUpNode) (events : List CatchUpEvent) : List CatchUpEffect × CatchUpNode :=
  Reactor.run (step cfg) n events

end CatchUpNode

end

def CatchUpStage.held : CatchUpStage → Option ConsensusHeader
  | .check header _ => some header
  | .lookup | .request => none

namespace CatchUpNode

def row (n : CatchUpNode) (number : Nat) : Option ConsensusHeader :=
  getConsensusByNumber n.blocks n.cache number

def Acts (n : CatchUpNode) : CatchUpEvent → Prop
  | .changed =>
    n.streamer.catchUp = none ∧ n.changed = true ∧
      n.streamer.lastConsensusHeader.number < n.latest.number
  | .retry =>
    n.streamer.catchUp = none ∧ ∃ target ∈ n.streamer.pendingCatchUpTarget,
      n.streamer.lastConsensusHeader.number < target.number
  | .lookup => ∃ c ∈ n.streamer.catchUp, c.stage = .lookup
  | .reply _ => ∃ c ∈ n.streamer.catchUp, c.stage = .request
  | .forward _ => ∃ c ∈ n.streamer.catchUp, c.stage.held ≠ none
  | .publish _ | .walk _ | .receive _ | .deliver _ => False

instance decidableActs (n : CatchUpNode) : (event : CatchUpEvent) → Decidable (Acts n event)
  | .changed | .retry => inferInstanceAs (Decidable (_ ∧ _))
  | .lookup | .reply _ | .forward _ => inferInstanceAs (Decidable (∃ _ ∈ n.streamer.catchUp, _))
  | .publish _ | .walk _ | .receive _ | .deliver _ => isFalse id

section
variable [HashFunction]

/-- What one step can do, with what the branch that it takes has checked. -/
inductive Change (cfg : SubscriberConfig) (n : CatchUpNode) :
    CatchUpEvent → List CatchUpEffect → CatchUpNode → Prop
  | quiet {event} (hquiet : ¬ n.Acts event) : Change cfg n event [] n
  | published {x} (hlt : n.latest.number < x.number) :
    Change cfg n (.publish x) [] { n with latest := x, changed := true }
  | walked (x) : Change cfg n (.walk x) [] { n with cache := n.cache.insert x.number x }
  | seen (hle : n.latest.number ≤ n.streamer.lastConsensusHeader.number) :
    Change cfg n .changed [] { n with changed := false }
  | dropped {target} (hidle : n.streamer.catchUp = none)
    (htarget : n.streamer.pendingCatchUpTarget = some target)
    (hle : target.number ≤ n.streamer.lastConsensusHeader.number) :
    Change cfg n .retry [] { n with streamer := { n.streamer with pendingCatchUpTarget := none } }
  | noticed (hidle : n.streamer.catchUp = none) (hchanged : n.changed = true)
    (hlt : n.streamer.lastConsensusHeader.number < n.latest.number) :
    Change cfg n .changed [] { n with changed := false, streamer := n.streamer.attempt n.latest }
  | retried {target} (hidle : n.streamer.catchUp = none)
    (htarget : n.streamer.pendingCatchUpTarget = some target)
    (hlt : n.streamer.lastConsensusHeader.number < target.number) :
    Change cfg n .retry [] { n with streamer := n.streamer.attempt target }
  | aimed {c} (hc : n.streamer.catchUp = some c) (hstage : c.stage = .lookup)
    (hend : c.number = c.maxConsensus.number) :
    Change cfg n .lookup [] (n.withStage c (.check c.maxConsensus false))
  | found {c x} (hc : n.streamer.catchUp = some c) (hstage : c.stage = .lookup)
    (hend : c.number ≠ c.maxConsensus.number) (hx : n.row c.number = some x) :
    Change cfg n .lookup [] (n.withStage c (.check x false))
  | missing {c} (hc : n.streamer.catchUp = some c) (hstage : c.stage = .lookup)
    (hend : c.number ≠ c.maxConsensus.number) (hnone : n.row c.number = none) :
    Change cfg n .lookup [] (n.withStage c .request)
  | answered {c answers x} (hc : n.streamer.catchUp = some c) (hstage : c.stage = .request)
    (hx : requestConsensus c.number answers = some x) :
    Change cfg n (.reply answers) [] (n.withStage c (.check x true))
  | unanswered {c answers} (hc : n.streamer.catchUp = some c) (hstage : c.stage = .request)
    (hnone : requestConsensus c.number answers = none) :
    Change cfg n (.reply answers) [] { n with streamer := .caughtUp c.maxConsensus c.resultHeader }
  | closed {c x gap} (executed) (hc : n.streamer.catchUp = some c) (hstage : c.stage = .check x gap)
    (hclosed : x.subDag.leaderEpoch < cfg.epoch) :
    Change cfg n (.forward executed) []
      { n with streamer := .caughtUp c.maxConsensus c.resultHeader }
  | mismatched {c x gap} (executed) (hc : n.streamer.catchUp = some c)
    (hstage : c.stage = .check x gap) (hlinks : expectedDigest c x ≠ x.digest) :
    Change cfg n (.forward executed) [] (n.mismatch c)
  | late {c x gap} (hc : n.streamer.catchUp = some c) (hstage : c.stage = .check x gap) :
    Change cfg n (.forward false) [] { n with
      cache := if gap then n.cache.insert x.number x else n.cache
      streamer := n.streamer.failed c.maxConsensus }
  | reached {c x gap} (hc : n.streamer.catchUp = some c) (hstage : c.stage = .check x gap)
    (hlinks : expectedDigest c x = x.digest) (hend : c.number = c.maxConsensus.number) :
    Change cfg n (.forward true) [.streamed x] { n with
      cache := if gap then n.cache.insert x.number x else n.cache
      channel := n.channel ++ [x]
      streamer := .caughtUp c.maxConsensus x }
  | passed {c x gap} (hc : n.streamer.catchUp = some c) (hstage : c.stage = .check x gap)
    (hlinks : expectedDigest c x = x.digest) (hend : c.number ≠ c.maxConsensus.number) :
    Change cfg n (.forward true) [.streamed x] (withStage { n with
      cache := if gap then n.cache.insert x.number x else n.cache
      channel := n.channel ++ [x] }
      { c with number := c.number + 1, lastParent := x.digest, resultHeader := x } .lookup)
  | received {f x channel} (keys) (hf : n.follower = some f) (hchannel : n.channel = x :: channel) :
    Change cfg n (.receive keys) [] { n with channel, follower := some (f.receive cfg keys x) }
  | delivered {f} (sends) (hf : n.follower = some f) :
    Change cfg n (.deliver sends) ((f.deliver cfg sends).1.map .output)
      { (f.deliver cfg sends).1.foldl save n with
        follower := if (f.deliver cfg sends).1 ≠ [] ∧ sends = false then none
          else some (f.deliver cfg sends).2 }

section
variable {cfg : SubscriberConfig} {n : CatchUpNode} {c : CatchUp}

theorem change_forward (hc : n.streamer.catchUp = some c) {x : ConsensusHeader} {gap : Bool}
    (hstg : c.stage = .check x gap) (exec : Bool) :
    Change cfg n (.forward exec) (n.forward cfg c x gap exec).1 (n.forward cfg c x gap exec).2 := by
  unfold forward
  split
  · next hcls => exact .closed exec hc hstg hcls
  split
  · next hlnk => exact .mismatched exec hc hstg hlnk
  next hlnk =>
  cases exec with
  | false => exact .late hc hstg
  | true =>
    dsimp only [pass]
    rw [if_neg nofun]
    split
    · next hend => exact .reached hc hstg (Decidable.not_not.mp hlnk) hend
    · next hend => exact .passed hc hstg (Decidable.not_not.mp hlnk) hend

theorem change_stream (hc : n.streamer.catchUp = some c) (ev : CatchUpEvent) :
    Change cfg n ev (n.stream cfg c ev).1 (n.stream cfg c ev).2 := by
  have honly {c'} (h : c' ∈ n.streamer.catchUp) : c' = c := Option.some.inj (h.symm.trans hc)
  unfold stream
  split
  · split
    · next hstg =>
      unfold lookup
      split
      · next hend => exact .aimed hc hstg hend
      · next hend =>
        split
        · next hx => exact .found hc hstg hend hx
        · next hnone => exact .missing hc hstg hend hnone
    · next hstg =>
      refine .quiet ?_
      rintro ⟨c', hc', hlook⟩
      exact hstg (honly hc' ▸ hlook)
  · split
    · next hstg =>
      unfold reply
      split
      · next hx => exact .answered hc hstg hx
      · next hnone => exact .unanswered hc hstg hnone
    · next hstg =>
      refine .quiet ?_
      rintro ⟨c', hc', hreq⟩
      exact hstg (honly hc' ▸ hreq)
  · split
    · next hstg => exact change_forward hc hstg _
    · next hstg =>
      refine .quiet ?_
      rintro ⟨c', hc', hheld⟩
      obtain rfl := honly hc'
      cases hs : c'.stage with
      | lookup | request => exact hheld (congrArg CatchUpStage.held hs)
      | check x gap => exact hstg x gap hs
  · next hlook hrep hfwd =>
    refine .quiet ?_
    cases ev with
    | changed | retry =>
      rintro ⟨hidle, -⟩
      cases hidle.symm.trans hc
    | publish | walk | receive | deliver => exact id
    | lookup => exact absurd rfl hlook
    | reply answers => exact absurd rfl (hrep answers)
    | forward exec => exact absurd rfl (hfwd exec)

theorem change_wake (hidle : n.streamer.catchUp = none) (ev : CatchUpEvent) :
    Change cfg n ev [] (n.wake ev) := by
  cases ev with
  | changed =>
    dsimp only [wake]
    split
    · next hchd =>
      split
      · next hlt => exact .noticed hidle hchd hlt
      · next hle => exact .seen (by omega)
    · next hchd => exact .quiet fun hacts => hchd hacts.2.1
  | retry =>
    dsimp only [wake]
    split
    · next htgt =>
      split
      · next hlt => exact .retried hidle htgt hlt
      · next hle => exact .dropped hidle htgt (by omega)
    · next hnone =>
      refine .quiet ?_
      rintro ⟨-, target, htgt, -⟩
      cases hnone.symm.trans htgt
  | lookup | reply | forward =>
    refine .quiet ?_
    rintro ⟨c, hc, -⟩
    cases hidle.symm.trans hc
  | publish | walk | receive | deliver => exact .quiet id

theorem change_streamerStep (ev : CatchUpEvent) :
    Change cfg n ev (n.streamerStep cfg ev).1 (n.streamerStep cfg ev).2 := by
  unfold streamerStep
  split
  · next hc => exact change_stream hc ev
  · next hidle => exact change_wake hidle ev

end

theorem change_step (cfg : SubscriberConfig) (n : CatchUpNode) (ev : CatchUpEvent) :
    Change cfg n ev (n.step cfg ev).1 (n.step cfg ev).2 := by
  cases ev with
  | publish x =>
    dsimp only [step]
    split
    · next hlt => exact .published hlt
    · exact .quiet id
  | walk x => exact .walked x
  | receive keys =>
    dsimp only [step, receive]
    split
    · next hf hchan =>
      split
      · exact .received keys hf hchan
      · exact .quiet id
    · exact .quiet id
  | deliver sends =>
    dsimp only [step, deliver]
    split
    · next hf => exact .delivered sends hf
    · exact .quiet id
  | changed | retry | lookup | reply | forward => exact change_streamerStep _

end

def ofRound (round : Nat) : CommittedSubDag :=
  .new [] ⟨⟨0, round, 1, round, [], [], round⟩⟩ .default none

def executedFive : ConsensusHeader := ⟨0, ofRound 2, 5⟩

def epochOne : SubscriberConfig where
  epoch := 1
  epochBoundary := 100
  verifies := fun _ => true
  certifiedCheckpoint := none

def threeAhead : List CommittedSubDag := [ofRound 4, ofRound 6, ofRound 8]

def ahead [HashFunction] (k : Nat) : ConsensusHeader :=
  (chainFrom executedFive threeAhead)[k]?.getD .default

end CatchUpNode

end Axyl
