import Axyl.Primary.OneVote
import Axyl.Storage.LayeredRefinement
import Axyl.Storage.Persist

/-! A primary over the layered store, and crashes: the memory tier, the queue and the tasks are
lost, and the primary starts again from the persistent tier. -/

namespace Axyl
open LayeredDatabase VotePrimary
open Std (ExtTreeMap)

def FatalError.message : FatalError → String
  | .startTxnWhileOpen => "StartTxn while a write txn is already open"
  | .commitWithoutTxn => "CommitTxn with no open write txn"
  | .writeTxn e => s!"write_txn: {e}"
  | .commit e => s!"commit: {e}"
  | .insert e => s!"insert: {e}"
  | .remove e => s!"remove: {e}"
  | .clear e => s!"clear: {e}"

def poisonedError (e : FatalError) : String :=
  "consensus DB poisoned: no further writes will be attempted: " ++ e.message

structure VoteCodec (V : Type) where
  encode : VoteInfo → V
  decode : V → Except String VoteInfo
  decode_encode : ∀ info, decode (encode info) = .ok info

def VoteCodec.decodeRow {V : Type} (codec : VoteCodec V) :
    Option V → Except String (Option VoteInfo)
  | none => .ok none
  | some x => (codec.decode x).map some

structure StoredConfig (τ V : Type) where
  vote : VoteConfig
  cache : CacheConfig
  votesTable : τ
  codec : VoteCodec V

structure StoredPrimary (τ V : Type) where
  handler : VoteHandler
  store : LayeredDatabase τ Nat V

inductive StoredEvent (τ V : Type) where
  | vote (event : VoteEvent) (now : Nat)
  /-- A step of the writer or of another component. -/
  | store (event : LayeredEvent τ Nat V)
  | crash

inductive StoredEffect (τ V : Type) where
  | vote (effect : VoteEffect)
  | store (effect : LayeredEffect τ Nat V)
  | crashed
deriving DecidableEq

section
variable {τ V : Type} [LinearOrder τ] [Fintype τ]

def VoteEvent.withFailure (failure : Option String) : VoteEvent → VoteEvent
  | .write i _ => .write i failure
  | event => event

def VoteEvent.isWrite : VoteEvent → Bool
  | .write .. => true
  | _ => false

namespace StoredPrimary

variable (cfg : StoredConfig τ V) (q : StoredPrimary τ V)

def start (db : Tables τ Nat V) : StoredPrimary τ V := ⟨.new, .openWith db⟩

def stored (author : Nat) : Except String (Option VoteInfo) :=
  match q.store.get cfg.cache cfg.votesTable author [] [] [] with
  | .error e => .error e
  | .ok row => cfg.codec.decodeRow row

def writeVote (now : Nat) (store : LayeredDatabase τ Nat V) (vote : Vote) :
    LayeredDatabase τ Nat V :=
  (store.write (.insert cfg.votesTable vote.origin (cfg.codec.encode vote.info)) now).2

def stepVote (event : VoteEvent) (now : Nat) : List VoteEffect × StoredPrimary τ V :=
  if q.store.aborted ∨ event.isWrite ∧ q.store.fatal = none ∧ q.store.lock ≠ .shared 0 then ([], q)
  else
    let r := q.handler.step cfg.vote (q.stored cfg)
      (event.withFailure (q.store.fatal.map poisonedError))
    (r.1, ⟨r.2, (r.1.filterMap VoteEffect.wrote?).foldl (writeVote cfg now) q.store⟩)

def step : StoredEvent τ V → List (StoredEffect τ V) × StoredPrimary τ V
  | .vote event now => ((q.stepVote cfg event now).1.map .vote, (q.stepVote cfg event now).2)
  | .store event =>
    ((q.store.step cfg.cache event).1.map .store, ⟨q.handler, (q.store.step cfg.cache event).2⟩)
  | .crash => ([.crashed], start q.store.db)

def run (events : List (StoredEvent τ V)) : List (StoredEffect τ V) × StoredPrimary τ V :=
  Reactor.run (fun q event => step cfg q event) q events

end StoredPrimary

def Vote.coveredBy (v : Vote) : Except String (Option VoteInfo) → Bool
  | .ok (some info) =>
    info.epoch = v.epoch ∧ (v.round < info.round ∨ v.round = info.round ∧ v.digest = info.voteDigest)
  | _ => false

def Vote.Agrees (v w : Vote) : Prop :=
  v.origin = w.origin → v.epoch = w.epoch → v.round = w.round → v.headerDigest = w.headerDigest

theorem Vote.coveredBy_iff {v : Vote} {row : Except String (Option VoteInfo)} :
    v.coveredBy row = true ↔ ∃ info, row = .ok (some info) ∧ info.epoch = v.epoch ∧
      (v.round < info.round ∨ v.round = info.round ∧ v.digest = info.voteDigest) := by
  unfold Vote.coveredBy
  split
  · next info =>
    rw [decide_eq_true_eq]
    constructor
    · exact fun h => ⟨info, rfl, h⟩
    · rintro ⟨info', heq, h⟩
      cases heq
      exact h
  · next hne =>
    refine ⟨nofun, ?_⟩
    rintro ⟨info, rfl, -⟩
    exact absurd rfl (hne info)

def LayeredEvent.spares (t : τ) : LayeredEvent τ Nat V → Bool
  | .write op _ => op.table ≠ t
  | .txnWrite op _ => op.table ≠ t
  | .evictPersistentBatch .. => false
  | _ => true

namespace StoredPrimary

/-- Other components leave the table of votes alone, and a crash finds a row in the persistent tier
that rules out another vote in the place of `v`. -/
def keeps (cfg : StoredConfig τ V) (v : Vote) (q : StoredPrimary τ V) : StoredEvent τ V → Bool
  | .vote .. => true
  | .store event => event.spares cfg.votesTable
  | .crash => v.coveredBy (cfg.codec.decodeRow (q.store.db cfg.votesTable)[v.origin]?)

variable {cfg : StoredConfig τ V} {q : StoredPrimary τ V} {m : Tables τ Nat V} {v : Vote}

theorem stored_eq (h : q.store.Represents m) (auth : Nat) :
    q.stored cfg auth = cfg.codec.decodeRow (m cfg.votesTable)[auth]? := by
  have hqt : Quiet ([] : List (LayeredEvent τ Nat V)) := nofun
  unfold stored
  rw [get_eq h hqt hqt hqt]

/-- No vote of the primary is against `v`, and none can come: the row of the author covers `v`, and
a task that is about to write has a later round. -/
structure Safe (cfg : StoredConfig τ V) (v : Vote) (q : StoredPrimary τ V) : Prop where
  covered : ∃ m, q.store.Represents m ∧
    v.coveredBy (cfg.codec.decodeRow (m cfg.votesTable)[v.origin]?) = true
  held : ∀ w, q.handler.Holds w → v.Agrees w
  writes : ∀ task ∈ q.handler.tasks, ∀ id previous, task.pc = .write id previous →
    task.header.author = v.origin → task.header.epoch = v.epoch ∧ v.round < task.header.round

omit [Fintype τ] in
theorem safe_start {db : Tables τ Nat V}
    (h : v.coveredBy (cfg.codec.decodeRow (db cfg.votesTable)[v.origin]?) = true) :
    (start db).Safe cfg v :=
  ⟨⟨db, represents_openWith db, h⟩,
    fun w hw => absurd hw (VoteHandler.not_holds_new w), nofun⟩

variable {w : Vote}

theorem agrees_of_covered {row : Except String (Option VoteInfo)} (h : v.coveredBy row = true)
    (hrow : row = .ok (some w.info)) : v.Agrees w := by
  obtain ⟨info, hinfo, -, hrnd⟩ := Vote.coveredBy_iff.mp h
  rw [hrow] at hinfo
  cases hinfo
  intro _ _ heq
  rcases hrnd with hlt | ⟨-, hdig⟩
  · exact absurd heq hlt.ne
  · exact hdig

variable {event : LayeredEvent τ Nat V}

omit [Fintype τ] in
theorem archives_of_spares {t : τ} (h : event.spares t = true) : event.archives = false := by
  cases event <;> first | rfl | cases h

theorem Safe.store (h : q.Safe cfg v) (hspares : event.spares cfg.votesTable = true) :
    Safe cfg v ⟨q.handler, (q.store.step cfg.cache event).2⟩ := by
  obtain ⟨m, hm, hcov⟩ := h.covered
  refine ⟨⟨_, hm.step cfg.cache (archives_of_spares hspares), ?_⟩, h.held, h.writes⟩
  rw [get_mapAfter]
  · exact hcov
  · intro op hop htouches
    have htab := WriteOp.table_of_touches htouches
    obtain ⟨now, rfl | rfl⟩ := writes_move (move_step cfg.cache q.store event) hop
    · exact of_decide_eq_true hspares htab
    · exact of_decide_eq_true hspares htab

omit [Fintype τ] in
/-- The row that a task writes for the author of `v` is a later one. -/
theorem Safe.write (h : q.Safe cfg v) {now : Nat} (hfat : q.store.fatal = none)
    (hlock : q.store.lock = .shared 0)
    (hrnd : w.origin = v.origin → w.epoch = v.epoch ∧ v.round < w.round) :
    ∃ m, (writeVote cfg now q.store w).Represents m ∧
      v.coveredBy (cfg.codec.decodeRow (m cfg.votesTable)[v.origin]?) = true := by
  obtain ⟨m, ⟨U, hm⟩, hcov⟩ := h.covered
  have hissue : writeVote cfg now q.store w =
      q.store.issue (.insert cfg.votesTable w.origin (cfg.codec.encode w.info)) now := by
    unfold writeVote LayeredDatabase.write
    rw [hfat, hlock]
    rfl
  rw [hissue]
  refine ⟨_, ⟨_, hm.issue hfat _ now⟩, ?_⟩
  show v.coveredBy (cfg.codec.decodeRow
    (Function.update m cfg.votesTable _ cfg.votesTable)[v.origin]?) = true
  rw [Function.update_self, ExtTreeMap.getElem?_insert]
  split
  · next heq =>
    obtain ⟨hep, hlt⟩ := hrnd (compare_eq_iff_eq.mp heq)
    rw [Vote.coveredBy_iff]
    refine ⟨w.info, ?_, hep, .inl hlt⟩
    show (cfg.codec.decode (cfg.codec.encode w.info)).map some = _
    rw [cfg.codec.decode_encode]
    rfl
  · exact hcov

omit [LinearOrder τ] [Fintype τ] in
/-- A vote is written only to a store that has not failed. -/
theorem writes_of_withFailure {event : VoteEvent} {fatal : Option FatalError} {i : Nat}
    (h : event.withFailure (fatal.map poisonedError) = .write i none) :
    event.isWrite = true ∧ fatal = none := by
  cases event with
  | write j fail => exact ⟨rfl, Option.map_eq_none_iff.mp (VoteEvent.write.inj h).2⟩
  | _ => cases h

variable {event : VoteEvent} {r : List VoteEffect × VoteHandler}

section
variable (h : q.Safe cfg v)
include h

theorem Safe.stored : v.coveredBy (q.stored cfg v.origin) = true := by
  obtain ⟨m, hm, hcov⟩ := h.covered
  rw [stored_eq hm]
  exact hcov

section
variable (hstep : VoteHandler.Explained (q.stored cfg) q.handler event r)
include hstep

theorem Safe.later (hw : .wrote w ∈ r.1) (horig : w.origin = v.origin) :
    w.epoch = v.epoch ∧ v.round < w.round := by
  obtain ⟨task, htask, id, prev, hpc, rfl⟩ := hstep.of_wrote hw
  exact h.writes task htask id prev hpc horig

theorem Safe.agrees (hw : (∃ x ∈ r.1, x.vote? = some w) ∨ r.2.Holds w) : v.Agrees w := by
  intro horig hep hrnd
  rcases hstep.votes w hw with hheld | hwrote | hstd
  · exact h.held w hheld horig hep hrnd
  · exact absurd hrnd (h.later hstep hwrote horig.symm).2.ne
  · rw [← horig] at hstd
    exact agrees_of_covered h.stored hstd horig hep hrnd

theorem Safe.allows {task : VoteTask} (htask : task ∈ r.2.tasks) {id : Nat} {prev : Option VoteInfo}
    (hpc : task.pc = .write id prev) (horig : task.header.author = v.origin) :
    task.header.epoch = v.epoch ∧ v.round < task.header.round := by
  rcases hstep.writes task htask id prev hpc with hold | ⟨hstd, hallows⟩
  · exact h.writes task hold id prev hpc horig
  · rw [horig] at hstd
    obtain ⟨info, hinfo, hep, hrnd⟩ := Vote.coveredBy_iff.mp h.stored
    rw [hstd] at hinfo
    cases hinfo
    obtain ⟨hep', hrnd'⟩ := hallows info rfl
    refine ⟨hep'.trans hep, ?_⟩
    rcases hrnd with hlt | ⟨heq, -⟩
    · exact hlt.trans hrnd'
    · rw [heq]
      exact hrnd'

end

theorem Safe.vote (event : VoteEvent) (now : Nat) : (q.stepVote cfg event now).2.Safe cfg v ∧
      ∀ w, .answered (.vote w) ∈ (q.stepVote cfg event now).1 → v.Agrees w := by
  unfold stepVote
  dsimp only
  split
  · exact ⟨h, nofun⟩
  · next hfree =>
    have hstep := VoteHandler.explained_step cfg.vote (q.stored cfg) q.handler
      (event.withFailure (q.store.fatal.map poisonedError))
    refine ⟨⟨?_, fun w hw => h.agrees hstep (.inr hw),
      fun task htask id prev => h.allows hstep htask⟩,
      fun w hw => h.agrees hstep (.inl ⟨_, hw, rfl⟩)⟩
    rcases hstep.wrote with hnone | ⟨i, task, id, prev, hev, -, -, hfx⟩
    · rw [hnone]
      exact h.covered
    · obtain ⟨hwrite, hfat⟩ := writes_of_withFailure hev
      have hlock : q.store.lock = .shared 0 := by
        by_contra hlock
        exact hfree (.inr ⟨hwrite, hfat, hlock⟩)
      have hlat := h.later hstep (w := Vote.new task.header id)
      rw [hfx] at hlat ⊢
      exact h.write hfat hlock (hlat List.mem_cons_self)

theorem Safe.step {event : StoredEvent τ V} (hkp : keeps cfg v q event) :
    (q.step cfg event).2.Safe cfg v ∧
      ∀ w, .vote (.answered (.vote w)) ∈ (q.step cfg event).1 → v.Agrees w := by
  cases event with
  | vote event now =>
    obtain ⟨hsafe, hagrees⟩ := h.vote event now
    refine ⟨hsafe, fun w hw => ?_⟩
    obtain ⟨x, hx, heq⟩ := List.mem_map.mp hw
    cases heq
    exact hagrees w hx
  | store event =>
    refine ⟨h.store hkp, fun w hw => ?_⟩
    obtain ⟨x, -, heq⟩ := List.mem_map.mp hw
    cases heq
  | crash =>
    refine ⟨safe_start hkp, fun w hw => ?_⟩
    cases List.mem_singleton.mp hw

theorem Safe.run {evs : List (StoredEvent τ V)}
    (hkp : Reactor.Always (StoredPrimary.step cfg) (fun q event => keeps cfg v q event) q evs) :
    ∀ w, .vote (.answered (.vote w)) ∈ (q.run cfg evs).1 → v.Agrees w := by
  intro w hw
  refine Reactor.run_effects_of (I := fun q => q.Safe cfg v)
    (R := fun x => ∀ w, x = .vote (.answered (.vote w)) → v.Agrees w)
    (fun q event hsafe hkp => ?_) h hkp _ hw w rfl
  obtain ⟨hsafe', hnew⟩ := hsafe.step hkp
  exact ⟨hsafe', fun x hx w heq => hnew w (heq ▸ hx)⟩

end

/-- Any run before a crash and any run after it, with more crashes. -/
theorem vote_survives_crash (cfg : StoredConfig τ V) (db : Tables τ Nat V)
    (before after : List (StoredEvent τ V)) {v w : Vote}
    (_ : .vote (.answered (.vote v)) ∈ (run cfg (start db) before).1)
    (hkeeps : Reactor.Always (step cfg) (fun q event => keeps cfg v q event)
      (run cfg (start db) before).2 (.crash :: after))
    (hw : .vote (.answered (.vote w)) ∈ (run cfg (run cfg (start db) before).2 (.crash :: after)).1) :
    v.Agrees w := by
  rcases List.mem_cons.mp hw with hcrash | hw
  · cases hcrash
  · exact (safe_start hkeeps.1).run hkeeps.2 w hw

end StoredPrimary

end

/-! The two headers of one round, with a crash after the vote for the first. -/

namespace StoredPrimary

def votesOnly : StoredConfig Unit VoteInfo :=
  ⟨voter, ⟨1⟩, (), ⟨id, .ok, fun _ => rfl⟩⟩

def asks (digest : Nat) : List (StoredEvent Unit VoteInfo) :=
  let request := VoteEvent.request 1 (proposal digest) [] 0
  let events := validated 0 ++ [.read 0] ++ given 0
  (request :: events).map fun event => .vote event 0

theorem vote_survives_crash_drained :
    let before := asks 7 ++ [.store (.recv none), .store .settle, .store .evict]
    let r := run votesOnly (start fun _ => ∅) before
    .vote (.answered (.vote ⟨7, 1, 0, 1, 2⟩)) ∈ r.1 ∧
      ∀ w, .vote (.answered (.vote w)) ∈ (run votesOnly r.2 (.crash :: asks 8)).1 →
        w.origin = 1 → w.epoch = 0 → w.round = 1 → w.headerDigest = 7 := by
  intro before r
  have hgiven : .vote (.answered (.vote ⟨7, 1, 0, 1, 2⟩)) ∈ r.1 := by decide +kernel
  refine ⟨hgiven, fun w hw horigin hepoch hround => Eq.symm ?_⟩
  exact vote_survives_crash votesOnly (fun _ => ∅) before (asks 8) hgiven (by decide +kernel) hw
    horigin.symm hepoch.symm hround.symm

/-- The vote is answered while the insert is still in the queue. -/
theorem crash_forgets_vote :
    let r := run votesOnly (start fun _ => ∅) (asks 7)
    .vote (.answered (.vote ⟨7, 1, 0, 1, 2⟩)) ∈ r.1 ∧
      .vote (.answered (.vote ⟨8, 1, 0, 1, 2⟩)) ∈ (run votesOnly r.2 (.crash :: asks 8)).1 := by
  decide +kernel

end StoredPrimary

end Axyl
