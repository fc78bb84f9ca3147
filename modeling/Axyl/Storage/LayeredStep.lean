import Axyl.Storage.LayeredDb

/-! Everything that a step of the layered store can do. -/

namespace Axyl
open LayeredDatabase

/-- Whether the writer has a transaction open after the message; `none` if the marker is out of
place. -/
def DBMessage.mark {τ K V : Type} (isOpen : Bool) : DBMessage τ K V → Option Bool
  | .startTxn => if isOpen then none else some true
  | .commitTxn => if isOpen then some false else none
  | .apply _ => some isOpen
  | .caughtUp _ => some isOpen

namespace LayeredDatabase

section
variable {τ K V : Type} [LinearOrder τ] [LinearOrder K]

/-- What a message comes to. One that fails, by itself or since it is out of place, leaves the rows,
but it may end the transaction. -/
inductive Processed (s : LayeredDatabase τ K V) (fail : Option String) :
    DBMessage τ K V → LayeredResult τ K V → Prop
  | failed (msg : DBMessage τ K V) (txn : Option (Tables τ K V)) (ops : List (DeferredOp τ K V))
      (e : FatalError) (hfail : fail = none → msg.mark s.txn.isSome = none) :
    Processed s fail msg ([], { s with txn, committedOps := ops }.trip e)
  | opened (htxn : s.txn = none) : Processed s fail .startTxn ([], { s with txn := some s.db })
  | committed (rows : Tables τ K V) (htxn : s.txn = some rows) :
    Processed s fail .commitTxn ([], { s with
      db := rows, txn := none, committedOps := []
      writer := if s.committedOps.isEmpty then .evict none else .settle s.committedOps })
  | joined (op : DeferredOp τ K V) (rows : Tables τ K V) (htxn : s.txn = some rows) :
    Processed s fail (.apply op) ([],
      { s with txn := some (op.applyTxn rows), committedOps := s.committedOps ++ [op] })
  | applied (op : DeferredOp τ K V) (htxn : s.txn = none) :
    Processed s fail (.apply op)
      ([], { s with db := op.applyDirect s.memDb s.db, writer := .settle [op] })
  | answered (id : Nat) : Processed s fail (.caughtUp id) ([.persisted id none], s)
  | awaited (id : Nat) : Processed s fail (.caughtUp id) ([], { s with writer := .evict (some id) })

theorem processed_process (s : LayeredDatabase τ K V) (msg : DBMessage τ K V)
    (fail : Option String) : Processed s fail msg (s.process msg fail) := by
  cases msg with
  | startTxn =>
    unfold process startTxn
    dsimp only
    split
    · next htxn => exact .failed _ none [] _ fun _ => if_pos htxn
    · next htxn =>
      cases fail with
      | none => exact .opened (Option.not_isSome_iff_eq_none.mp htxn)
      | some e => exact .failed _ s.txn s.committedOps _ nofun
  | commitTxn =>
    unfold process commitTxn
    dsimp only
    split
    · next htxn =>
      refine .failed _ s.txn s.committedOps _ fun _ => ?_
      rw [htxn]
      rfl
    · next rows htxn => exact .committed rows htxn
    · exact .failed _ none [] _ nofun
  | apply op =>
    unfold process applyOp
    dsimp only
    split
    · exact .failed _ s.txn s.committedOps _ nofun
    · next rows htxn => exact .joined op rows htxn
    · next htxn => exact .applied op htxn
  | caughtUp id =>
    unfold process
    dsimp only
    split
    · exact .answered id
    · exact .awaited id

theorem frame_process (s : LayeredDatabase τ K V) (msg : DBMessage τ K V) (fail : Option String) :
    (s.process msg fail).2.memDb = s.memDb ∧ (s.process msg fail).2.lock = s.lock ∧
      (s.process msg fail).2.queue = s.queue ∧ (s.process msg fail).2.aborted = s.aborted := by
  have h := processed_process s msg fail
  generalize s.process msg fail = r at h
  cases h <;> exact ⟨rfl, rfl, rfl, rfl⟩

variable [Fintype τ]

theorem step_of_alive {s : LayeredDatabase τ K V} (h : s.aborted = false) (cfg : CacheConfig)
    (e : LayeredEvent τ K V) : s.step cfg e = s.handle cfg e := by
  unfold step
  rw [h]
  rfl

/-- The effects and the next state of an event. An event that is blocked or comes after an abort
leaves no trace, and a failed store refuses what producers ask for. -/
inductive Move (cfg : CacheConfig) (s : LayeredDatabase τ K V) :
    LayeredEvent τ K V → LayeredResult τ K V → Prop
  | blocked (e : LayeredEvent τ K V) : Move cfg s e ([], s)
  | refused (e : LayeredEvent τ K V) (err : FatalError) (hfatal : s.fatal = some err) :
    Move cfg s e ([.refused err], s)
  | written (op : WriteOp τ K V) (now : Nat) (hfatal : s.fatal = none) (hlock : s.lock = .shared 0) :
    Move cfg s (.write op now) ([.wrote op], s.issue op now)
  | started (hfatal : s.fatal = none) (hlock : s.lock = .shared 0) :
    Move cfg s .writeTxn ([], { s with lock := .exclusive }.send .startTxn)
  | txnWritten (op : WriteOp τ K V) (now : Nat) (hfatal : s.fatal = none)
      (hlock : s.lock = .exclusive) :
    Move cfg s (.txnWrite op now) ([.wrote op], s.issue op now)
  | archivedNone (t : τ) (keys : List K) (hfatal : s.fatal = none) (hlock : s.lock = .exclusive) :
    Move cfg s (.evictPersistentBatch t keys) ([.evicted t keys], s)
  | archived (t : τ) (keys : List K) (hfatal : s.fatal = none) (hlock : s.lock = .exclusive) :
    Move cfg s (.evictPersistentBatch t keys) ([.evicted t keys],
      { s with memDb := keys.foldl (fun memDb k => memDb.hardDelete t k) s.memDb }.send
        (.apply (.remove t keys)))
  | abandoned (err : FatalError) (hfatal : s.fatal = some err) (hlock : s.lock = .exclusive) :
    Move cfg s .commit ([.refused err], { s with lock := .shared 0 })
  | committed (hfatal : s.fatal = none) (hlock : s.lock = .exclusive) :
    Move cfg s .commit ([.committed], { s with lock := .shared 0 }.send .commitTxn)
  | dropped (hlock : s.lock = .exclusive) :
    Move cfg s .dropTxn ([], { s with lock := .shared 0 })
  | rejected (id : Nat) (err : FatalError) (hfatal : s.fatal = some err) :
    Move cfg s (.persist id) ([.persisted id (some err)], s)
  | barrier (id : Nat) (hfatal : s.fatal = none) :
    Move cfg s (.persist id) ([], s.send (.caughtUp id))
  | readBegun (readers : Nat) (hlock : s.lock = .shared readers) :
    Move cfg s .readTxn ([], { s with lock := .shared (readers + 1) })
  | readEnded (readers : Nat) (hlock : s.lock = .shared readers) :
    Move cfg s .endRead ([], { s with lock := .shared (readers - 1) })
  | touched (t : τ) (k : K) (now : Nat) (hlock : s.lock ≠ .exclusive) :
    Move cfg s (.touch t k now) ([], { s with memDb := s.memDb.touchRow t k now })
  | discarded (failure : Option String) (msg : DBMessage τ K V) (queue : List (DBMessage τ K V))
      (e : FatalError) (hwriter : s.writer = .recv) (hqueue : s.queue = msg :: queue)
      (hfatal : s.fatal = some e) :
    Move cfg s (.recv failure) (discard msg e, { s with queue })
  | processed (failure : Option String) (msg : DBMessage τ K V) (queue : List (DBMessage τ K V))
      (hwriter : s.writer = .recv) (hqueue : s.queue = msg :: queue) (hfatal : s.fatal = none)
      (hlock : s.waitsForLock msg = false) :
    Move cfg s (.recv failure) (process { s with queue } msg failure)
  | settled (op : DeferredOp τ K V) (ops : List (DeferredOp τ K V)) (evictionHeap : EvictionHeap τ K)
      (memDb : StoreType τ K V) (hwriter : s.writer = .settle (op :: ops))
      (happlied : op.onApplied s.memDb s.evictionHeap = some (evictionHeap, memDb)) :
    Move cfg s .settle ([], { s with
      evictionHeap, memDb, writer := if ops.isEmpty then .evict none else .settle ops })
  | aborted (op : DeferredOp τ K V) (ops : List (DeferredOp τ K V))
      (hwriter : s.writer = .settle (op :: ops))
      (hnone : op.onApplied s.memDb s.evictionHeap = none) :
    Move cfg s .settle ([], { s with aborted := true })
  | evicted (reply : Option Nat) (hwriter : s.writer = .evict reply)
      (hlock : s.evictionHeap.length < cfg.maxSize >>> 1 ∨ s.lock = .shared 0) :
    Move cfg s .evict (reply.toList.map fun id => .persisted id none, { s with
      evictionHeap := (s.memDb.evictIfNeeded s.evictionHeap cfg.maxSize).1
      memDb := (s.memDb.evictIfNeeded s.evictionHeap cfg.maxSize).2
      writer := .recv })

theorem move_step (cfg : CacheConfig) (s : LayeredDatabase τ K V) (e : LayeredEvent τ K V) :
    Move cfg s e (s.step cfg e) := by
  unfold step
  split
  · exact .blocked e
  cases e <;> dsimp only [handle, write, writeTxn, txnWrite, evictPersistentBatch, commit, dropTxn,
    persist, readTxn, endRead, touch, recv, settle, evict]
  case write op now =>
    split
    · next err hfat => exact .refused _ err hfat
    · next hfat =>
      split
      · next hlock => exact .written op now hfat hlock
      · exact .blocked _
  case writeTxn =>
    split
    · next err hfat => exact .refused _ err hfat
    · next hfat =>
      split
      · next hlock => exact .started hfat hlock
      · exact .blocked _
  case txnWrite op now =>
    split
    · next hlock =>
      split
      · next err hfat => exact .refused _ err hfat
      · next hfat => exact .txnWritten op now hfat hlock
    · exact .blocked _
  case evictPersistentBatch t keys =>
    split
    · next hlock =>
      split
      · next err hfat => exact .refused _ err hfat
      · next hfat =>
        split
        · exact .archivedNone t keys hfat hlock
        · exact .archived t keys hfat hlock
    · exact .blocked _
  case commit =>
    split
    · next hlock =>
      split
      · next err hfat => exact .abandoned err hfat hlock
      · next hfat => exact .committed hfat hlock
    · exact .blocked _
  case dropTxn =>
    split
    · next hlock => exact .dropped hlock
    · exact .blocked _
  case persist id =>
    split
    · next err hfat => exact .rejected id err hfat
    · next hfat => exact .barrier id hfat
  case readTxn =>
    split
    · next readers hlock => exact .readBegun readers hlock
    · exact .blocked _
  case endRead =>
    split
    · next readers hlock => exact .readEnded readers hlock
    · exact .blocked _
  case touch t k now =>
    split
    · exact .blocked _
    · next hlock => exact .touched t k now hlock
  case recv fail =>
    split
    · next msg que hwr hque =>
      split
      · next e hfat => exact .discarded fail msg que e hwr hque hfat
      · next hfat =>
        split
        · exact .blocked _
        · next hlock =>
          exact .processed fail msg que hwr hque hfat (Bool.eq_false_iff.mpr hlock)
    · exact .blocked _
  case settle =>
    split
    · next op ops hwr =>
      split
      · split
        · next hnone => exact .aborted op ops hwr hnone
        · next heap memDb happlied => exact .settled op ops heap memDb hwr happlied
      · exact .blocked _
    · exact .blocked _
  case evict =>
    split
    · next reply hwr =>
      split
      · next hlock => exact .evicted reply hwr hlock
      · exact .blocked _
    · exact .blocked _

end

end LayeredDatabase

end Axyl
