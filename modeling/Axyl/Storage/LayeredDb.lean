import Axyl.Lib.Reactor
import Axyl.Storage.MemDb

/-! The layered store: producers change the memory tier and queue a message for the writer thread,
which applies it to the persistent tier, settles the rows and evicts. An event is one critical
section of one thread; an event of a thread that has to wait leaves the state as it is. -/

namespace Axyl
open Function
open Std (ExtTreeMap)
open OrderedKeys

abbrev Tables (τ K V : Type) [Ord K] := τ → ExtTreeMap K V

inductive WriteOp (τ K V : Type) where
  | insert (table : τ) (key : K) (value : V)
  | remove (table : τ) (key : K)
  | clear (table : τ)
deriving Repr, DecidableEq

/-- `KeyValueInsert`, `KeyRemove` or `KeyRemoveBatch`, and `ClearTable`. -/
inductive DeferredOp (τ K V : Type) where
  | insert (table : τ) (key : K) (value : V)
  | remove (table : τ) (keys : List K)
  | clear (table : τ) (keys : List K)
deriving Repr, DecidableEq

inductive DBMessage (τ K V : Type) where
  | startTxn
  | commitTxn
  | apply (op : DeferredOp τ K V)
  | caughtUp (id : Nat)
deriving Repr, DecidableEq

/-- Why the writer stopped; `e` is the text of the error of the persistent tier. -/
inductive FatalError where
  | startTxnWhileOpen
  | commitWithoutTxn
  | writeTxn (e : String)
  | commit (e : String)
  | insert (e : String)
  | remove (e : String)
  | clear (e : String)
deriving Repr, DecidableEq

/-- The lock of the memory tier, held by readers or by one write transaction. -/
inductive MemLock where
  | shared (readers : Nat)
  | exclusive
deriving Repr, DecidableEq

/-- Where the writer thread is: before the next message, releasing the operations that were
applied, or before an eviction pass after which it may owe the answer to a barrier. -/
inductive WriterPc (τ K V : Type) where
  | recv
  | settle (ops : List (DeferredOp τ K V))
  | evict (reply : Option Nat)
deriving Repr, DecidableEq

structure CacheConfig where
  maxSize : Nat

structure LayeredDatabase (τ K V : Type) [Ord K] where
  memDb : StoreType τ K V
  lock : MemLock
  queue : List (DBMessage τ K V)
  fatal : Option FatalError
  db : Tables τ K V
  /-- The rows as the open write transaction of the writer sees them. -/
  txn : Option (Tables τ K V)
  committedOps : List (DeferredOp τ K V)
  evictionHeap : EvictionHeap τ K
  writer : WriterPc τ K V
  /-- The process has aborted: nothing runs any more. -/
  aborted : Bool

inductive LayeredEvent (τ K V : Type) where
  | write (op : WriteOp τ K V) (now : Nat)
  | writeTxn
  | txnWrite (op : WriteOp τ K V) (now : Nat)
  | evictPersistentBatch (table : τ) (keys : List K)
  | commit
  | dropTxn
  | persist (id : Nat)
  | readTxn
  | endRead
  /-- A read of a live row refreshes its clock. -/
  | touch (table : τ) (key : K) (now : Nat)
  /-- The writer takes a message; `failure` is the error of the persistent tier, if it fails. -/
  | recv (failure : Option String)
  | settle
  | evict
deriving Repr, DecidableEq

/-- What the callers are told. `persisted id none` is a barrier that returns `Ok`. -/
inductive LayeredEffect (τ K V : Type) where
  | wrote (op : WriteOp τ K V)
  | evicted (table : τ) (keys : List K)
  | committed
  | refused (e : FatalError)
  | persisted (id : Nat) (failure : Option FatalError)
deriving Repr, DecidableEq

abbrev LayeredResult (τ K V : Type) [Ord K] :=
  List (LayeredEffect τ K V) × LayeredDatabase τ K V

section
variable {τ K V : Type} [LinearOrder τ] [LinearOrder K]

namespace WriteOp

def table : WriteOp τ K V → τ
  | .insert t _ _ => t
  | .remove t _ => t
  | .clear t => t

def applyTo (m : Tables τ K V) : WriteOp τ K V → Tables τ K V
  | .insert t k v => update m t ((m t).insert k v)
  | .remove t k => update m t ((m t).erase k)
  | .clear t => update m t ∅

end WriteOp

namespace DeferredOp

def applyTxn (m : Tables τ K V) : DeferredOp τ K V → Tables τ K V
  | .insert t k v => update m t ((m t).insert k v)
  | .remove t keys => update m t (keys.foldl ExtTreeMap.erase (m t))
  | .clear t _ => update m t ∅

def applyDirect (memDb : StoreType τ K V) (m : Tables τ K V) :
    DeferredOp τ K V → Tables τ K V
  | .insert t k v => applyTxn m (.insert t k v)
  | .remove t keys => applyTxn m (.remove t (keys.filter fun k => !memDb.containsKey t k))
  | .clear t keys => applyTxn m (.clear t keys)

def onApplied (memDb : StoreType τ K V) (heap : EvictionHeap τ K) :
    DeferredOp τ K V → Option (EvictionHeap τ K × StoreType τ K V)
  | .insert t k _ => memDb.onOpApplied heap t k
  | .remove t keys => memDb.onKeysApplied heap t keys
  | .clear t keys => memDb.onClearApplied heap t keys

def failed (e : String) : DeferredOp τ K V → FatalError
  | .insert .. => .insert e
  | .remove .. => .remove e
  | .clear .. => .clear e

def isRemove : DeferredOp τ K V → Bool
  | .remove .. => true
  | _ => false

end DeferredOp

namespace LayeredDatabase

variable (s : LayeredDatabase τ K V)

def openWith (db : Tables τ K V) : LayeredDatabase τ K V where
  memDb := fun _ => ⟨∅, false⟩
  lock := .shared 0
  queue := []
  fatal := none
  db := db
  txn := none
  committedOps := []
  evictionHeap := []
  writer := .recv
  aborted := false

def send (msg : DBMessage τ K V) : LayeredDatabase τ K V := { s with queue := s.queue ++ [msg] }

def issue (op : WriteOp τ K V) (now : Nat) : LayeredDatabase τ K V :=
  match op with
  | .insert t k v => { s with memDb := s.memDb.insertImpl t k v now }.send (.apply (.insert t k v))
  | .remove t k => { s with memDb := s.memDb.removeImpl t k now }.send (.apply (.remove t [k]))
  | .clear t =>
    { s with memDb := (s.memDb.clearTableImpl t).2 }.send
      (.apply (.clear t (s.memDb.clearTableImpl t).1))

def write (op : WriteOp τ K V) (now : Nat) : LayeredResult τ K V :=
  match s.fatal with
  | some e => ([.refused e], s)
  | none => if s.lock = .shared 0 then ([.wrote op], s.issue op now) else ([], s)

def writeTxn : LayeredResult τ K V :=
  match s.fatal with
  | some e => ([.refused e], s)
  | none =>
    if s.lock = .shared 0 then ([], { s with lock := .exclusive }.send .startTxn) else ([], s)

def txnWrite (op : WriteOp τ K V) (now : Nat) : LayeredResult τ K V :=
  if s.lock = .exclusive then
    match s.fatal with
    | some e => ([.refused e], s)
    | none => ([.wrote op], s.issue op now)
  else ([], s)

def evictPersistentBatch (t : τ) (keys : List K) : LayeredResult τ K V :=
  if s.lock = .exclusive then
    match s.fatal with
    | some e => ([.refused e], s)
    | none =>
      if keys.isEmpty then ([.evicted t keys], s)
      else
        ([.evicted t keys],
          { s with memDb := keys.foldl (fun memDb k => memDb.hardDelete t k) s.memDb }.send
            (.apply (.remove t keys)))
  else ([], s)

def commit : LayeredResult τ K V :=
  if s.lock = .exclusive then
    match s.fatal with
    | some e => ([.refused e], { s with lock := .shared 0 })
    | none => ([.committed], { s with lock := .shared 0 }.send .commitTxn)
  else ([], s)

def dropTxn : LayeredDatabase τ K V :=
  if s.lock = .exclusive then { s with lock := .shared 0 } else s

def persist (id : Nat) : LayeredResult τ K V :=
  match s.fatal with
  | some e => ([.persisted id (some e)], s)
  | none => ([], s.send (.caughtUp id))

def readTxn : LayeredDatabase τ K V :=
  match s.lock with
  | .shared readers => { s with lock := .shared (readers + 1) }
  | .exclusive => s

def endRead : LayeredDatabase τ K V :=
  match s.lock with
  | .shared readers => { s with lock := .shared (readers - 1) }
  | .exclusive => s

def touch (t : τ) (k : K) (now : Nat) : LayeredDatabase τ K V :=
  if s.lock = .exclusive then s else { s with memDb := s.memDb.touchRow t k now }

def trip (e : FatalError) : LayeredDatabase τ K V := { s with fatal := s.fatal.or (some e) }

def startTxn (failure : Option String) : LayeredDatabase τ K V :=
  if s.txn.isSome then { s with txn := none, committedOps := [] }.trip .startTxnWhileOpen
  else
    match failure with
    | none => { s with txn := some s.db }
    | some e => s.trip (.writeTxn e)

def commitTxn (failure : Option String) : LayeredDatabase τ K V :=
  match s.txn, failure with
  | none, _ => s.trip .commitWithoutTxn
  | some rows, none =>
    { s with
      db := rows, txn := none, committedOps := []
      writer := if s.committedOps.isEmpty then .evict none else .settle s.committedOps }
  | some _, some e => { s with txn := none, committedOps := [] }.trip (.commit e)

def applyOp (op : DeferredOp τ K V) (failure : Option String) : LayeredDatabase τ K V :=
  match s.txn, failure with
  | _, some e => s.trip (op.failed e)
  | some rows, none =>
    { s with txn := some (op.applyTxn rows), committedOps := s.committedOps ++ [op] }
  | none, none => { s with db := op.applyDirect s.memDb s.db, writer := .settle [op] }

def waitsForLock : DBMessage τ K V → Bool
  | .apply op => op.isRemove && s.txn.isNone && decide (s.lock = .exclusive)
  | _ => false

def process (msg : DBMessage τ K V) (failure : Option String) : LayeredResult τ K V :=
  match msg with
  | .startTxn => ([], s.startTxn failure)
  | .commitTxn => ([], s.commitTxn failure)
  | .apply op => ([], s.applyOp op failure)
  | .caughtUp id =>
    if s.txn.isSome then ([.persisted id none], s)
    else ([], { s with writer := .evict (some id) })

def discard (msg : DBMessage τ K V) (e : FatalError) : List (LayeredEffect τ K V) :=
  match msg with
  | .caughtUp id => [.persisted id (some e)]
  | _ => []

def recv (failure : Option String) : LayeredResult τ K V :=
  match s.writer, s.queue with
  | .recv, msg :: queue =>
    match s.fatal with
    | some e => (discard msg e, { s with queue })
    | none => if s.waitsForLock msg then ([], s) else process { s with queue } msg failure
  | _, _ => ([], s)

def settle : LayeredDatabase τ K V :=
  match s.writer with
  | .settle (op :: ops) =>
    if s.lock = .shared 0 then
      match op.onApplied s.memDb s.evictionHeap with
      | none => { s with aborted := true }
      | some (evictionHeap, memDb) =>
        { s with
          evictionHeap, memDb, writer := if ops.isEmpty then .evict none else .settle ops }
    else s
  | _ => s

def evict [Fintype τ] (cfg : CacheConfig) : LayeredResult τ K V :=
  match s.writer with
  | .evict reply =>
    if s.evictionHeap.length < cfg.maxSize >>> 1 ∨ s.lock = .shared 0 then
      (reply.toList.map fun id => .persisted id none,
        { s with
          evictionHeap := (s.memDb.evictIfNeeded s.evictionHeap cfg.maxSize).1
          memDb := (s.memDb.evictIfNeeded s.evictionHeap cfg.maxSize).2
          writer := .recv })
    else ([], s)
  | _ => ([], s)

def handle [Fintype τ] (cfg : CacheConfig) :
    LayeredEvent τ K V → LayeredResult τ K V
  | .write op now => s.write op now
  | .writeTxn => s.writeTxn
  | .txnWrite op now => s.txnWrite op now
  | .evictPersistentBatch t keys => s.evictPersistentBatch t keys
  | .commit => s.commit
  | .dropTxn => ([], s.dropTxn)
  | .persist id => s.persist id
  | .readTxn => ([], s.readTxn)
  | .endRead => ([], s.endRead)
  | .touch t k now => ([], s.touch t k now)
  | .recv failure => s.recv failure
  | .settle => ([], s.settle)
  | .evict => s.evict cfg

def step [Fintype τ] (cfg : CacheConfig) (e : LayeredEvent τ K V) : LayeredResult τ K V :=
  if s.aborted then ([], s) else s.handle cfg e

def run [Fintype τ] (cfg : CacheConfig) (s : LayeredDatabase τ K V)
    (events : List (LayeredEvent τ K V)) : LayeredResult τ K V :=
  Reactor.run (fun s e => step s cfg e) s events

end LayeredDatabase

end

end Axyl
