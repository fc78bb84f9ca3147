import Axyl.Lib.MergeJoin
import Axyl.Storage.LayeredDb

/-! Reads of the layered store, through a read transaction and directly. A direct read takes the
lock of the memory tier once for every question it asks, and other threads can run in between. -/

namespace Axyl
open Std (ExtTreeMap)
open OrderedKeys
open MergeJoin

section
variable {τ K V : Type} [LinearOrder τ] [LinearOrder K]

/-! Cursors over a table of the persistent tier. -/
namespace Mdbx

def skipTo (rows : ExtTreeMap K V) (k : K) : List (K × V) :=
  rows.toList.dropWhile fun row => row.1 < k

def lastRecord (rows : ExtTreeMap K V) : Option (K × V) := rows.toList.getLast?

def recordPriorTo (rows : ExtTreeMap K V) (k : K) : Option (K × V) :=
  match rows.toList.find? fun row => k ≤ row.1 with
  | some _ => (rows.toList.takeWhile fun row => row.1 < k).getLast?
  | none => rows.toList.getLast?

end Mdbx

def reversed (a b : K) : Ordering := compare b a

instance : Std.TransCmp (reversed (K := K)) :=
  inferInstanceAs (Std.TransCmp fun a b : K => compare b a)

instance : Std.LawfulEqCmp (reversed (K := K)) :=
  inferInstanceAs (Std.LawfulEqCmp fun a b : K => compare b a)

/-- A read transaction: the memory tier, which cannot change while its lock is held, and a
snapshot of the persistent tier. -/
structure LayeredDbTx (τ K V : Type) [Ord K] where
  memDb : StoreType τ K V
  db : Tables τ K V

namespace LayeredDbTx

variable (tx : LayeredDbTx τ K V) (t : τ)

def dbRows : ExtTreeMap K V := if tx.memDb.isClearing t then ∅ else tx.db t

def get (k : K) : Except String (Option V) :=
  if tx.memDb.isTombstoned t k then .ok none
  else
    match tx.memDb.getNoMarkedCheck t k with
    | .error e => .error e
    | .ok (some (_, v)) => .ok (some v)
    | .ok none => .ok (if tx.memDb.isClearing t then none else (tx.db t)[k]?)

def containsKey (k : K) : Except String Bool := (tx.get t k).map Option.isSome

def iter : List (K × V) :=
  mergeJoin compare (fun _ k => tx.memDb.isTombstoned t k) 0 (tx.dbRows t).toList (tx.memDb.iter t)

def skipTo (k : K) : List (K × V) :=
  mergeJoin compare (fun _ k => tx.memDb.isTombstoned t k) 0 (Mdbx.skipTo (tx.dbRows t) k)
    (tx.memDb.skipTo t k)

def reverseIter : List (K × V) :=
  mergeJoin reversed (fun _ k => tx.memDb.isTombstoned t k) 0 (tx.dbRows t).toList.reverse
    (tx.memDb.reverseIter t)

def lastBelow (below : Option K) : Option (K × V) :=
  let rows := tx.dbRows t
  let dbFirst := match below with
    | some k => (Mdbx.recordPriorTo rows k).filter fun p => p.1 < k
    | none => Mdbx.lastRecord rows
  let memFirst := match below with
    | some k => (tx.memDb.recordPriorTo t k).filter fun p => p.1 < k
    | none => tx.memDb.lastRecord t
  (mergeJoin reversed (fun _ k => tx.memDb.isTombstoned t k) 0
    (stepBack compare (Mdbx.recordPriorTo rows) rows.size dbFirst)
    (stepBack compare (tx.memDb.recordPriorTo t) (tx.memDb t).rows.size memFirst)).head?

def lastRecord : Option (K × V) := tx.lastBelow t none

def recordPriorTo (k : K) : Option (K × V) := tx.lastBelow t (some k)

end LayeredDbTx

namespace LayeredDatabase

variable [Fintype τ] (cfg : CacheConfig) (s : LayeredDatabase τ K V)

def after (events : List (LayeredEvent τ K V)) : LayeredDatabase τ K V := (s.run cfg events).2

/-- `read_txn`: the lock of the memory tier is taken, and the snapshot of the persistent tier
after what other threads do meanwhile. -/
def beginRead (w : List (LayeredEvent τ K V)) : LayeredDbTx τ K V :=
  let s := s.readTxn.after cfg w
  ⟨s.memDb, s.db⟩

variable (t : τ) (w₁ w₂ : List (LayeredEvent τ K V))

def get (k : K) (w₁ w₂ w₃ : List (LayeredEvent τ K V)) : Except String (Option V) :=
  if s.memDb.isTombstoned t k then .ok none
  else
    let s₁ := s.after cfg w₁
    match s₁.memDb.getNoMarkedCheck t k with
    | .error e => .error e
    | .ok (some (_, v)) => .ok (some v)
    | .ok none =>
      let s₂ := s₁.after cfg w₂
      .ok (if s₂.memDb.isClearing t then none else ((s₂.after cfg w₃).db t)[k]?)

def containsKey (k : K) (w₁ w₂ w₃ : List (LayeredEvent τ K V)) : Bool :=
  if s.memDb.isTombstoned t k then false
  else
    let s₁ := s.after cfg w₁
    if s₁.memDb.containsKey t k then true
    else
      let s₂ := s₁.after cfg w₂
      if s₂.memDb.isClearing t then false else ((s₂.after cfg w₃).db t).contains k

/-- The direct scans: the snapshot of the persistent tier comes first, then the copy of the live
rows. The tombstones are looked up while the caller pulls the rows; the lists `ws` are what
happens before each of these lookups. -/
def scan (cmp : K → K → Ordering) (dbScan : ExtTreeMap K V → List (K × V))
    (memScan : StoreType τ K V → List (K × V)) (ws : List (List (LayeredEvent τ K V))) :
    List (K × V) :=
  let s₁ := s.after cfg w₁
  let s₂ := s₁.after cfg w₂
  mergeJoin cmp (fun i k => (s₂.after cfg (ws.take (i + 1)).flatten).memDb.isTombstoned t k) 0
    (if s.memDb.isClearing t then [] else dbScan (s₁.db t)) (memScan s₂.memDb)

def iter (ws : List (List (LayeredEvent τ K V))) : List (K × V) :=
  s.scan cfg t w₁ w₂ compare (fun rows => rows.toList) (fun memDb => memDb.iter t) ws

def skipTo (k : K) (ws : List (List (LayeredEvent τ K V))) : List (K × V) :=
  s.scan cfg t w₁ w₂ compare (fun rows => Mdbx.skipTo rows k) (fun memDb => memDb.skipTo t k) ws

def reverseIter (ws : List (List (LayeredEvent τ K V))) : List (K × V) :=
  s.scan cfg t w₁ w₂ reversed (fun rows => rows.toList.reverse)
    (fun memDb => memDb.reverseIter t) ws

def lastRecord (w : List (LayeredEvent τ K V)) : Option (K × V) :=
  (s.beginRead cfg w).lastRecord t

def recordPriorTo (k : K) (w : List (LayeredEvent τ K V)) : Option (K × V) :=
  (s.beginRead cfg w).recordPriorTo t k

end LayeredDatabase

end

end Axyl
