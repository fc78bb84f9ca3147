import Mathlib.Algebra.BigOperators.Group.Finset.Basic
import Mathlib.Data.List.Sort
import Mathlib.Data.Prod.Lex
import Mathlib.Order.Compare
import Std.Data.ExtTreeMap

/-! The memory tier of the layered store: rows with a tombstone flag, a count of the operations
that are in flight for them and a clock for eviction. Tables have the type `τ`, and keys are
compared as their encodings are. -/

namespace Axyl
open Function
open Std (ExtTreeMap)

namespace OrderedKeys

scoped instance transCmp {K : Type} [LinearOrder K] :
    Std.TransCmp (compare : K → K → Ordering) := inferInstance

end OrderedKeys

open OrderedKeys

def tombstoneBit : Nat := 1

def inFlightUnit : Nat := 1 <<< tombstoneBit

def recencyBumpThreshold : Nat := 100000000

/-- A cached row. The value `none` stands for the empty bytes of a key that was removed without
ever having been cached; they do not decode. -/
structure StoreEntry (V : Type) where
  value : Option V
  packed : Nat
  lastUsed : Nat
deriving Repr, DecidableEq

namespace StoreEntry

variable {V : Type} (e : StoreEntry V)

def new (value : Option V) (now : Nat) : StoreEntry V := ⟨value, 0, now⟩

def tombstoned : Bool := e.packed &&& tombstoneBit != 0

def inFlight : Nat := e.packed >>> tombstoneBit

def markTombstone : StoreEntry V := { e with packed := e.packed ||| tombstoneBit }

def clearTombstone : StoreEntry V :=
  { e with packed := e.packed >>> tombstoneBit <<< tombstoneBit }

def addInFlight : StoreEntry V := { e with packed := e.packed + inFlightUnit }

/-- A count that would go below zero aborts the process. -/
def decInFlight : Option (StoreEntry V) :=
  if e.packed < inFlightUnit then none else some { e with packed := e.packed - inFlightUnit }

def touchApproximately (now : Nat) : StoreEntry V :=
  if recencyBumpThreshold ≤ now - e.lastUsed then { e with lastUsed := now } else e

def touch (now : Nat) : StoreEntry V := { e with lastUsed := now }

def live : Option V := if e.tombstoned then none else e.value

theorem tombstoned_eq : e.tombstoned = decide (e.packed % 2 = 1) := by
  unfold tombstoned tombstoneBit
  rcases Nat.mod_two_eq_zero_or_one e.packed with h | h <;> simp [h]

theorem inFlight_eq : e.inFlight = e.packed / 2 := by
  unfold inFlight tombstoneBit
  rw [Nat.shiftRight_one]

@[simp] theorem tombstoned_new (v : Option V) (now : Nat) : (new v now).tombstoned = false := by
  rw [tombstoned_eq]
  rfl

@[simp] theorem inFlight_new (v : Option V) (now : Nat) : (new v now).inFlight = 0 := by
  exact Nat.zero_div 2

@[simp] theorem tombstoned_markTombstone : e.markTombstone.tombstoned = true := by
  rw [tombstoned_eq, decide_eq_true_eq]
  exact Nat.or_mod_two_eq_one.mpr (.inr rfl)

@[simp] theorem inFlight_markTombstone : e.markTombstone.inFlight = e.inFlight := by
  show (e.packed ||| 1) / 2 = e.packed / 2
  rw [Nat.or_div_two]
  exact Nat.or_zero _

@[simp] theorem tombstoned_clearTombstone : e.clearTombstone.tombstoned = false := by
  rw [tombstoned_eq, decide_eq_false_iff_not]
  show ¬ (e.packed >>> 1 <<< 1) % 2 = 1
  omega

@[simp] theorem inFlight_clearTombstone : e.clearTombstone.inFlight = e.inFlight := by
  show (e.packed >>> 1 <<< 1) / 2 = e.packed / 2
  omega

@[simp] theorem tombstoned_addInFlight : e.addInFlight.tombstoned = e.tombstoned := by
  rw [tombstoned_eq, tombstoned_eq]
  show decide ((e.packed + 2) % 2 = 1) = _
  rw [Nat.add_mod_right]

@[simp] theorem inFlight_addInFlight : e.addInFlight.inFlight = e.inFlight + 1 := by
  exact Nat.add_div_right e.packed (by decide)

theorem decInFlight_eq_none : e.decInFlight = none ↔ e.inFlight = 0 := by
  rw [inFlight_eq]
  show (if e.packed < 2 then none else some _) = none ↔ _
  split
  · exact iff_of_true rfl (by omega)
  · exact iff_of_false nofun (by omega)

variable {e} in
theorem decInFlight_eq_some {e' : StoreEntry V} (h : e.decInFlight = some e') :
    e'.value = e.value ∧ e'.tombstoned = e.tombstoned ∧ e'.inFlight + 1 = e.inFlight := by
  unfold decInFlight at h
  split at h
  · cases h
  next hle =>
    cases h
    rw [tombstoned_eq, tombstoned_eq, inFlight_eq, inFlight_eq, decide_eq_decide]
    show _ ∧ ((e.packed - 2) % 2 = 1 ↔ _) ∧ (e.packed - 2) / 2 + 1 = _
    have hle : 2 ≤ e.packed := Nat.not_lt.mp hle
    exact ⟨rfl, by omega, by omega⟩

@[simp] theorem packed_touchApproximately (now : Nat) :
    (e.touchApproximately now).packed = e.packed := by
  unfold touchApproximately
  split <;> rfl

@[simp] theorem value_touchApproximately (now : Nat) :
    (e.touchApproximately now).value = e.value := by
  unfold touchApproximately
  split <;> rfl

end StoreEntry

structure StoreTable (K V : Type) [Ord K] where
  rows : ExtTreeMap K (StoreEntry V)
  clearing : Bool

abbrev StoreType (τ K V : Type) [Ord K] := τ → StoreTable K V

abbrev EvictionHeap (τ K : Type) := List (Nat × τ × K)

namespace EvictionHeap

variable {τ K : Type} [LinearOrder τ] [LinearOrder K]

def push (heap : EvictionHeap τ K) (entry : Nat × τ × K) : EvictionHeap τ K :=
  heap.orderedInsert (fun a b => toLex (a.1, toLex a.2) ≤ toLex (b.1, toLex b.2)) entry

end EvictionHeap

namespace StoreType

variable {τ K V : Type} [LinearOrder τ] [LinearOrder K] (store : StoreType τ K V)

def setRow (t : τ) (k : K) (e : StoreEntry V) : StoreType τ K V :=
  Function.update store t { store t with rows := (store t).rows.insert k e }

def eraseRow (t : τ) (k : K) : StoreType τ K V :=
  Function.update store t { store t with rows := (store t).rows.erase k }

def insertImpl (t : τ) (k : K) (v : V) (now : Nat) : StoreType τ K V :=
  match (store t).rows[k]? with
  | some entry =>
    store.setRow t k ({ entry with value := some v }.clearTombstone.addInFlight.touch now)
  | none => store.setRow t k (StoreEntry.new (some v) now).addInFlight

def removeImpl (t : τ) (k : K) (now : Nat) : StoreType τ K V :=
  match (store t).rows[k]? with
  | some entry => store.setRow t k (entry.markTombstone.addInFlight.touch now)
  | none => store.setRow t k (StoreEntry.new none now).markTombstone.addInFlight

def clearTableImpl (t : τ) : List K × StoreType τ K V :=
  ((store t).rows.keys,
    Function.update store t
      { rows := (store t).rows.map fun _ entry => entry.markTombstone.addInFlight
        clearing := true })

def hardDelete (t : τ) (k : K) : StoreType τ K V := store.eraseRow t k

/-- Releases one operation of the row; a row that has none left becomes a candidate for
eviction. -/
def onOpApplied (heap : EvictionHeap τ K) (t : τ) (k : K) :
    Option (EvictionHeap τ K × StoreType τ K V) :=
  match (store t).rows[k]? with
  | none => some (heap, store)
  | some entry => entry.decInFlight.map fun entry =>
    (if entry.inFlight = 0 then heap.push (entry.lastUsed, t, k) else heap, store.setRow t k entry)

def onKeysApplied (heap : EvictionHeap τ K) (t : τ) (keys : List K) :
    Option (EvictionHeap τ K × StoreType τ K V) :=
  keys.foldlM (fun s k => onOpApplied s.2 s.1 t k) (heap, store)

def onClearApplied (heap : EvictionHeap τ K) (t : τ) (keys : List K) :
    Option (EvictionHeap τ K × StoreType τ K V) :=
  onKeysApplied (Function.update store t { store t with clearing := false }) heap t keys

/-- Takes candidates in the order of their clocks. One whose row is gone or has operations in
flight is dropped, one that was read since goes back with its new clock. -/
def evictLoop (evictUntil : Nat) :
    Nat → Nat → EvictionHeap τ K → StoreType τ K V → EvictionHeap τ K × StoreType τ K V
  | 0, _, heap, store => (heap, store)
  | _ + 1, _, [], store => ([], store)
  | fuel + 1, total, (lastUsed, t, k) :: heap, store =>
    if total ≤ evictUntil then ((lastUsed, t, k) :: heap, store)
    else
      match (store t).rows[k]? with
      | none => evictLoop evictUntil fuel total heap store
      | some entry =>
        if entry.inFlight ≠ 0 then evictLoop evictUntil fuel total heap store
        else if entry.lastUsed ≠ lastUsed then
          evictLoop evictUntil fuel total (EvictionHeap.push heap (entry.lastUsed, t, k)) store
        else evictLoop evictUntil fuel (total - 1) heap (eraseRow store t k)

def evictIfNeeded [Fintype τ] (heap : EvictionHeap τ K) (maxSize : Nat) :
    EvictionHeap τ K × StoreType τ K V :=
  if heap.length < maxSize >>> 1 then (heap, store)
  else
    let total := ∑ t, (store t).rows.size
    if total ≤ maxSize then (heap, store)
    else evictLoop (maxSize >>> 3) (2 * heap.length + 1) total heap store

/-! What readers ask the memory tier. -/

def isTombstoned (t : τ) (k : K) : Bool := (store t).rows[k]?.any StoreEntry.tombstoned

def isClearing (t : τ) : Bool := (store t).clearing

def getNoMarkedCheck (t : τ) (k : K) : Except String (Option (Bool × V)) :=
  match (store t).rows[k]? with
  | none => .ok none
  | some entry =>
    match entry.value with
    | some v => .ok (some (entry.tombstoned, v))
    | none => .error "Invalid bytes!"

def containsKey (t : τ) (k : K) : Bool := (store t).rows[k]?.any fun entry => !entry.tombstoned

def touchRow (t : τ) (k : K) (now : Nat) : StoreType τ K V :=
  match (store t).rows[k]? with
  | none => store
  | some entry =>
    if entry.tombstoned then store else store.setRow t k (entry.touchApproximately now)

def collectTyped (rows : List (K × StoreEntry V)) : List (K × V) :=
  rows.filterMap fun row => row.2.live.map fun v => (row.1, v)

def iter (t : τ) : List (K × V) := collectTyped (store t).rows.toList

def skipTo (t : τ) (k : K) : List (K × V) :=
  collectTyped ((store t).rows.toList.filter fun row => k ≤ row.1)

def reverseIter (t : τ) : List (K × V) := collectTyped (store t).rows.toList.reverse

def lastRecord (t : τ) : Option (K × V) :=
  (store t).rows.toList.reverse.findSome? fun row => row.2.live.map fun v => (row.1, v)

def recordPriorTo (t : τ) (k : K) : Option (K × V) :=
  ((store t).rows.toList.filter fun row => row.1 < k).reverse.findSome? fun row =>
    row.2.live.map fun v => (row.1, v)

/-! Rows after each operation. -/

def row (t : τ) (k : K) : Option (StoreEntry V) := (store t).rows[k]?

theorem row_setRow (t t' : τ) (k k' : K) (e : StoreEntry V) :
    (store.setRow t k e).row t' k' = if t' = t ∧ k' = k then some e else store.row t' k' := by
  unfold row setRow
  by_cases ht : t' = t
  · subst ht
    rw [update_self, ExtTreeMap.getElem?_insert]
    simp only [compare_eq_iff_eq, true_and, @eq_comm K k k']
  · rw [update_of_ne ht, if_neg fun h => ht h.1]

theorem row_eraseRow (t t' : τ) (k k' : K) :
    (store.eraseRow t k).row t' k' = if t' = t ∧ k' = k then none else store.row t' k' := by
  unfold row eraseRow
  by_cases ht : t' = t
  · subst ht
    rw [update_self, ExtTreeMap.getElem?_erase]
    simp only [compare_eq_iff_eq, true_and, @eq_comm K k k']
  · rw [update_of_ne ht, if_neg fun h => ht h.1]

theorem clearing_update (t t' : τ) (rows : ExtTreeMap K (StoreEntry V)) :
    (update store t { store t with rows } t').clearing = (store t').clearing := by
  by_cases ht : t' = t
  · subst ht
    rw [update_self]
  · rw [update_of_ne ht]

@[simp] theorem clearing_setRow (t t' : τ) (k : K) (e : StoreEntry V) :
    (store.setRow t k e t').clearing = (store t').clearing := clearing_update ..

@[simp] theorem clearing_eraseRow (t t' : τ) (k : K) :
    (store.eraseRow t k t').clearing = (store t').clearing := clearing_update ..

end StoreType

end Axyl
