import Axyl.Lib.Slot
import Std.Data.ExtTreeMap
import Std.Data.ExtTreeSet

/-! The registry of executed batch digests. A digest can be released for a retry a bounded
number of times. -/

namespace Axyl
open Std (ExtTreeMap ExtTreeSet)

def maxNonceTooHighRetries : Nat := 3

structure ExecutedBatchRegistry where
  digests : ExtTreeSet Nat
  retryCounts : ExtTreeMap Nat Nat
deriving DecidableEq

namespace ExecutedBatchRegistry

def default : ExecutedBatchRegistry := ⟨∅, ∅⟩

def contains (r : ExecutedBatchRegistry) (digest : Nat) : Bool := r.digests.contains digest

def retryCount (r : ExecutedBatchRegistry) (digest : Nat) : Nat := r.retryCounts[digest]?.getD 0

def tryRegister (r : ExecutedBatchRegistry) (digest : Nat) : Bool × ExecutedBatchRegistry :=
  (!r.contains digest, { r with digests := r.digests.insert digest })

def dropDigest (r : ExecutedBatchRegistry) (digest : Nat) : Bool × ExecutedBatchRegistry :=
  if maxNonceTooHighRetries ≤ r.retryCount digest then
    (false, { r with retryCounts := r.retryCounts.insert digest (r.retryCount digest) })
  else
    (true, { digests := r.digests.erase digest
             retryCounts := r.retryCounts.insert digest (r.retryCount digest + 1) })

variable {r : ExecutedBatchRegistry} {d e : Nat}

@[simp] theorem contains_tryRegister :
    (r.tryRegister d).2.contains e = (d == e || r.contains e) := by
  simp only [tryRegister, contains, ExtTreeSet.contains_insert]
  rw [Bool.eq_iff_iff]
  simp

@[simp] theorem retryCount_tryRegister : (r.tryRegister d).2.retryCount e = r.retryCount e := rfl

theorem retryCount_insert (digests : ExtTreeSet Nat) (n : Nat) :
    retryCount { digests, retryCounts := r.retryCounts.insert d n } e =
      if d = e then n else r.retryCount e := by
  simp only [retryCount, ExtTreeMap.getElem?_insert, Nat.compare_eq_eq]
  split <;> rfl

theorem dropDigest_of_le (h : maxNonceTooHighRetries ≤ r.retryCount d) :
    (r.dropDigest d).1 = false ∧ (∀ e, (r.dropDigest d).2.contains e = r.contains e) ∧
      ∀ e, (r.dropDigest d).2.retryCount e = r.retryCount e := by
  rw [dropDigest, if_pos h]
  refine ⟨rfl, fun e => rfl, fun e => ?_⟩
  rw [retryCount_insert]
  split
  · next heq => rw [heq]
  · rfl

theorem dropDigest_of_lt (h : r.retryCount d < maxNonceTooHighRetries) : (r.dropDigest d).1 = true ∧
      (∀ e, (r.dropDigest d).2.contains e = (d != e && r.contains e)) ∧
      ∀ e, (r.dropDigest d).2.retryCount e = r.retryCount e + if d = e then 1 else 0 := by
  rw [dropDigest, if_neg (by omega)]
  refine ⟨rfl, fun e => ?_, fun e => ?_⟩
  · simp only [contains, ExtTreeSet.contains_erase]
    rw [Bool.eq_iff_iff]
    simp
  · rw [retryCount_insert]
    split
    · next heq => rw [heq]
    · rfl

def slot (r : ExecutedBatchRegistry) (d : Nat) : Slot := ⟨r.contains d, r.retryCount d⟩

@[simp] theorem slot_default (d : Nat) : default.slot d = .free := by
  rfl

theorem slot_dropDigest (hd : r.contains e) : (r.dropDigest e).2.slot d =
      if e = d then (r.slot d).attempt maxNonceTooHighRetries true else r.slot d := by
  rcases Nat.lt_or_ge (r.retryCount e) maxNonceTooHighRetries with hlt | hge
  · obtain ⟨-, hc, hr⟩ := dropDigest_of_lt hlt
    rw [slot, hc, hr]
    split
    · rename_i heq
      subst heq
      rw [Slot.attempt, if_neg (show ¬_ ≤ (r.slot e).returns from Nat.not_le.mpr hlt)]
      simp [slot]
    · rename_i hne
      simp [slot, bne, beq_false_of_ne hne]
  · obtain ⟨-, hc, hr⟩ := dropDigest_of_le hge
    rw [slot, hc, hr]
    split
    · rename_i heq
      subst heq
      rw [Slot.attempt, if_pos (show _ ≤ (r.slot e).returns from hge), hd]
      rfl
    · rfl

theorem slot_register (r : ExecutedBatchRegistry) (e d : Nat) (back : Bool) :
    (if back then ((r.tryRegister e).2.dropDigest e).2 else (r.tryRegister e).2).slot d =
      if e = d then (r.slot d).attempt maxNonceTooHighRetries back else r.slot d := by
  have hslot : (r.tryRegister e).2.slot d = if e = d then ⟨true, r.retryCount d⟩ else r.slot d := by
    rw [slot]
    split
    · rename_i heq
      simp [heq]
    · rename_i hne
      simp [slot, beq_false_of_ne hne]
  cases back with
  | false =>
    rw [if_neg Bool.false_ne_true, hslot]
    rfl
  | true =>
    rw [if_pos rfl, slot_dropDigest (by simp), hslot]
    split
    · exact Slot.attempt_congr rfl true
    · rfl

end ExecutedBatchRegistry

end Axyl
