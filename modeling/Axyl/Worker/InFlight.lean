import Axyl.Lib.Trace
import Mathlib.Logic.Function.Basic

/-! The tracker of transactions in flight, whose sweep reads the armed policy in one lock section
and releases marks in another. -/

namespace Axyl
open Function

structure DuePolicy where
  after : Nat
  backoffShiftCap : Nat
  minAnchorAdvance : Nat
deriving DecidableEq, Repr

inductive Mark
  | sent (sentAt anchor attempts : Nat)
  | ackedStale
  | held (heldAt sender : Nat)
deriving DecidableEq, Repr

namespace Mark

/-- In nanoseconds, as all times here. -/
def droppedHold : Nat := 60000000000

def maxDuration : Nat := 18446744073709551615999999999

def isDue (now anchor : Nat) (policy : DuePolicy) : Mark → Bool
  | .sent sentAt markAnchor attempts =>
    let shift := min (min attempts policy.backoffShiftCap) 31
    min (policy.after * (1 <<< shift)) maxDuration ≤ now - sentAt &&
      min (markAnchor + policy.minAnchorAdvance) 18446744073709551615 ≤ anchor
  | .held heldAt _ => droppedHold ≤ now - heldAt
  | .ackedStale => false

def resend (now anchor : Nat) : Mark → Mark
  | .sent _ _ attempts => .sent now anchor (min (attempts + 1) 4294967295)
  | .held _ _ => .sent now anchor 1
  | .ackedStale => .ackedStale

def hold (now sender : Nat) : Mark → Mark
  | .sent _ _ _ => .held now sender
  | mark => mark

def heldBy (senders : List Nat) : Mark → Bool
  | .held _ sender => sender ∈ senders
  | _ => false

end Mark

inductive Armed
  | sealing (policy : DuePolicy)
  | forwarding
deriving DecidableEq, Repr

def Armed.policy : Armed → Option DuePolicy
  | .sealing policy => some policy
  | .forwarding => none

/-- `sweeping` has the policy a thread has read and not yet released marks under; `byForwarder`
records who has set a mark. -/
structure InFlightTracker where
  marks : Nat → Option Mark := fun _ => none
  armed : Option Armed := none
  sweeping : Nat → Option DuePolicy := fun _ => none
  byForwarder : Nat → Bool := fun _ => false

/-- The lock sections, of which a sweep has two. -/
inductive InFlightEvent
  | armSealing (policy : DuePolicy)
  | armForwarding
  | clear
  | mark (hashes : List Nat) (now : Nat)
  | markForwarded (hashes : List Nat) (now anchor : Nat)
  | markAckedStale (hashes : List Nat)
  | sweepDue (thread : Nat)
  | releaseDue (thread now anchor : Nat)
  | holdDropped (dropped : List (Nat × Nat)) (now : Nat)
  | releaseAdvanced (senders : List Nat)
  | releaseMined (live : List Nat)
  | releaseHashes (mined : List Nat)

namespace InFlightTracker

def track (s : InFlightTracker) (hashes : List Nat) (f : Option Mark → Mark) (byForwarder : Bool) :
    InFlightTracker :=
  { s with
    marks := fun h => if h ∈ hashes then some (f (s.marks h)) else s.marks h
    byForwarder := fun h => if h ∈ hashes then byForwarder else s.byForwarder h }

def retain (s : InFlightTracker) (keep : Nat → Mark → Bool) : InFlightTracker :=
  { s with marks := fun h => (s.marks h).filter (keep h) }

def releaseDue (s : InFlightTracker) (thread now anchor : Nat) : InFlightTracker :=
  match s.sweeping thread with
  | none => s
  | some policy =>
    { s.retain fun _ mark => !mark.isDue now anchor policy with
      sweeping := update s.sweeping thread none }

/-- Of two entries for one hash the first is taken: the mark is no longer `sent` at the second. -/
def holdDropped (s : InFlightTracker) (dropped : List (Nat × Nat)) (now : Nat) : InFlightTracker :=
  { s with
    marks := fun h => (s.marks h).map fun mark =>
      (dropped.find? fun entry => entry.2 = h).elim mark fun entry => mark.hold now entry.1 }

def step (s : InFlightTracker) : InFlightEvent → InFlightTracker
  | .armSealing policy => { s with marks := fun _ => none, armed := some (.sealing policy) }
  | .armForwarding => { s with armed := some .forwarding }
  | .clear =>
    { s with
      marks := if s.armed = some .forwarding then s.marks else fun _ => none
      armed := none }
  | .mark hashes now => s.track hashes (fun _ => .sent now 0 0) false
  | .markForwarded hashes now anchor =>
    s.track hashes (fun mark => (mark.map (Mark.resend now anchor)).getD (.sent now anchor 0)) true
  | .markAckedStale hashes => s.track hashes (fun _ => .ackedStale) true
  | .sweepDue thread =>
    { s with sweeping := update s.sweeping thread (s.armed.bind Armed.policy) }
  | .releaseDue thread now anchor => s.releaseDue thread now anchor
  | .holdDropped dropped now => s.holdDropped dropped now
  | .releaseAdvanced senders => s.retain fun _ mark => !mark.heldBy senders
  | .releaseMined live => s.retain fun h _ => h ∈ live
  | .releaseHashes mined => s.retain fun h _ => h ∉ mined

/-- The role has not changed since a sweep has read it, and the forwarder marks nothing while the
tracker is armed for sealing. -/
def Undisturbed (s : InFlightTracker) : InFlightEvent → Prop
  | .releaseDue thread _ _ => ∀ policy ∈ s.sweeping thread, s.armed = some (.sealing policy)
  | .markForwarded _ _ _ => ∀ policy, s.armed ≠ some (.sealing policy)
  | _ => True

/-- While the tracker is armed for sealing no mark of the forwarder can be due. -/
def Apart (s : InFlightTracker) : Prop :=
  ∀ policy, s.armed = some (.sealing policy) → ∀ h, s.byForwarder h = true →
    ∀ mark ∈ s.marks h, mark = .ackedStale

variable {s : InFlightTracker}

theorem Apart.retain (h : s.Apart) (keep : Nat → Mark → Bool) : (s.retain keep).Apart :=
  fun policy hp x hx mark hm => h policy hp x hx mark (Option.filter_eq_some_iff.mp hm).1

theorem Apart.step {e : InFlightEvent} (h : s.Apart) (hu : s.Undisturbed e) : (s.step e).Apart := by
  cases e with
  | armSealing | armForwarding | clear => simp [Apart, InFlightTracker.step]
  | markForwarded => exact fun policy hp => absurd hp (hu policy)
  | mark hashes | markAckedStale hashes =>
    intro policy hp x hx
    have := h policy hp x
    by_cases hm : x ∈ hashes <;> simp_all [InFlightTracker.step, track]
  | sweepDue => exact h
  | releaseDue t now anchor =>
    change (s.releaseDue t now anchor).Apart
    unfold releaseDue
    split
    · exact h
    · exact h.retain _
  | holdDropped dropped now =>
    intro policy hp x hx _ hm
    obtain ⟨mark, hmark, rfl⟩ := Option.map_eq_some_iff.mp hm
    rw [h policy hp x hx mark hmark]
    cases dropped.find? _ <;> rfl
  | releaseAdvanced | releaseMined | releaseHashes => exact h.retain _

/-- Where no role changes between the two sections of a sweep, what it releases is due under the
policy that is armed, and the forwarder has not set it. -/
theorem sweep_releases_due (events : List InFlightEvent)
    (h : Trace.Run (fun s e s' => s.Undisturbed e ∧ s' = s.step e) {} events s)
    {t now anchor : Nat} (hu : s.Undisturbed (.releaseDue t now anchor)) {x : Nat} {mark : Mark}
    (hx : s.marks x = some mark) (hgone : (s.step (.releaseDue t now anchor)).marks x = none) :
    (∃ policy, s.armed = some (.sealing policy) ∧ mark.isDue now anchor policy = true) ∧
      s.byForwarder x = false := by
  have hap : s.Apart := by
    refine h.invariant (P := Apart) ?_ nofun
    rintro s e _ ⟨hu, rfl⟩ hs
    exact hs.step hu
  change (s.releaseDue t now anchor).marks x = none at hgone
  unfold releaseDue at hgone
  split at hgone
  · cases hx.symm.trans hgone
  next policy hp =>
    have hdue : mark.isDue now anchor policy = true := by simpa [InFlightTracker.retain, hx] using hgone
    have harm := hu policy hp
    refine ⟨⟨policy, harm, hdue⟩, Bool.eq_false_iff.mpr fun hf => ?_⟩
    rw [hap policy harm x hf mark hx] at hdue
    cases hdue

theorem sweep_releases_due_sealed :
    let s := [.armSealing ⟨5, 0, 0⟩, .mark [7] 0, .sweepDue 1].foldl step {}
    (∃ policy, s.armed = some (.sealing policy) ∧ Mark.isDue 9 1 policy (.sent 0 0 0) = true) ∧
      s.byForwarder 7 = false := by
  refine sweep_releases_due [.armSealing ⟨5, 0, 0⟩, .mark [7] 0, .sweepDue 1] (t := 1)
    (.cons ⟨trivial, rfl⟩ (.cons ⟨trivial, rfl⟩ (.cons ⟨trivial, rfl⟩ (.nil _)))) ?_ rfl rfl
  rintro _ ⟨⟩
  rfl

/-- The role changes between the two sections, and the sweep releases a mark of the forwarder. -/
theorem sweep_releases_forwarded :
    let s := [.armSealing ⟨5, 0, 0⟩, .sweepDue 1, .clear, .armForwarding,
      .markForwarded [7] 0 0].foldl step {}
    s.marks 7 = some (.sent 0 0 0) ∧ s.armed = some .forwarding ∧ s.byForwarder 7 = true ∧
      (s.step (.releaseDue 1 9 1)).marks 7 = none := by
  decide

end InFlightTracker

end Axyl
