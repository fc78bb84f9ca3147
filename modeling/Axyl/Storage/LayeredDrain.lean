import Axyl.Storage.LayeredInv

/-! The markers of write transactions in the queue, and what a drained queue leaves. -/

namespace Axyl
open Std (ExtTreeMap)
open OrderedKeys LayeredDatabase

section
variable {τ K V : Type}

def openAfter (isOpen : Bool) (queue : List (DBMessage τ K V)) : Option Bool :=
  queue.foldlM DBMessage.mark isOpen

theorem openAfter_cons (isOpen : Bool) (msg : DBMessage τ K V) (queue : List (DBMessage τ K V)) :
    openAfter isOpen (msg :: queue) = (msg.mark isOpen).bind fun b => openAfter b queue :=
  List.foldlM_cons

theorem openAfter_concat (isOpen : Bool) (que : List (DBMessage τ K V)) (msg : DBMessage τ K V) :
    openAfter isOpen (que ++ [msg]) = (openAfter isOpen que).bind fun b => msg.mark b := by
  unfold openAfter
  rw [List.foldlM_append]
  congr 1
  funext b
  exact bind_pure (m := Option) (msg.mark b)

end

def LayeredEvent.faults {τ K V : Type} : LayeredEvent τ K V → Bool
  | .dropTxn => true
  | .recv failure => failure.isSome
  | _ => false

namespace LayeredDatabase

section
variable {τ K V : Type} [LinearOrder τ] [LinearOrder K] {s : LayeredDatabase τ K V}

def leavesOpen (s : LayeredDatabase τ K V) : Option Bool := openAfter s.txn.isSome s.queue

variable {msg : DBMessage τ K V}

theorem mark_process {fail : Option String} (h : (s.process msg fail).2.fatal = none) :
    msg.mark s.txn.isSome = some (s.process msg fail).2.txn.isSome := by
  have hr := processed_process s msg fail
  generalize s.process msg fail = r at h hr
  cases hr with
  | failed => exact absurd h (fatal_trip _)
  | opened htxn | committed _ htxn | joined _ _ htxn | applied _ htxn =>
    rw [htxn]
    rfl
  | answered | awaited => rfl

theorem fatal_process (hfat : s.fatal = none) (hmark : msg.mark s.txn.isSome ≠ none) :
    (s.process msg none).2.fatal = none := by
  have hr := processed_process s msg none
  generalize s.process msg none = r at hr
  cases hr with
  | failed _ _ _ _ hfail => exact absurd (hfail rfl) hmark
  | _ => exact hfat

omit [LinearOrder τ] in
theorem leavesOpen_send (msg : DBMessage τ K V) (lock : MemLock) :
    ({ s with lock }.send msg).leavesOpen = s.leavesOpen.bind fun b => msg.mark b :=
  openAfter_concat s.txn.isSome s.queue msg

theorem leavesOpen_process {queue : List (DBMessage τ K V)} {failure : Option String}
    (hque : s.queue = msg :: queue) (h : (process { s with queue } msg failure).2.fatal = none) :
    (process { s with queue } msg failure).2.leavesOpen = s.leavesOpen := by
  have hmark := mark_process h
  unfold leavesOpen
  rw [(frame_process _ msg failure).2.2.1, hque, openAfter_cons, hmark]
  rfl

variable [Fintype τ] {cfg : CacheConfig} {e : LayeredEvent τ K V} {r : LayeredResult τ K V}

theorem marks_move (hmove : Move cfg s e r) (h : r.2.fatal = none) :
    (r.2.leavesOpen = s.leavesOpen ∧ (r.2.lock = .exclusive ↔ s.lock = .exclusive)) ∨
      (e = .writeTxn ∧ s.lock = .shared 0 ∧ r.2.lock = .exclusive ∧
        r.2.leavesOpen = s.leavesOpen.bind fun b => (DBMessage.startTxn : DBMessage τ K V).mark b) ∨
      (e = .commit ∧ s.lock = .exclusive ∧ r.2.lock = .shared 0 ∧
        r.2.leavesOpen = s.leavesOpen.bind fun b => (DBMessage.commitTxn : DBMessage τ K V).mark b) ∨
      (e = .dropTxn ∧ s.lock = .exclusive ∧ r.2.lock = .shared 0 ∧
        r.2.leavesOpen = s.leavesOpen) := by
  have hissue : ∀ (op : WriteOp τ K V) now, (s.issue op now).leavesOpen = s.leavesOpen ∧
      ((s.issue op now).lock = .exclusive ↔ s.lock = .exclusive) := by
    intro op now
    rw [issue_eq]
    exact ⟨(leavesOpen_send (.apply (s.deferred op)) s.lock).trans (Option.bind_fun_some _), Iff.rfl⟩
  cases hmove with
  | blocked | refused | rejected | archivedNone | touched | settled | aborted | evicted =>
    exact .inl ⟨rfl, Iff.rfl⟩
  | written op now | txnWritten op now => exact .inl (hissue op now)
  | archived t keys =>
    exact .inl ⟨(leavesOpen_send (.apply (.remove t keys)) s.lock).trans (Option.bind_fun_some _),
      Iff.rfl⟩
  | barrier id =>
    exact .inl ⟨(leavesOpen_send (.caughtUp id) s.lock).trans (Option.bind_fun_some _), Iff.rfl⟩
  | started _ hlock => exact .inr (.inl ⟨rfl, hlock, rfl, leavesOpen_send _ _⟩)
  | committed _ hlock => exact .inr (.inr (.inl ⟨rfl, hlock, rfl, leavesOpen_send _ _⟩))
  | abandoned err hfat =>
    rw [show s.fatal = none from h] at hfat
    cases hfat
  | dropped hlock => exact .inr (.inr (.inr ⟨rfl, hlock, rfl, rfl⟩))
  | readBegun readers hlock | readEnded readers hlock =>
    refine .inl ⟨rfl, ?_⟩
    rw [hlock]
    exact ⟨nofun, nofun⟩
  | discarded failure msg queue err _ _ hfat =>
    rw [show s.fatal = none from h] at hfat
    cases hfat
  | processed failure msg queue _ hque =>
    refine .inl ⟨leavesOpen_process hque h, ?_⟩
    rw [(frame_process _ msg failure).2.1]

/-- The writer is healthy, and it will have a transaction open exactly when a producer has. -/
structure Balanced (s : LayeredDatabase τ K V) : Prop where
  fatal : s.fatal = none
  leavesOpen : s.leavesOpen = some (decide (s.lock = .exclusive))

omit [LinearOrder τ] [Fintype τ] in
theorem balanced_openWith (db : Tables τ K V) : (openWith db).Balanced := ⟨rfl, rfl⟩

theorem Balanced.fatal_move (h : s.Balanced) (hmove : Move cfg s e r) (he : e.faults = false) :
    r.2.fatal = none := by
  cases hmove with
  | written op now | txnWritten op now =>
    rw [issue_eq]
    exact h.fatal
  | processed fail msg que _ hque =>
    cases fail with
    | some err => cases he
    | none =>
      refine fatal_process h.fatal fun hmark => ?_
      have hopen : openAfter s.txn.isSome s.queue = _ := h.leavesOpen
      rw [hque, openAfter_cons, show msg.mark s.txn.isSome = none from hmark] at hopen
      cases hopen
  | _ => exact h.fatal

theorem Balanced.move (h : s.Balanced) (hmove : Move cfg s e r) (he : e.faults = false) :
    r.2.Balanced := by
  have hfat := h.fatal_move hmove he
  refine ⟨hfat, ?_⟩
  rcases marks_move hmove hfat with ⟨hopen, hlock⟩ | ⟨-, hlock, hlock', hopen⟩ |
    ⟨-, hlock, hlock', hopen⟩ | ⟨rfl, -⟩
  · rw [hopen, h.leavesOpen, decide_eq_decide.mpr hlock]
  · rw [hopen, h.leavesOpen, hlock, hlock']
    rfl
  · rw [hopen, h.leavesOpen, hlock, hlock']
    rfl
  · cases he

theorem Balanced.run (h : s.Balanced) {evs : List (LayeredEvent τ K V)}
    (hevs : ∀ e ∈ evs, e.faults = false) : (s.run cfg evs).2.Balanced := by
  induction evs generalizing s with
  | nil => exact h
  | cons e evs ih =>
    obtain ⟨he, hrest⟩ := List.forall_mem_cons.mp hevs
    exact ih (h.move (move_step cfg s e) he) hrest

omit [Fintype τ] in
/-- With nothing queued and no transaction open the persistent tier is the map. -/
theorem Represents.db_eq {m : Tables τ K V} (h : s.Represents m) (hbalanced : s.Balanced)
    (hque : s.queue = []) (hlock : s.lock ≠ .exclusive) : s.db = m := by
  obtain ⟨U, h⟩ := h
  have hopen : openAfter s.txn.isSome s.queue = _ := hbalanced.leavesOpen
  rw [hque, decide_eq_false hlock] at hopen
  have htxn : s.txn = none :=
    Option.isNone_iff_eq_none.mp (Option.isSome_eq_false_iff.mp (Option.some.inj hopen))
  have hU : U = [] := by
    rw [h.pending hbalanced.fatal, pending, h.closed hbalanced.fatal htxn, hque]
    rfl
  funext t
  refine ExtTreeMap.ext_getElem? fun k => ?_
  have hval := (h.key t k).value
  rw [hU] at hval
  exact hval.symm

end

end LayeredDatabase

end Axyl
