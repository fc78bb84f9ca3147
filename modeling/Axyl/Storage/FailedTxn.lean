import Axyl.Storage.LayeredRefinement

/-! Write transactions that go out of scope without a commit, as `with_write_txn` leaves them when
its closure fails. -/

namespace Axyl
open Std (ExtTreeMap)
open OrderedKeys LayeredDatabase

section
variable {τ K V : Type}

def LayeredEvent.txnOp? : LayeredEvent τ K V → Option (WriteOp τ K V)
  | .txnWrite op _ => some op
  | _ => none

def LayeredEvent.endsTxn : LayeredEvent τ K V → Bool
  | .commit => true
  | .dropTxn => true
  | _ => false

/-- `with_write_txn`. The body has the operations of the closure and whatever other threads try or
do meanwhile; `ok` says what the closure returns. -/
def withWriteTxn (ok : Bool) (body : List (LayeredEvent τ K V)) : List (LayeredEvent τ K V) :=
  .writeTxn :: (body ++ [if ok then .commit else .dropTxn])

end

namespace LayeredDatabase

section
variable {τ K V : Type} [LinearOrder τ] [LinearOrder K] [Fintype τ] {cfg : CacheConfig}
  {s : LayeredDatabase τ K V} {e : LayeredEvent τ K V} {r : LayeredResult τ K V}

theorem fatal_move (hmove : Move cfg s e r) (h : r.2.fatal = none) : s.fatal = none := by
  cases hmove with
  | written op now hfat | txnWritten op now hfat => exact hfat
  | processed fail msg que _ _ hfat => exact hfat
  | _ => exact h

variable {evs : List (LayeredEvent τ K V)}

theorem fatal_run (h : (s.run cfg evs).2.fatal = none) : s.fatal = none := by
  induction evs generalizing s with
  | nil => exact h
  | cons e evs ih => exact fatal_move (move_step cfg s e) (ih h)

/-- A closure holds the lock, and its transaction is not closed in the queue. -/
structure Opened (s : LayeredDatabase τ K V) : Prop where
  lock : s.lock = .exclusive
  leavesOpen : s.fatal = none → s.leavesOpen ≠ some false

def Stale (s : LayeredDatabase τ K V) : Prop :=
  s.fatal = none → s.leavesOpen ≠ some false ∧ (s.lock = .exclusive → s.leavesOpen = none)

omit [LinearOrder τ] [LinearOrder K] [Fintype τ] in
theorem mark_startTxn {b : Option Bool} :
    (b.bind fun b => (DBMessage.startTxn : DBMessage τ K V).mark b) ≠ some false := by
  rcases b with - | - | - <;> exact nofun

section
variable (hmove : Move cfg s e r)
include hmove

theorem Opened.lock_move (h : s.Opened) (he : e.endsTxn = false) : r.2.lock = .exclusive := by
  have hshared : ∀ n, s.lock ≠ .shared n := by
    rw [h.lock]
    exact nofun
  cases hmove with
  | written _ _ _ hlock | started _ hlock | readBegun _ hlock | readEnded _ hlock =>
    exact absurd hlock (hshared _)
  | txnWritten op now =>
    rw [issue_eq]
    exact h.lock
  | abandoned | committed | dropped => cases he
  | processed fail msg =>
    rw [(frame_process _ msg fail).2.1]
    exact h.lock
  | _ => exact h.lock

theorem Opened.move (h : s.Opened) (he : e.endsTxn = false) : r.2.Opened := by
  refine ⟨h.lock_move hmove he, fun hfat => ?_⟩
  rcases marks_move hmove hfat with ⟨hopen, -⟩ | ⟨-, -, -, hopen⟩ | ⟨rfl, -⟩ | ⟨rfl, -⟩
  · rw [hopen]
    exact h.leavesOpen (fatal_move hmove hfat)
  · rw [hopen]
    exact mark_startTxn
  · cases he
  · cases he

theorem Stale.move (h : s.Stale) : r.2.Stale := by
  intro hfat
  obtain ⟨hopen, hlocked⟩ := h (fatal_move hmove hfat)
  rcases marks_move hmove hfat with ⟨hsame, hlock⟩ | ⟨-, -, -, hst⟩ |
    ⟨-, hlock, -, hcmt⟩ | ⟨-, hlock, -, hsame⟩
  · rw [hsame]
    exact ⟨hopen, fun hlock' => hlocked (hlock.mp hlock')⟩
  · -- a second transaction starts on top of the first
    refine ⟨hst ▸ mark_startTxn, fun _ => ?_⟩
    rw [hst]
    rcases hb : s.leavesOpen with - | - | -
    · rfl
    · exact absurd hb hopen
    · rfl
  · rw [hcmt, hlocked hlock]
    exact ⟨nofun, fun _ => rfl⟩
  · rw [hsame, hlocked hlock]
    exact ⟨nofun, fun _ => rfl⟩

def Misplaced (s : LayeredDatabase τ K V) : Prop := s.fatal = none → s.leavesOpen = none

theorem Misplaced.move (h : s.Misplaced) : r.2.Misplaced := by
  intro hfat
  have hnone := h (fatal_move hmove hfat)
  rcases marks_move hmove hfat with ⟨hopen, -⟩ | ⟨-, -, -, hopen⟩ | ⟨-, -, -, hopen⟩ |
    ⟨-, -, -, hopen⟩ <;> rw [hopen, hnone] <;> rfl

theorem Stale.committed (h : s.Stale) (hcmt : .committed ∈ r.1) : r.2.Misplaced := by
  intro hfat
  cases hmove with
  | committed hheal hlock =>
    rw [leavesOpen_send, (h hheal).2 hlock]
    rfl
  | discarded fail msg => cases msg <;> simp [discard] at hcmt
  | processed fail msg =>
    cases msg with
    | caughtUp id =>
      unfold process at hcmt
      dsimp only at hcmt
      split at hcmt <;> simp at hcmt
    | _ => cases hcmt
  | evicted reply => cases reply <;> simp at hcmt
  | _ => simp at hcmt

end

theorem Misplaced.run (h : s.Misplaced) (evs : List (LayeredEvent τ K V)) :
    (s.run cfg evs).2.Misplaced := by
  induction evs generalizing s with
  | nil => exact h
  | cons e evs ih => exact ih (h.move (move_step cfg s e))

theorem Stale.run (h : s.Stale)
    (hcmt : .committed ∈ (s.run cfg evs).1) : (s.run cfg evs).2.Misplaced := by
  induction evs generalizing s with
  | nil => cases hcmt
  | cons e evs ih =>
    have hmove := move_step cfg s e
    rcases List.mem_append.mp hcmt with hcmt | hcmt
    · exact (h.committed hmove hcmt).run evs
    · exact ih (h.move hmove) hcmt

omit [LinearOrder τ] [Fintype τ] in
theorem Misplaced.fatal (h : s.Misplaced) (hque : s.queue = []) : s.fatal ≠ none := by
  intro hfat
  have hnone : openAfter s.txn.isSome s.queue = none := h hfat
  rw [hque] at hnone
  cases hnone

theorem Opened.writes (h : s.Opened) (hfat : s.fatal = none) (halive : s.aborted = false)
    (harch : e.archives = false) : writesOf (s.step cfg e).1 = e.txnOp?.toList := by
  cases e with
  | write op now =>
    rw [step_of_alive halive]
    unfold handle write
    rw [hfat, h.lock]
    rfl
  | txnWrite op now =>
    rw [step_of_alive halive]
    unfold handle txnWrite
    dsimp only
    rw [if_pos h.lock, hfat]
    rfl
  | evictPersistentBatch t keys => cases harch
  | _ => exact (quiet_move (move_step cfg s _) rfl).1

theorem Opened.run (h : s.Opened) {m : Tables τ K V} (hrep : s.Represents m) (cfg : CacheConfig)
    {body : List (LayeredEvent τ K V)} (hbody : ∀ e ∈ body, e.endsTxn = false ∧ e.archives = false) :
    (s.run cfg body).2.Opened ∧ ((s.run cfg body).2.fatal = none →
      writesOf (s.run cfg body).1 = body.filterMap LayeredEvent.txnOp?) := by
  induction body generalizing s m with
  | nil => exact ⟨h, fun _ => rfl⟩
  | cons e body ih =>
    obtain ⟨⟨hends, harch⟩, hrest⟩ := List.forall_mem_cons.mp hbody
    have hmove := move_step cfg s e
    obtain ⟨h', hws⟩ := ih (h.move hmove hends) (hrep.step cfg harch) hrest
    refine ⟨h', fun hfat => ?_⟩
    obtain ⟨U, hholds⟩ := hrep
    show writesOf ((s.step cfg e).1 ++ (run cfg (s.step cfg e).2 body).1) = _
    rw [writesOf_append, h.writes (fatal_move hmove (fatal_run hfat)) hholds.alive harch,
      hws hfat, List.filterMap_cons]
    cases e.txnOp? <;> rfl

theorem run_withWriteTxn (hfat : s.fatal = none) (hlock : s.lock = .shared 0)
    (halive : s.aborted = false) {body : List (LayeredEvent τ K V)} :
    let r := run cfg ({ s with lock := .exclusive }.send .startTxn) body
    r.2.aborted = false → s.run cfg (withWriteTxn false body) = (r.1, r.2.dropTxn) := by
  have hst : s.step cfg .writeTxn = ([], { s with lock := .exclusive }.send .startTxn) := by
    rw [step_of_alive halive]
    unfold handle writeTxn
    rw [hfat, hlock]
    rfl
  intro r halive'
  have hrun : s.run cfg (withWriteTxn false body) = ((s.step cfg .writeTxn).1 ++
          (run cfg (s.step cfg .writeTxn).2 (body ++ [.dropTxn])).1,
        (run cfg (s.step cfg .writeTxn).2 (body ++ [.dropTxn])).2) := rfl
  have hlast : run cfg ({ s with lock := .exclusive }.send .startTxn) (body ++ [.dropTxn]) =
      (r.1 ++ ((r.2.step cfg .dropTxn).1 ++ []), (r.2.step cfg .dropTxn).2) := Reactor.run_append ..
  rw [hrun, hst, hlast, step_of_alive halive']
  show ([] ++ (r.1 ++ ([] ++ [])), _) = _
  rw [List.append_nil, List.append_nil]
  rfl

omit [LinearOrder τ] [Fintype τ] in
theorem Opened.drop (h : s.Opened) : s.dropTxn.Stale := by
  unfold dropTxn
  rw [if_pos h.lock]
  exact fun hfat => ⟨h.leavesOpen hfat, nofun⟩

theorem ReadsAs.unique {t : τ} {rows rows' : ExtTreeMap K V} (h : s.ReadsAs cfg t rows)
    (h' : s.ReadsAs cfg t rows') : rows = rows' := by
  have hqt : Quiet ([] : List (LayeredEvent τ K V)) := nofun
  refine ExtTreeMap.ext_getElem? fun k => ?_
  have hget := (h.get k [] [] [] hqt hqt hqt).symm.trans (h'.get k [] [] [] hqt hqt hqt)
  exact Except.ok.inj hget

/-- A closure of `with_write_txn` that fails. Everything it wrote stays, so reads are as before
exactly if this changes nothing; and when another transaction has reported its commit, the store
has failed by the time the queue is empty. -/
theorem failed_txn_stays (cfg : CacheConfig) (db : Tables τ K V)
    (events body : List (LayeredEvent τ K V)) (hevents : ∀ e ∈ events, e.archives = false)
    (hbody : ∀ e ∈ body, e.endsTxn = false ∧ e.archives = false) :
    let r₀ := run cfg (openWith db) events
    let m := mapAfter db (writesOf r₀.1)
    let r := run cfg r₀.2 (withWriteTxn false body)
    r₀.2.fatal = none → r₀.2.lock = .shared 0 →
      (r.2.fatal = none → writesOf r.1 = body.filterMap LayeredEvent.txnOp?) ∧
      ((∀ t, r.2.ReadsAs cfg t (m t)) ↔ mapAfter m (writesOf r.1) = m) ∧
      ∀ later, .committed ∈ (run cfg r.2 later).1 → (run cfg r.2 later).2.queue = [] →
        (run cfg r.2 later).2.fatal ≠ none := by
  intro r₀ m r hfatal hlock
  have hopened : ({ r₀.2 with lock := .exclusive }.send .startTxn).Opened := by
    refine ⟨rfl, fun _ => ?_⟩
    rw [leavesOpen_send]
    exact mark_startTxn
  have hrep : r₀.2.Represents m := (represents_openWith db).run cfg hevents
  have ⟨U, hholds⟩ := hrep
  have hsent : ({ r₀.2 with lock := .exclusive }.send .startTxn).Represents m :=
    ⟨U, hholds.send rfl .exclusive⟩
  obtain ⟨hopened', hwrites⟩ := hopened.run hsent cfg hbody
  obtain ⟨U', hholds'⟩ := hsent.run cfg fun e he => (hbody e he).2
  have hr : r = _ := run_withWriteTxn hfatal hlock hholds.alive hholds'.alive
  have hreads : ∀ t, r.2.ReadsAs cfg t (mapAfter m (writesOf r.1) t) := by
    refine Represents.readsAs (hrep.run cfg fun e he => ?_)
    rcases List.mem_cons.mp he with rfl | he
    · rfl
    · rcases List.mem_append.mp he with he | he
      · exact (hbody e he).2
      · rw [List.mem_singleton.mp he]
        rfl
  refine ⟨fun hhealthy => ?_, ⟨fun h => ?_, fun h t => ?_⟩, fun later hcommit hqueue => ?_⟩
  · rw [hr] at hhealthy ⊢
    refine hwrites ?_
    unfold dropTxn at hhealthy
    rw [if_pos hopened'.lock] at hhealthy
    exact hhealthy
  · funext t
    exact (hreads t).unique (h t)
  · rw [← h]
    exact hreads t
  · have hstale : r.2.Stale := by
      rw [hr]
      exact hopened'.drop
    exact (hstale.run hcommit).fatal hqueue

end

def noRows : Tables Unit Nat Nat := fun _ => ∅

def insertInTxn : List (LayeredEvent Unit Nat Nat) := [.txnWrite (.insert () 1 10) 0]

def nextTxn : List (LayeredEvent Unit Nat Nat) :=
  [.writeTxn, .commit, .recv none, .recv none, .recv none, .recv none]

theorem failed_txn_stays_insert :
    let r := run ⟨1⟩ (openWith noRows) (withWriteTxn false insertInTxn)
    writesOf r.1 = [.insert () 1 10] ∧ (run ⟨1⟩ r.2 nextTxn).2.fatal ≠ none := by
  have h := failed_txn_stays ⟨1⟩ noRows [] insertInTxn (by decide) (by decide) rfl rfl
  exact ⟨h.1 (by decide +kernel), h.2.2 nextTxn (by decide +kernel) (by decide +kernel)⟩

/-- The insert of the failed closure is read, and the next transaction stops the store. -/
theorem failed_txn_insert_read :
    let r := run ⟨1⟩ (openWith noRows) (withWriteTxn false insertInTxn)
    let r' := run ⟨1⟩ r.2 nextTxn
    (get ⟨1⟩ (openWith noRows) () 1 [] [] []).toOption = some none ∧
      (r.2.get ⟨1⟩ () 1 [] [] []).toOption = some (some 10) ∧
      .committed ∈ r'.1 ∧ r'.2.fatal = some .startTxnWhileOpen ∧ (r'.2.db ())[1]? = none := by
  decide +kernel

end LayeredDatabase

end Axyl
