import Axyl.Storage.LayeredInv
import Mathlib.Data.Fintype.Basic

/-! The count of a cached row and the operations on its key that are queued and not settled, with
rows that are archived in between. -/

namespace Axyl
open List StoreType LayeredDatabase DBMessage DeferredOp OrderedKeys

namespace LayeredDatabase

section
variable {τ K V : Type} [LinearOrder τ] [LinearOrder K]

def unsettled (s : LayeredDatabase τ K V) : List (DeferredOp τ K V) := s.settling ++ s.pending

/-- The key that is written has a cached row, or no operation on it is under way. -/
def Fits (s : LayeredDatabase τ K V) : WriteOp τ K V → Prop
  | .insert t k _ | .remove t k => s.memDb.row t k = none → owners t k s.unsettled = 0
  | .clear _ => True

def Sound (s : LayeredDatabase τ K V) : LayeredEvent τ K V → Prop
  | .write op _ | .txnWrite op _ => s.Fits op
  | _ => True

/-- While the writer has not failed, cached rows count what is under way for them, and no settle
has aborted. -/
structure Counts (s : LayeredDatabase τ K V) : Prop where
  closed : s.fatal = none → s.txn = none → s.committedOps = []
  txn : s.fatal = none → ∀ rows, s.txn = some rows → rows = s.committedOps.foldl applyTxn s.db
  rows : s.fatal = none → ∀ t k, s.memDb.row t k ≠ none →
    ∃ x, RowIs (s.memDb.row t k) x (owners t k s.unsettled)
  alive : s.fatal = none → s.aborted = false

variable {s : LayeredDatabase τ K V} {t : τ} {k : K}

theorem Counts.of_fatal (hfail : s.fatal ≠ none) : s.Counts :=
  ⟨fun hnone => absurd hnone hfail, fun hnone => absurd hnone hfail,
    fun hnone => absurd hnone hfail, fun hnone => absurd hnone hfail⟩

theorem Fits.free {op : WriteOp τ K V} (h : s.Fits op) (howned : (s.deferred op).owned t k = 1)
    (hr : s.memDb.row t k = none) : owners t k s.unsettled = 0 := by
  cases op with
  | insert t' k' v =>
    obtain ⟨rfl, rfl⟩ : t = t' ∧ k = k' := by simpa [deferred, owned] using howned
    exact h hr
  | remove t' k' =>
    simp only [deferred, owned, count_singleton] at howned
    obtain ⟨rfl, rfl⟩ : t = t' ∧ k' = k := by
      by_contra hkey
      split at howned <;> simp_all
    exact h hr
  | clear t' =>
    simp only [deferred, owned] at howned
    split at howned
    · next ht =>
      subst ht
      rw [count_clearTableImpl, if_pos hr] at howned
      cases howned
    · cases howned

theorem row_hardDelete (keys : List K) (memDb : StoreType τ K V) (t' : τ) :
    (keys.foldl (fun memDb k => memDb.hardDelete t' k) memDb).row t k =
      if t = t' ∧ k ∈ keys then none else memDb.row t k := by
  induction keys generalizing memDb with
  | nil => simp
  | cons k' keys ih =>
    rw [foldl_cons, ih, hardDelete, row_eraseRow]
    by_cases ht : t = t'
    · by_cases hk : k = k' <;> simp [ht, hk]
    · simp [ht]

section
variable (h : s.Counts)
include h

theorem Counts.queue (memDb : StoreType τ K V) (op : DeferredOp τ K V)
    (hrows : s.fatal = none → ∀ t k, memDb.row t k ≠ none →
      ∃ x, RowIs (memDb.row t k) x (owners t k s.unsettled + op.owned t k)) :
    Counts { s with memDb, queue := s.queue ++ [.apply op] } := by
  refine { h with rows := fun hfat t k hr => ?_ }
  obtain ⟨x, hx⟩ := hrows hfat t k hr
  refine ⟨x, ?_⟩
  have hsnoc : unsettled { s with memDb, queue := s.queue ++ [.apply op] } = s.unsettled ++ [op] := by
    unfold unsettled pending
    rw [filterMap_append, append_assoc, append_assoc]
    rfl
  rw [hsnoc, owners_append]
  exact hx

theorem Counts.issue {op : WriteOp τ K V} (hop : s.Fits op) (now : Nat) :
    (s.issue op now).Counts := by
  rw [issue_eq]
  refine h.queue _ _ fun hfat t k hr => ?_
  rcases s.row_issue op now t k with ⟨hsame, howned, -⟩ | ⟨x, -, howned, hrow⟩
  · rw [hsame] at hr ⊢
    rw [howned]
    exact h.rows hfat t k hr
  · have hcnt : inFlightOf (s.memDb.row t k) = owners t k s.unsettled := by
      by_cases hr : s.memDb.row t k = none
      · rw [hop.free howned hr, hr]
        rfl
      · obtain ⟨y, hy⟩ := h.rows hfat t k hr
        exact hy.inFlightOf
    rw [howned, ← hcnt]
    exact ⟨x, hrow⟩

theorem Counts.archive (t : τ) (keys : List K) : Counts ({ s with
    memDb := keys.foldl (fun memDb k => memDb.hardDelete t k) s.memDb }.send
      (.apply (.remove t keys))) := by
  refine h.queue _ _ fun hfat t' k hr => ?_
  rw [row_hardDelete] at hr ⊢
  split at hr
  · exact absurd rfl hr
  · next hkey =>
    have howned : (DeferredOp.remove t keys : DeferredOp τ K V).owned t' k = 0 := by
      rw [owned]
      split
      · next ht => exact count_eq_zero.mpr fun hk => hkey ⟨ht, hk⟩
      · rfl
    rw [if_neg hkey, howned]
    exact h.rows hfat t' k hr

theorem Counts.process {msg : DBMessage τ K V} {queue : List (DBMessage τ K V)}
    (hwr : s.writer = .recv) (hque : s.queue = msg :: queue) (hfat : s.fatal = none)
    (fail : Option String) : (process { s with queue } msg fail).2.Counts := by
  rcases taken_process hwr hque (h.closed hfat) (h.txn hfat) fail with ⟨hfail, -⟩ | htaken
  · exact .of_fatal hfail
  · have hrows := h.rows hfat
    unfold unsettled at hrows
    rw [settling_recv hwr, nil_append, ← htaken.unsettled] at hrows
    obtain ⟨hmem, -, -, halive⟩ := frame_process { s with queue } msg fail
    refine ⟨fun _ => htaken.closed, fun _ => htaken.rows, fun _ => ?_,
      fun _ => halive.trans (h.alive hfat)⟩
    rw [hmem]
    exact hrows

section
variable {op : DeferredOp τ K V} {ops : List (DeferredOp τ K V)}
  (hwr : s.writer = .settle (op :: ops))
include hwr

theorem Counts.rows_settling (hfat : s.fatal = none) {t : τ} {k : K} (hr : s.memDb.row t k ≠ none) :
    ∃ x, RowIs (s.memDb.row t k) x (owners t k (ops ++ s.pending) + op.owned t k) := by
  have hrows := h.rows hfat t k hr
  unfold unsettled settling at hrows
  rw [hwr, cons_append, owners, Nat.add_comm] at hrows
  exact hrows

theorem Counts.settle {evictionHeap : EvictionHeap τ K} {memDb : StoreType τ K V}
    (happ : op.onApplied s.memDb s.evictionHeap = some (evictionHeap, memDb)) : Counts { s with
      evictionHeap, memDb, writer := if ops.isEmpty then .evict none else .settle ops } := by
  refine { h with rows := fun hfat t k hr => ?_ }
  have hrel := released_onApplied happ t k
  obtain ⟨x, hx⟩ := h.rows_settling hwr hfat fun hnone => hr (hrel.absent hnone)
  have hx := hrel.present x _ hx
  rw [← settling_commit (s := s) ops] at hx
  exact ⟨x, hx⟩

theorem Counts.settles (hfat : s.fatal = none) : op.onApplied s.memDb s.evictionHeap ≠ none := by
  refine onApplied_ne_none fun t k hr => ?_
  obtain ⟨x, hx⟩ := h.rows_settling hwr hfat hr
  exact ⟨x, _, hx⟩

end

theorem Counts.evict [Fintype τ] {reply : Option Nat} (hwr : s.writer = .evict reply)
    (maxSize : Nat) : Counts { s with
      evictionHeap := (s.memDb.evictIfNeeded s.evictionHeap maxSize).1
      memDb := (s.memDb.evictIfNeeded s.evictionHeap maxSize).2
      writer := .recv } := by
  refine { h with rows := fun hfat t k hr => ?_ }
  have hrows := h.rows hfat t k
  unfold unsettled settling at hrows
  rw [hwr] at hrows
  rcases (s.memDb.evicted_evictIfNeeded s.evictionHeap maxSize t).1 k with hsame | ⟨hgone, -⟩
  · rw [← hsame] at hrows
    exact hrows hr
  · exact absurd hgone hr

end

theorem Counts.move [Fintype τ] {cfg : CacheConfig} {e : LayeredEvent τ K V}
    {r : LayeredResult τ K V} (h : s.Counts) (hmove : Move cfg s e r)
    (he : s.Sound e) : r.2.Counts := by
  cases hmove with
  | written op now | txnWritten op now => exact h.issue he now
  | archived t keys => exact h.archive t keys
  | started | committed | barrier =>
    refine { h with rows := fun hfat => ?_ }
    have hrows := h.rows hfat
    unfold unsettled at hrows ⊢
    rw [pending_send rfl]
    exact hrows
  | touched t k now =>
    refine { h with rows := fun hfat t' k' hr => ?_ }
    have hrel : Released 0 (s.memDb.row t' k') ((s.memDb.touchRow t k now).row t' k') :=
      released_touchRow now
    obtain ⟨x, hx⟩ := h.rows hfat t' k' fun hnone => hr (hrel.absent hnone)
    exact ⟨x, hrel.present x _ hx⟩
  | discarded fail msg queue err hwr hque hfat =>
    exact .of_fatal fun hnone => nomatch hnone.symm.trans hfat
  | processed fail msg queue hwr hque hfat => exact h.process hwr hque hfat fail
  | settled op ops heap memDb hwr happ => exact h.settle hwr happ
  | aborted op ops hwr hnone =>
    exact { h with alive := fun hfat => absurd hnone (h.settles hwr hfat) }
  | evicted reply hwr => exact h.evict hwr cfg.maxSize
  | _ => exact { h with }

/-- While the writer has not failed, no settle has taken a count below zero, and the count of a cached
row is the number of operations on its key that are queued and not settled, so that the next one is
counted and a row without any is free to go, if no key is written that has no row while operations
on it are under way. -/
theorem inFlight_eq_owners [Fintype τ] (cfg : CacheConfig) (db : Tables τ K V)
    {events : List (LayeredEvent τ K V)}
    (hevents : Reactor.Always (fun s e => step s cfg e) Sound (openWith db) events)
    (hfatal : (run cfg (openWith db) events).2.fatal = none) :
    let s := (run cfg (openWith db) events).2
    s.aborted = false ∧ ∀ t k entry, s.memDb.row t k = some entry →
      entry.inFlight = owners t k s.unsettled ∧
        (∀ op ops, s.writer = .settle (op :: ops) → op.owned t k ≤ entry.inFlight) ∧
        (entry.inFlight = 0 → ∀ op ∈ s.unsettled, op.owned t k = 0) := by
  have hstart : (openWith db).Counts :=
    ⟨fun _ _ => rfl, nofun, fun _ _ _ hr => absurd rfl hr, fun _ => rfl⟩
  have h : (run cfg (openWith db) events).2.Counts :=
    @Reactor.run_history_of _ _ _ _ [] _ _ _ (fun _ s => s.Counts)
      (fun _ s e h he => h.move (move_step cfg s e) he) hstart hevents
  refine ⟨h.alive hfatal, fun t k entry hentry => ?_⟩
  have hne : (run cfg (openWith db) events).2.memDb.row t k ≠ none := by
    rw [hentry]
    exact Option.some_ne_none entry
  obtain ⟨x, hx⟩ := h.rows hfatal t k hne
  have hcnt := hx.inFlightOf
  rw [hentry] at hcnt
  have hcnt : entry.inFlight = _ := hcnt
  refine ⟨hcnt, fun op ops hwr => ?_, fun hzero op hop => ?_⟩
  · rw [hcnt]
    unfold unsettled settling
    rw [hwr]
    exact Nat.le_add_right _ _
  · obtain ⟨before, after, hsplit⟩ := append_of_mem hop
    rw [hcnt, hsplit, owners_append, owners] at hzero
    omega

end

/-- A row is inserted, archived before the writer gets to it, and inserted again. -/
def archiveAndInsert (drain : List (LayeredEvent Unit Nat Nat)) : List (LayeredEvent Unit Nat Nat) :=
  [.write (.insert () 1 10) 0, .writeTxn, .evictPersistentBatch () [1], .commit] ++ drain ++
    [.write (.insert () 1 20) 0]

def drainArchived : List (LayeredEvent Unit Nat Nat) :=
  [.recv none, .settle, .evict, .recv none, .recv none, .recv none, .settle]

theorem inFlight_eq_owners_drained :
    let s := (run ⟨9⟩ (openWith fun _ => ∅) (archiveAndInsert (drainArchived ++ [.evict]))).2
    s.aborted = false ∧ s.memDb.row () 1 = some ⟨some 20, 2, 0⟩ ∧ owners () 1 s.unsettled = 1 := by
  have hevents : Reactor.Always (fun s e => step s ⟨9⟩ e) Sound (openWith fun _ => ∅)
      (archiveAndInsert (drainArchived ++ [.evict])) :=
    ⟨fun _ => by decide +kernel, trivial, trivial, trivial, trivial, trivial, trivial, trivial,
      trivial, trivial, trivial, trivial, fun _ => by decide +kernel, trivial⟩
  have hentry : (run ⟨9⟩ (openWith fun _ => ∅) (archiveAndInsert (drainArchived ++
      [.evict]))).2.memDb.row () 1 = some ⟨some 20, 2, 0⟩ := by decide +kernel
  obtain ⟨halive, hrows⟩ := inFlight_eq_owners ⟨9⟩ (fun _ => ∅) hevents (by decide +kernel)
  exact ⟨halive, hentry, (hrows () 1 _ hentry).1.symm⟩

/-- Two operations on the key are not counted; the row is free to go while they are queued, and
settling the next one aborts. -/
theorem inFlight_underflow :
    let s (events : List (LayeredEvent Unit Nat Nat)) : LayeredDatabase Unit Nat Nat :=
      (run ⟨9⟩ (openWith fun _ => ∅) (archiveAndInsert [] ++ events)).2
    let count (s : LayeredDatabase Unit Nat Nat) := (s.memDb.row () 1).map StoreEntry.inFlight
    count (s []) = some 1 ∧ owners () 1 (s []).unsettled = 3 ∧
      count (s [.recv none, .settle]) = some 0 ∧
      (s [.recv none, .settle]).evictionHeap = [(0, (), 1)] ∧ (s drainArchived).aborted = true := by
  decide +kernel

end LayeredDatabase

end Axyl
