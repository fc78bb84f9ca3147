import Axyl.Storage.LayeredInv
import Mathlib.Data.Fintype.Basic

/-! What a crash of the writer leaves in the persistent tier: the first of the operations that were
issued outside transactions, but for removes that the writer skipped. -/

namespace Axyl
open List DeferredOp WriteLog

section
variable {τ K V : Type}

def LayeredEvent.isDirect : LayeredEvent τ K V → Bool
  | .writeTxn | .txnWrite _ _ | .evictPersistentBatch _ _ | .commit | .dropTxn => false
  | _ => true

/-- What the writer has applied of the operations it is done with, when `later` were issued after
them: it leaves out a remove whose key is inserted again. -/
inductive Applied : List (WriteOp τ K V) → List (WriteOp τ K V) → List (WriteOp τ K V) → Prop
  | nil (later : List (WriteOp τ K V)) : Applied [] later []
  | applied {done later kept : List (WriteOp τ K V)} {w : WriteOp τ K V} :
    Applied done (w :: later) kept → Applied (done ++ [w]) later (kept ++ [w])
  | skipped {done later kept : List (WriteOp τ K V)} {t : τ} {k : K} {v : V} :
    Applied done (.remove t k :: later) kept → .insert t k v ∈ later →
      Applied (done ++ [.remove t k]) later kept

variable {done later kept : List (WriteOp τ K V)}

theorem Applied.append (h : Applied done later kept) (ops : List (WriteOp τ K V)) :
    Applied done (later ++ ops) kept := by
  induction h with
  | nil => exact .nil _
  | applied _ ih => exact .applied ih
  | skipped _ hmem ih => exact .skipped ih (mem_append_left ops hmem)

variable [LinearOrder τ] [LinearOrder K]

inductive Queued : List (DBMessage τ K V) → List (WriteOp τ K V) → Prop
  | nil : Queued [] []
  | write {queue : List (DBMessage τ K V)} {later : List (WriteOp τ K V)}
    (s : LayeredDatabase τ K V) (w : WriteOp τ K V) :
    Queued queue later → Queued (.apply (s.deferred w) :: queue) (w :: later)
  | barrier {queue : List (DBMessage τ K V)} {later : List (WriteOp τ K V)} (id : Nat) :
    Queued queue later → Queued (.caughtUp id :: queue) later

variable {queue queue' : List (DBMessage τ K V)} {later' : List (WriteOp τ K V)}

theorem Queued.append (h : Queued queue later) (h' : Queued queue' later') :
    Queued (queue ++ queue') (later ++ later') := by
  induction h with
  | nil => exact h'
  | write s w _ ih => exact .write s w ih
  | barrier id _ ih => exact .barrier id ih

theorem Queued.insert_mem {t : τ} {k : K} {v : V} (h : Queued queue later)
    (hlast : last effect (queue.filterMap DBMessage.op?) (t, k) = some (some v)) :
    .insert t k v ∈ later := by
  induction h with
  | nil => cases hlast
  | barrier _ _ ih => exact ih hlast
  | @write queue later s w _ ih =>
    change (last effect (queue.filterMap DBMessage.op?) (t, k)).or
      ((s.deferred w).effect (t, k)) = _ at hlast
    rcases Option.or_eq_some_iff.mp hlast with hlast | ⟨-, hw⟩
    · exact mem_cons_of_mem w (ih hlast)
    · cases w with
      | insert t' k' v' =>
        obtain ⟨hkey, hv⟩ := Option.ite_none_right_eq_some.mp hw
        cases hkey
        cases hv
        exact mem_cons_self
      | remove | clear => simp [LayeredDatabase.deferred, effect] at hw

namespace LayeredDatabase

variable {s s' : LayeredDatabase τ K V} {db : Tables τ K V} {fx gx : List (LayeredEffect τ K V)}
  {m : Tables τ K V} {U : List (DeferredOp τ K V)} {ws : List (WriteOp τ K V)}

structure Prefixed (db : Tables τ K V) (fx : List (LayeredEffect τ K V))
    (s : LayeredDatabase τ K V) : Prop where
  txn : s.txn = none
  rows : ∃ done later kept, writesOf fx = done ++ later ∧ Applied done later kept ∧
    s.db = mapAfter db kept ∧ (s.fatal = none → Queued s.queue later)

theorem Prefixed.send (h : Prefixed db fx s) (hws : writesOf gx = ws) (htxn : s'.txn = s.txn)
    (hfat : s'.fatal = s.fatal) (hque : s'.queue = s.queue ++ queue) (hqd : Queued queue ws)
    (hdb : s'.db = s.db) : Prefixed db (fx ++ gx) s' := by
  obtain ⟨done, later, kept, hissued, happl, hrows, hlat⟩ := h.rows
  refine ⟨htxn.trans h.txn, done, later ++ ws, kept, ?_, happl.append ws, hdb.trans hrows, ?_⟩
  · rw [writesOf_append, hissued, hws, append_assoc]
  · rw [hfat, hque]
    exact fun hnone => (hlat hnone).append hqd

theorem Prefixed.quiet (h : Prefixed db fx s) (hws : writesOf gx = []) (htxn : s'.txn = s.txn)
    (hfat : s'.fatal = s.fatal) (hque : s'.queue = s.queue) (hdb : s'.db = s.db) :
    Prefixed db (fx ++ gx) s' :=
  h.send hws htxn hfat (hque.trans (append_nil _).symm) .nil hdb

/-- A key that is live when its remove is taken is inserted by an operation that is still queued. -/
theorem Holds.reinserted (hs : s.Holds m U) (hfat : s.fatal = none) (htxn : s.txn = none) {t : τ}
    {k : K} (hque : s.queue = .apply (.remove t [k]) :: queue) (hqd : Queued queue later)
    (hlive : s.memDb.containsKey t k = true) : ∃ v, .insert t k v ∈ later := by
  have hval := (hs.key t k).value
  obtain ⟨v, hv⟩ := Option.ne_none_iff_exists'.mp (containsKey_ne_none (hs.key t k) hlive).2
  obtain rfl := hs.pending hfat
  rw [hv, LayeredDatabase.pending, hs.closed hfat htxn, hque] at hval
  change some v = ((last effect (queue.filterMap DBMessage.op?) (t, k)).or
    (effect (.remove t [k]) (t, k))).getD _ at hval
  cases hlast : last effect (queue.filterMap DBMessage.op?) (t, k) with
  | none => simp [hlast, effect] at hval
  | some x =>
    refine ⟨v, hqd.insert_mem (hlast.trans ?_)⟩
    simpa [hlast] using hval.symm

theorem Holds.applied (hs : s.Holds m U) (hfat : s.fatal = none) (htxn : s.txn = none)
    {s₀ : LayeredDatabase τ K V} {w : WriteOp τ K V}
    (hque : s.queue = .apply (s₀.deferred w) :: queue) (hqd : Queued queue later)
    (happl : Applied done (w :: later) kept) (hrows : s.db = mapAfter db kept) :
    ∃ kept', Applied (done ++ [w]) later kept' ∧
      (s₀.deferred w).applyDirect s.memDb s.db = mapAfter db kept' := by
  have hkept : mapAfter db (kept ++ [w]) = (s₀.deferred w).applyTxn s.db := by
    rw [mapAfter_append, ← hrows, ← applyTo_eq]
    rfl
  cases w with
  | insert | clear => exact ⟨_, .applied happl, hkept.symm⟩
  | remove t k =>
    cases hlive : s.memDb.containsKey t k with
    | false =>
      refine ⟨_, .applied happl, hkept.symm ▸ ?_⟩
      simp [applyDirect, deferred, hlive]
    | true =>
      obtain ⟨v, hv⟩ := hs.reinserted hfat htxn hque hqd hlive
      refine ⟨kept, .skipped happl hv, ?_⟩
      simp [applyDirect, applyTxn, deferred, hlive, hrows]

theorem Prefixed.processed (h : Prefixed db fx s) (hs : s.Holds m U) (hfat : s.fatal = none)
    {msg : DBMessage τ K V} (hque : s.queue = msg :: queue) (fail : Option String) :
    let r := process { s with queue } msg fail
    Prefixed db (fx ++ r.1) r.2 := by
  intro r
  obtain ⟨done, later, kept, hissued, happl, hrows, hlat⟩ := h.rows
  have hlat := hlat hfat
  have hws : writesOf (fx ++ r.1) = done ++ later := by
    rw [writesOf_append, writesOf_process, append_nil, hissued]
  rw [hque] at hlat
  cases hlat with
  | barrier id hqd =>
    have hr : r.2 = { s with queue, writer := .evict (some id) } := by
      simp [r, process, h.txn]
    rw [hr]
    exact ⟨h.txn, done, later, kept, hws, happl, hrows, fun _ => hqd⟩
  | @write _ later s₀ w hqd =>
    cases fail with
    | some e =>
      refine ⟨h.txn, done, _, kept, hws, happl, hrows, fun hnone => ?_⟩
      exact absurd hnone (fatal_trip _)
    | none =>
      obtain ⟨kept', happl', hdb⟩ := hs.applied hfat h.txn hque hqd happl hrows
      have hr : r.2 = { s with
          queue
          db := (s₀.deferred w).applyDirect s.memDb s.db
          writer := .settle [s₀.deferred w] } := by
        simp [r, process, applyOp, h.txn]
      rw [hr]
      refine ⟨h.txn, _, later, kept', ?_, happl', hdb, fun _ => hqd⟩
      rw [hws, append_assoc]
      rfl

variable [Fintype τ] {cfg : CacheConfig} {e : LayeredEvent τ K V}

theorem Prefixed.step (h : Prefixed db fx s) (hs : s.Holds m U) (he : e.isDirect = true) :
    Prefixed db (fx ++ (s.step cfg e).1) (s.step cfg e).2 := by
  have hmove := move_step cfg s e
  generalize s.step cfg e = r at hmove
  cases hmove with
  | blocked | refused | rejected | readBegun | readEnded | touched | settled | aborted =>
    exact h.quiet rfl rfl rfl rfl rfl
  | evicted reply => exact h.quiet (writesOf_replies reply) rfl rfl rfl rfl
  | written op =>
    rw [issue_eq]
    exact h.send rfl rfl rfl rfl (.write s op .nil) rfl
  | barrier id => exact h.send rfl rfl rfl rfl (.barrier id .nil) rfl
  | discarded fail msg queue err hwr hque hfat =>
    obtain ⟨done, later, kept, hissued, happl, hrows, -⟩ := h.rows
    refine ⟨h.txn, done, later, kept, ?_, happl, hrows, fun hnone => ?_⟩
    · rw [writesOf_append, writesOf_discard, append_nil]
      exact hissued
    · cases hfat.symm.trans hnone
  | processed fail msg queue hwr hque hfat =>
    exact h.processed hs hfat hque fail
  | started | txnWritten | archived | archivedNone | abandoned | committed | dropped => cases he

/-- Whenever the node crashes. -/
theorem crash_leaves_prefix (cfg : CacheConfig) (db : Tables τ K V)
    (events : List (LayeredEvent τ K V)) (hdirect : ∀ e ∈ events, e.isDirect = true) :
    let r := (openWith db).run cfg events
    ∃ done later kept, writesOf r.1 = done ++ later ∧ Applied done later kept ∧
      r.2.db = mapAfter db kept := by
  have hstart : Prefixed db [] (openWith db) := ⟨rfl, [], [], [], rfl, .nil _, rfl, fun _ => .nil⟩
  have hrun := Reactor.run_history_of (Q := fun fx s => Prefixed db fx s ∧ ∃ m, s.Represents m)
    (P := fun _ (e : LayeredEvent τ K V) => e.isDirect = true) (fun fx s e ⟨h, m, U, hs⟩ he => by
      have harchives : e.archives = false := by
        cases e <;> first | rfl | cases he
      exact ⟨h.step hs he, _, Represents.step ⟨U, hs⟩ cfg harchives⟩)
    ⟨hstart, db, represents_openWith db⟩ (Reactor.always_of_forall (fun e he _ => hdirect e he) _)
  obtain ⟨done, later, kept, hissued, happlied, hrows, -⟩ := hrun.1.rows
  exact ⟨done, later, kept, hissued, happlied, hrows⟩

end LayeredDatabase

end

namespace LayeredDatabase

def oldRow : Tables Unit Nat Nat := fun _ => (∅ : Std.ExtTreeMap Nat Nat).insert 1 10

/-- The key is inserted again before the writer takes its remove. -/
def reinserts : List (LayeredEvent Unit Nat Nat) :=
  [.write (.remove () 1) 0, .write (.insert () 2 20) 0, .write (.insert () 1 11) 0, .recv none,
    .settle, .evict, .recv none]

theorem crash_leaves_prefix_reinserts :
    let r := (openWith oldRow).run ⟨8⟩ reinserts
    ∃ done later kept, writesOf r.1 = done ++ later ∧ Applied done later kept ∧
      r.2.db = mapAfter oldRow kept := by
  exact crash_leaves_prefix ⟨8⟩ oldRow reinserts (by decide)

/-- The old value is there beside the next insert, as after no prefix of what was issued. -/
theorem crash_keeps_removed :
    let r := (openWith oldRow).run ⟨8⟩ reinserts
    (r.2.db ())[1]? = some 10 ∧ (r.2.db ())[2]? = some 20 ∧ ∀ ops ∈ (writesOf r.1).inits,
      (mapAfter oldRow ops ())[1]? = some 10 → (mapAfter oldRow ops ())[2]? = none := by
  decide +kernel

end LayeredDatabase

end Axyl
