import Axyl.Storage.LayeredDrain
import Mathlib.Data.Fintype.Basic

/-! Barriers of the layered store. Every call of `persist` or `sync_persist` has its own id, as it
has its own reply channel. -/

namespace Axyl
open List LayeredDatabase
open Std (ExtTreeMap)
open OrderedKeys
open DeferredOp

section
variable {τ K V : Type} [LinearOrder τ] [LinearOrder K]

def WriteOp.Touches (t : τ) (k : K) : WriteOp τ K V → Prop
  | .insert t' k' _ => t = t' ∧ k = k'
  | .remove t' k' => t = t' ∧ k = k'
  | .clear t' => t = t'

omit [LinearOrder τ] [LinearOrder K] in
theorem WriteOp.table_of_touches {t : τ} {k : K} {op : WriteOp τ K V} (h : op.Touches t k) :
    op.table = t := by
  cases op with
  | insert t' k' v | remove t' k' => exact h.1.symm
  | clear t' => exact Eq.symm h

namespace LayeredDatabase

variable {t : τ} {k : K} {id : Nat} {x : Option V} {s : LayeredDatabase τ K V} {m : Tables τ K V}
  {U : List (DeferredOp τ K V)}

theorem effect_deferred {op : WriteOp τ K V} (h : ¬ op.Touches t k) :
    (s.deferred op).effect (t, k) = none := by
  cases op with
  | insert t' k' v => exact if_neg fun heq => h ⟨congrArg Prod.fst heq, congrArg Prod.snd heq⟩
  | remove t' k' => exact if_neg fun hkey => h ⟨hkey.1, mem_singleton.mp hkey.2⟩
  | clear t' => exact if_neg h

theorem get_mapAfter {ops : List (WriteOp τ K V)} (h : ∀ op ∈ ops, ¬ op.Touches t k) :
    (mapAfter m ops t)[k]? = (m t)[k]? := by
  induction ops generalizing m with
  | nil => rfl
  | cons op ops ih =>
    obtain ⟨hop, hrest⟩ := forall_mem_cons.mp h
    show (mapAfter (op.applyTo m) ops t)[k]? = _
    rw [ih hrest, applyTo_eq (s := openWith m), get_applyTxn, effect_deferred hop]
    rfl

def Durable (t : τ) (k : K) (x : Option V) (s : LayeredDatabase τ K V) : Prop :=
  ∃ m U, s.Holds m U ∧ (m t)[k]? = x ∧ ∀ op ∈ U, op.effect (t, k) = none

theorem Durable.db_eq (h : s.Durable t k x) : (s.db t)[k]? = x := by
  obtain ⟨m, U, h, hx, hU⟩ := h
  have hval := (h.key t k).value
  rw [WriteLog.last_eq_none.mpr hU, hx] at hval
  exact hval.symm

structure Absent (id : Nat) (s : LayeredDatabase τ K V) : Prop where
  queue : .caughtUp id ∉ s.queue
  writer : s.writer ≠ .evict (some id)

/-- The barrier is queued. What was queued before it leaves no transaction open, and what is queued
after it is not about the key. -/
structure Awaited (id : Nat) (t : τ) (k : K) (older newer : List (DBMessage τ K V))
    (s : LayeredDatabase τ K V) : Prop where
  queue : s.queue = older ++ .caughtUp id :: newer
  older_ne : .caughtUp id ∉ older
  newer_ne : .caughtUp id ∉ newer
  writer : s.writer ≠ .evict (some id)
  closed : s.fatal = none → openAfter s.txn.isSome older ≠ some true
  untouched : ∀ op ∈ newer.filterMap DBMessage.op?, op.effect (t, k) = none

variable {old newer : List (DBMessage τ K V)}

theorem Awaited.send (h : s.Awaited id t k old newer) (msg : DBMessage τ K V)
    (hid : msg ≠ .caughtUp id) (hop : ∀ op, msg.op? = some op → op.effect (t, k) = none) :
    (s.send msg).Awaited id t k old (newer ++ [msg]) := by
  refine ⟨?_, h.older_ne, fun hmem => ?_, h.writer, h.closed, fun op hmem => ?_⟩
  · show s.queue ++ [msg] = _
    rw [h.queue, append_assoc]
    rfl
  · rcases mem_append.mp hmem with hmem | hmem
    · exact h.newer_ne hmem
    · exact hid (mem_singleton.mp hmem).symm
  · rw [filterMap_append, mem_append] at hmem
    rcases hmem with hmem | hmem
    · exact h.untouched op hmem
    · obtain ⟨msg', hmsg', hop'⟩ := mem_filterMap.mp hmem
      rw [mem_singleton.mp hmsg'] at hop'
      exact hop op hop'

theorem writer_process {msg : DBMessage τ K V} (hmsg : msg ≠ .caughtUp id)
    (hwr : s.writer ≠ .evict (some id)) (fail : Option String) :
    (s.process msg fail).2.writer ≠ .evict (some id) := by
  have hr := processed_process s msg fail
  generalize s.process msg fail = r at hr
  cases hr with
  | failed | opened | joined | answered => exact hwr
  | committed =>
    dsimp only
    split <;> exact nofun
  | applied => exact nofun
  | awaited id' =>
    rintro ⟨⟩
    exact hmsg rfl

variable [Fintype τ] {cfg : CacheConfig} {e : LayeredEvent τ K V} {r : LayeredResult τ K V}

section
variable (hmove : Move cfg s e r)
include hmove

theorem Durable.move (h : s.Durable t k x) (he : e.archives = false)
    (hws : ∀ op ∈ writesOf r.1, ¬ op.Touches t k) : r.2.Durable t k x := by
  obtain ⟨m, U, h, hx, hU⟩ := h
  obtain ⟨U', h', hU'⟩ := h.move hmove he
  refine ⟨_, U', h', (get_mapAfter hws).trans hx, fun op hop => ?_⟩
  rcases hU' op hop with hop | ⟨w, hw, rfl⟩
  · exact hU op hop
  · exact effect_deferred (hws w hw)

theorem reply_move (hrep : .persisted id none ∈ r.1) :
    s.writer = .evict (some id) ∨
      ∃ que, s.queue = .caughtUp id :: que ∧ s.fatal = none ∧ s.txn.isSome = true := by
  cases hmove with
  | discarded fail msg => cases msg <;> simp [discard] at hrep
  | processed fail msg que hwr hque hfat =>
    cases msg with
    | caughtUp id' =>
      unfold process at hrep
      dsimp only at hrep
      split at hrep
      · next hopen =>
        cases mem_singleton.mp hrep
        exact .inr ⟨que, hque, hfat, hopen⟩
      · cases hrep
    | _ => cases hrep
  | evicted reply hwr =>
    obtain ⟨id', hid', heq⟩ := mem_map.mp hrep
    cases heq
    refine .inl ?_
    rw [hwr, Option.mem_toList.mp hid']
  | _ => simp at hrep

theorem Absent.no_reply (h : s.Absent id) : .persisted id none ∉ r.1 := by
  intro hrep
  rcases reply_move hmove hrep with hwr | ⟨que, hque, -⟩
  · exact h.writer hwr
  · apply h.queue
    rw [hque]
    exact mem_cons_self

theorem Awaited.no_reply (h : s.Awaited id t k old newer) : .persisted id none ∉ r.1 := by
  intro hrep
  rcases reply_move hmove hrep with hwr | ⟨que, hque, hfat, hopen⟩
  · exact h.writer hwr
  · rw [h.queue] at hque
    cases old with
    | nil => exact h.closed hfat (congrArg some hopen)
    | cons msg old =>
      cases List.cons.inj hque with
      | intro hmsg _ =>
        apply h.older_ne
        rw [hmsg]
        exact mem_cons_self

theorem writer_move (hwr : s.writer ≠ .evict (some id))
    (hhead : ∀ queue, s.queue ≠ .caughtUp id :: queue) : r.2.writer ≠ .evict (some id) := by
  cases hmove with
  | written op now | txnWritten op now =>
    rw [issue_eq]
    exact hwr
  | processed failure msg queue _ hque =>
    refine writer_process (s := { s with queue }) ?_ hwr failure
    rintro rfl
    exact hhead queue hque
  | settled op ops =>
    split <;> exact nofun
  | evicted => exact nofun
  | _ => exact hwr

theorem Absent.move (h : s.Absent id) (hid : e ≠ .persist id) : r.2.Absent id := by
  refine ⟨?_, writer_move hmove h.writer fun que hque => h.queue ?_⟩
  · have hsend : ∀ msg : DBMessage τ K V, msg ≠ .caughtUp id → .caughtUp id ∉ s.queue ++ [msg] := by
      intro msg hmsg hmem
      rcases mem_append.mp hmem with hmem | hmem
      · exact h.queue hmem
      · exact hmsg (mem_singleton.mp hmem).symm
    cases hmove with
    | written op now | txnWritten op now =>
      rw [queue_issue]
      exact hsend _ nofun
    | started | archived | committed => exact hsend _ nofun
    | barrier id' =>
      refine hsend _ fun heq => ?_
      cases heq
      exact hid rfl
    | discarded fail msg que e hwr hque =>
      intro hmem
      apply h.queue
      rw [hque]
      exact mem_cons_of_mem _ hmem
    | processed fail msg que hwr hque =>
      rw [(frame_process _ msg fail).2.2.1]
      intro hmem
      apply h.queue
      rw [hque]
      exact mem_cons_of_mem _ hmem
    | _ => exact h.queue
  · rw [hque]
    exact mem_cons_self

omit hmove in
omit [Fintype τ] in
/-- The writer gets to the barrier with no transaction open: nothing older is left. -/
theorem Awaited.reached (h : s.Awaited id t k [] newer) (hhold : s.Holds m U)
    (hfat : s.fatal = none) : ∀ op ∈ U, op.effect (t, k) = none := by
  have htxn : s.txn = none := by
    cases htxn : s.txn with
    | none => rfl
    | some rows =>
      refine absurd ?_ (h.closed hfat)
      rw [htxn]
      rfl
  intro op hop
  apply h.untouched
  rw [hhold.pending hfat, pending, hhold.closed hfat htxn, h.queue] at hop
  exact hop

theorem Awaited.move (h : s.Awaited id t k old newer) (hhold : s.Holds m U) (hx : (m t)[k]? = x)
    (he : e.archives = false) (hid : e ≠ .persist id)
    (hws : ∀ op ∈ writesOf r.1, ¬ op.Touches t k) :
    r.2.Durable t k x ∨ r.2.Absent id ∨ ∃ old newer, r.2.Awaited id t k old newer := by
  cases hmove with
  | blocked | refused | rejected => exact .inr (.inr ⟨old, newer, h⟩)
  | archived | archivedNone => cases he
  | written op now | txnWritten op now =>
    refine .inr (.inr ⟨old, newer ++ [.apply (s.deferred op)], ?_⟩)
    have hsend : (s.send (.apply (s.deferred op))).Awaited id t k old _ :=
      h.send _ nofun fun op' hop' =>
        Option.some.inj hop' ▸ effect_deferred (hws op mem_cons_self)
    rw [issue_eq]
    exact { hsend with }
  | started =>
    have hsend := h.send .startTxn nofun nofun
    exact .inr (.inr ⟨old, _, { hsend with }⟩)
  | committed =>
    have hsend := h.send .commitTxn nofun nofun
    exact .inr (.inr ⟨old, _, { hsend with }⟩)
  | barrier id' =>
    refine .inr (.inr ⟨old, _, h.send _ (fun heq => ?_) nofun⟩)
    cases heq
    exact hid rfl
  | abandoned | dropped | readBegun | readEnded | touched | aborted =>
    exact .inr (.inr ⟨old, newer, { h with }⟩)
  | settled op ops =>
    refine .inr (.inr ⟨old, newer, { h with writer := ?_ }⟩)
    split <;> exact nofun
  | evicted =>
    exact .inr (.inr ⟨old, newer, { h with writer := nofun }⟩)
  | discarded failure msg queue err hwr hque hfat =>
    rw [h.queue] at hque
    cases old with
    | nil =>
      obtain ⟨-, rfl⟩ := List.cons.inj hque
      exact .inr (.inl ⟨h.newer_ne, h.writer⟩)
    | cons msg' old =>
      obtain ⟨rfl, rfl⟩ := List.cons.inj hque
      refine .inr (.inr ⟨old, newer, rfl, ?_, h.newer_ne, h.writer, ?_, h.untouched⟩)
      · exact fun hmem => h.older_ne (mem_cons_of_mem _ hmem)
      · intro hnone
        rw [hfat] at hnone
        cases hnone
  | processed failure msg queue hwr hque hfat hlock =>
    have hmove : Move cfg s (.recv failure) (process { s with queue } msg failure) :=
      .processed failure msg queue hwr hque hfat hlock
    rw [h.queue] at hque
    cases old with
    | nil =>
      have hdurable : s.Durable t k x := ⟨m, U, hhold, hx, h.reached hhold hfat⟩
      exact .inl (hdurable.move hmove rfl hws)
    | cons msg' old =>
      obtain ⟨rfl, rfl⟩ := List.cons.inj hque
      refine .inr (.inr ⟨old, newer, (frame_process _ msg' failure).2.2.1, ?_, h.newer_ne, ?_,
        ?_, h.untouched⟩)
      · exact fun hmem => h.older_ne (mem_cons_of_mem _ hmem)
      · refine writer_move hmove h.writer fun queue hque => h.older_ne ?_
        rw [h.queue] at hque
        rw [(List.cons.inj hque).1]
        exact mem_cons_self
      · intro hheal
        have hcls := h.closed hfat
        have hmark := mark_process hheal
        rw [openAfter_cons, hmark] at hcls
        exact hcls

end

/-! Runs. -/

theorem forall_writesOf_cons {e : LayeredEvent τ K V} {events : List (LayeredEvent τ K V)}
    {p : WriteOp τ K V → Prop} : (∀ op ∈ writesOf (s.run cfg (e :: events)).1, p op) ↔
      (∀ op ∈ writesOf (s.step cfg e).1, p op) ∧
        ∀ op ∈ writesOf ((s.step cfg e).2.run cfg events).1, p op := by
  rw [← forall_mem_append, ← writesOf_append]
  rfl

variable {evs : List (LayeredEvent τ K V)}

theorem Durable.run (h : s.Durable t k x) (hevs : ∀ e ∈ evs, e.archives = false)
    (hws : ∀ op ∈ writesOf (s.run cfg evs).1, ¬ op.Touches t k) :
    (s.run cfg evs).2.Durable t k x := by
  induction evs generalizing s with
  | nil => exact h
  | cons e evs ih =>
    obtain ⟨he, hrest⟩ := forall_mem_cons.mp hevs
    obtain ⟨hstep, hlat⟩ := forall_writesOf_cons.mp hws
    exact ih (h.move (move_step cfg s e) he hstep) hrest hlat

theorem Absent.run (h : s.Absent id) (hid : ∀ e ∈ evs, e ≠ .persist id) :
    (s.run cfg evs).2.Absent id ∧ .persisted id none ∉ (s.run cfg evs).1 := by
  induction evs generalizing s with
  | nil => exact ⟨h, not_mem_nil⟩
  | cons e evs ih =>
    obtain ⟨he, hrest⟩ := forall_mem_cons.mp hid
    obtain ⟨h', hrep⟩ := ih (h.move (move_step cfg s e) he) hrest
    refine ⟨h', fun hmem => ?_⟩
    rcases mem_append.mp hmem with hmem | hmem
    · exact h.no_reply (move_step cfg s e) hmem
    · exact hrep hmem

omit [LinearOrder τ] [Fintype τ] in
theorem absent_openWith (db : Tables τ K V) (id : Nat) : (openWith db).Absent id :=
  ⟨not_mem_nil, fun h => nomatch (show WriterPc.recv = .evict (some id) from h)⟩

theorem Awaited.run (h : s.Awaited id t k old newer) (hhold : s.Holds m U) (hx : (m t)[k]? = x)
    (hevs : ∀ e ∈ evs, e.archives = false) (hid : ∀ e ∈ evs, e ≠ .persist id)
    (hws : ∀ op ∈ writesOf (s.run cfg evs).1, ¬ op.Touches t k)
    (hrep : .persisted id none ∈ (s.run cfg evs).1) : (s.run cfg evs).2.Durable t k x := by
  induction evs generalizing s m U old newer with
  | nil => cases hrep
  | cons e evs ih =>
    obtain ⟨he, hrest⟩ := forall_mem_cons.mp hevs
    obtain ⟨hide, hidrest⟩ := forall_mem_cons.mp hid
    obtain ⟨hstep, hlat⟩ := forall_writesOf_cons.mp hws
    have hmove := move_step cfg s e
    have hrep' := (mem_append.mp hrep).resolve_left (h.no_reply hmove)
    rcases h.move hmove hhold hx he hide hstep with hdurable | habs | ⟨older', newer', h'⟩
    · exact hdurable.run hrest hlat
    · exact absurd hrep' (habs.run hidrest).2
    · obtain ⟨U', hhold', -⟩ := hhold.move hmove he
      exact ih h' hhold' ((get_mapAfter hstep).trans hx) hrest hidrest hlat hrep'

/-- A barrier that is called while the queue leaves no transaction open. When it has returned `Ok`,
a key that nobody writes any more is in the persistent tier as it was at the call. -/
theorem persist_is_barrier (cfg : CacheConfig) (db : Tables τ K V) (id : Nat)
    (before after : List (LayeredEvent τ K V))
    (hevents : ∀ e ∈ before ++ after, e.archives = false ∧ e ≠ .persist id)
    (hclosed : (run cfg (openWith db) before).2.leavesOpen ≠ some true) :
    let r₀ := run cfg (openWith db) before
    let r := run cfg r₀.2 (.persist id :: after)
    .persisted id none ∈ r.1 → ∀ t k, (∀ op ∈ writesOf r.1, ¬ op.Touches t k) →
      (r.2.db t)[k]? = (mapAfter db (writesOf r₀.1) t)[k]? := by
  intro r₀ r hreply t k hwrites
  obtain ⟨hbefore, hafter⟩ := forall_mem_append.mp hevents
  have harchives : ∀ e ∈ after, e.archives = false := fun e he => (hafter e he).1
  have hid : ∀ e ∈ after, e ≠ .persist id := fun e he => (hafter e he).2
  have habsent : r₀.2.Absent id :=
    (Absent.run (absent_openWith db id) fun e he => (hbefore e he).2).1
  obtain ⟨U, hholds⟩ := (represents_openWith db).run cfg fun e he => (hbefore e he).1
  obtain ⟨-, hlater⟩ := forall_writesOf_cons.mp hwrites
  have hreply' : .persisted id none ∈ (run cfg (r₀.2.step cfg (.persist id)).2 after).1 :=
    (mem_append.mp hreply).resolve_left (habsent.no_reply (move_step cfg r₀.2 (.persist id)))
  show ((run cfg (r₀.2.step cfg (.persist id)).2 after).2.db t)[k]? = _
  rw [step_of_alive hholds.alive] at hlater hreply' ⊢
  unfold handle persist at hlater hreply' ⊢
  cases hfatal : r₀.2.fatal with
  | some err =>
    rw [hfatal] at hreply'
    exact absurd hreply' (habsent.run hid).2
  | none =>
    rw [hfatal] at hlater hreply'
    have hawaited : (r₀.2.send (.caughtUp id)).Awaited id t k r₀.2.queue [] :=
      ⟨rfl, habsent.queue, not_mem_nil, habsent.writer, fun _ => hclosed, nofun⟩
    exact (hawaited.run (hholds.send rfl r₀.2.lock) rfl harchives hid hlater hreply').db_eq

end LayeredDatabase

end

namespace LayeredDatabase

def insertOne : List (LayeredEvent Unit Nat Nat) := [.write (.insert () 1 10) 0]

def writeBack : List (LayeredEvent Unit Nat Nat) := [.recv none, .settle, .evict, .recv none, .evict]

theorem persist_is_barrier_insert :
    let r := run ⟨1⟩ (run ⟨1⟩ (openWith fun _ => ∅) insertOne).2 (.persist 7 :: writeBack)
    .persisted 7 none ∈ r.1 ∧ (r.2.db ())[1]? = some 10 := by
  intro r
  have hreply : .persisted 7 none ∈ r.1 := by decide +kernel
  have hvalue : (mapAfter (fun _ => ∅)
      (writesOf (run ⟨1⟩ (openWith fun _ => ∅) insertOne).1) ())[1]? = some 10 := by decide +kernel
  refine ⟨hreply, (persist_is_barrier ⟨1⟩ (fun _ => ∅) 7 insertOne writeBack (by decide)
    (by decide +kernel) hreply () 1 ?_).trans hvalue⟩
  exact nofun

/-- The insert joins a transaction that was dropped. The barrier returns `Ok`, and the next
transaction throws the insert away. -/
theorem persist_skips_dropped_txn :
    let r := run ⟨1⟩ (openWith fun _ => ∅)
      ([.writeTxn, .dropTxn] ++ insertOne ++ [.persist 7, .recv none, .recv none, .recv none])
    let r' := run ⟨1⟩ r.2 [.writeTxn, .recv none]
    (.persisted 7 none ∈ r.1 ∧ writesOf r.1 = [.insert () 1 10] ∧ (r.2.db ())[1]? = none) ∧
      (r'.2.fatal = some .startTxnWhileOpen ∧ r'.2.txn.isNone ∧ r'.2.queue = [] ∧
        (r'.2.db ())[1]? = none) := by
  decide +kernel

end LayeredDatabase

end Axyl
