import Axyl.Storage.LayeredKey
import Axyl.Storage.LayeredStep

/-! The two tiers and the queue together stand for one map. Every event keeps this, also a
transaction that is dropped and a failure of the persistent tier. -/

namespace Axyl
open StoreType List LayeredDatabase List.Subset DBMessage WriteLog
open Std (ExtTreeMap)
open OrderedKeys
open DeferredOp

section
variable {τ K V : Type} [LinearOrder τ] [LinearOrder K]

def DBMessage.op? : DBMessage τ K V → Option (DeferredOp τ K V)
  | .apply op => some op
  | _ => none

def LayeredEffect.wrote? : LayeredEffect τ K V → Option (WriteOp τ K V)
  | .wrote op => some op
  | _ => none

def writesOf (effects : List (LayeredEffect τ K V)) : List (WriteOp τ K V) :=
  effects.filterMap LayeredEffect.wrote?

def mapAfter (m : Tables τ K V) (ops : List (WriteOp τ K V)) : Tables τ K V :=
  ops.foldl WriteOp.applyTo m

omit [LinearOrder τ] [LinearOrder K] in
theorem writesOf_append (a b : List (LayeredEffect τ K V)) :
    writesOf (a ++ b) = writesOf a ++ writesOf b :=
  filterMap_append

theorem mapAfter_append (m : Tables τ K V) (a b : List (WriteOp τ K V)) :
    mapAfter m (a ++ b) = mapAfter (mapAfter m a) b :=
  foldl_append

namespace LayeredDatabase

def pending (s : LayeredDatabase τ K V) : List (DeferredOp τ K V) :=
  s.committedOps ++ s.queue.filterMap op?

def settling (s : LayeredDatabase τ K V) : List (DeferredOp τ K V) :=
  match s.writer with
  | .settle ops => ops
  | _ => []

/-- `U` are the operations that the map has and the persistent tier lacks. A store that has failed
loses some of them. -/
structure Holds (m : Tables τ K V) (U : List (DeferredOp τ K V)) (s : LayeredDatabase τ K V) :
    Prop where
  pending : s.fatal = none → U = s.pending
  closed : s.fatal = none → s.txn = none → s.committedOps = []
  rows : s.fatal = none → ∀ rows, s.txn = some rows → rows = s.committedOps.foldl applyTxn s.db
  key : ∀ t k, KeyInv t k (m t)[k]? (s.memDb.row t k) (s.memDb t).clearing (s.db t)[k]? s.settling U
  alive : s.aborted = false

def Represents (s : LayeredDatabase τ K V) (m : Tables τ K V) : Prop := ∃ U, s.Holds m U

theorem represents_openWith (db : Tables τ K V) : (openWith db).Represents db := by
  refine ⟨[], fun _ => rfl, fun _ _ => rfl, nofun, fun t k => ?_, rfl⟩
  exact ⟨fun h => absurd rfl h, fun _ => rfl, rfl, fun _ ⟨_, hop, _⟩ => (nomatch hop),
    fun _ _ ⟨_, hop, _⟩ => (nomatch hop), nofun⟩

variable {m : Tables τ K V} {U : List (DeferredOp τ K V)} {s : LayeredDatabase τ K V}

/-! Producers. -/

def deferred (s : LayeredDatabase τ K V) : WriteOp τ K V → DeferredOp τ K V
  | .insert t k v => .insert t k v
  | .remove t k => .remove t [k]
  | .clear t => .clear t (s.memDb.clearTableImpl t).1

theorem applyTo_eq (op : WriteOp τ K V) : op.applyTo m = (s.deferred op).applyTxn m := by
  cases op <;> rfl

theorem queue_issue (op : WriteOp τ K V) (now : Nat) :
    (s.issue op now).queue = s.queue ++ [.apply (s.deferred op)] := by
  cases op <;> rfl

theorem issue_eq (op : WriteOp τ K V) (now : Nat) : s.issue op now =
      { s with memDb := (s.issue op now).memDb, queue := s.queue ++ [.apply (s.deferred op)] } := by
  cases op <;> rfl

variable {D : List (DeferredOp τ K V)} {s' : LayeredDatabase τ K V} {op : DeferredOp τ K V}

theorem row_issue (op : WriteOp τ K V) (now : Nat) (t : τ) (k : K) :
    Issued (s.deferred op) t k (s.memDb.row t k) ((s.issue op now).memDb.row t k) := by
  cases op with
  | insert t' k' v =>
    by_cases hkey : t = t' ∧ k = k'
    · obtain ⟨rfl, rfl⟩ := hkey
      exact .inr ⟨some v, if_pos rfl, if_pos ⟨rfl, rfl⟩, rowIs_insertImpl now v⟩
    · exact .inl ⟨row_insertImpl now v hkey, if_neg hkey, .inr id⟩
  | remove t' k' =>
    by_cases hkey : t = t' ∧ k = k'
    · obtain ⟨rfl, rfl⟩ := hkey
      refine .inr ⟨none, if_pos ⟨rfl, mem_singleton_self k⟩, ?_, rowIs_removeImpl now⟩
      exact (if_pos rfl).trans count_singleton_self
    · refine .inl ⟨row_removeImpl now hkey, ?_, .inr id⟩
      show (if t = t' then [k'].count k else 0) = 0
      split
      · next ht => exact count_eq_zero.mpr fun hk => hkey ⟨ht, mem_singleton.mp hk⟩
      · rfl
  | clear t' =>
    by_cases ht : t = t'
    · subst ht
      have howned : (s.deferred (.clear t)).owned t k = if s.memDb.row t k = none then 0 else 1 :=
        (if_pos rfl).trans count_clearTableImpl
      by_cases hr : s.memDb.row t k = none
      · refine .inl ⟨?_, howned.trans (if_pos hr), .inl hr⟩
        exact row_clearTableImpl.trans (by rw [hr]; rfl)
      · exact .inr ⟨none, if_pos rfl, howned.trans (if_neg hr), rowIs_clearTableImpl hr⟩
    · exact .inl ⟨congrArg (fun table : StoreTable K V => table.rows[k]?) (clearTableImpl_of_ne ht),
        if_neg ht, .inr ht⟩

theorem clearing_issue (op : WriteOp τ K V) (now : Nat) (t : τ) :
    ((s.issue op now).memDb t).clearing = true ↔
      (s.memDb t).clearing = true ∨ (s.deferred op).Clears t := by
  cases op with
  | insert t' k' v =>
    show (s.memDb.insertImpl t' k' v now t).clearing = true ↔ _
    rw [clearing_insertImpl]
    exact (or_iff_left id).symm
  | remove t' k' =>
    show (s.memDb.removeImpl t' k' now t).clearing = true ↔ _
    rw [clearing_removeImpl]
    exact (or_iff_left id).symm
  | clear t' =>
    show ((s.memDb.clearTableImpl t').2 t).clearing = true ↔ _ ∨ t = t'
    by_cases ht : t = t'
    · subst ht
      simp [clearing_clearTableImpl]
    · rw [clearTableImpl_of_ne ht, or_iff_left ht]

section
variable (h : s.Holds m U)
include h

theorem Holds.issue (hfat : s.fatal = none) (op : WriteOp τ K V) (now : Nat) :
    (s.issue op now).Holds (op.applyTo m) (U ++ [s.deferred op]) := by
  have hkey : ∀ t k, KeyInv t k (op.applyTo m t)[k]? ((s.issue op now).memDb.row t k)
      ((s.issue op now).memDb t).clearing (s.db t)[k]? s.settling (U ++ [s.deferred op]) := by
    intro t k
    rw [applyTo_eq (s := s), get_applyTxn]
    exact (h.key t k).issue (row_issue op now t k) (clearing_issue op now t)
  rw [issue_eq]
  refine ⟨fun _ => ?_, h.closed, h.rows, hkey, h.alive⟩
  rw [h.pending hfat]
  unfold LayeredDatabase.pending
  rw [filterMap_append, append_assoc]
  rfl

theorem Holds.of_fatal (hfat : s'.fatal ≠ none) (hmem : s'.memDb = s.memDb) (hdb : s'.db = s.db)
    (hwr : s'.writer = s.writer) (halive : s'.aborted = s.aborted) : s'.Holds m U := by
  refine ⟨fun hnone => absurd hnone hfat, fun hnone => absurd hnone hfat,
    fun hnone => absurd hnone hfat, fun t k => ?_, halive.trans h.alive⟩
  unfold settling
  rw [hmem, hdb, hwr]
  exact h.key t k

variable {msg : DBMessage τ K V}

omit h in
omit [LinearOrder τ] in
theorem pending_send (hmsg : msg.op? = none) : (s.send msg).pending = s.pending := by
  unfold pending send
  rw [filterMap_append, filterMap_cons_none hmsg, filterMap_nil, append_nil]

theorem Holds.send (hmsg : msg.op? = none) (lock : MemLock) :
    ({ s with lock := lock }.send msg).Holds m U :=
  { h with pending := fun hfat => (h.pending hfat).trans (pending_send hmsg).symm }

theorem Holds.lock (lock : MemLock) : Holds m U { s with lock := lock } :=
  { h with }

theorem Holds.touch (t : τ) (k : K) (now : Nat) :
    Holds m U { s with memDb := s.memDb.touchRow t k now } := by
  refine { h with key := fun t' k' => ?_ }
  rw [clearing_touchRow]
  exact (h.key t' k').touch (released_touchRow now)

end

/-! The writer. -/

omit [LinearOrder τ] in
theorem fatal_trip (e : FatalError) : (s.trip e).fatal ≠ none := by
  unfold trip
  cases s.fatal <;> exact Option.some_ne_none _

theorem get_applyDirect (memDb : StoreType τ K V) (db : Tables τ K V) (op : DeferredOp τ K V)
    (t : τ) (k : K) : (op.applyDirect memDb db t)[k]? = (op.effect (t, k)).getD (db t)[k]? ∨
      memDb.containsKey t k = true ∧ op.effect (t, k) = some none := by
  cases op with
  | insert t' k' v | clear t' keys => exact .inl (get_applyTxn db _ t k)
  | remove t' keys =>
    rw [applyDirect, get_applyTxn]
    by_cases hkey : t = t' ∧ k ∈ keys
    · obtain ⟨rfl, hk⟩ := hkey
      cases hlive : memDb.containsKey t k with
      | true => exact .inr ⟨rfl, if_pos ⟨rfl, hk⟩⟩
      | false =>
        refine .inl ?_
        have hkept : k ∈ keys.filter fun k => !memDb.containsKey t k := by
          rw [mem_filter, hlive]
          exact ⟨hk, rfl⟩
        rw [effect, effect, if_pos ⟨rfl, hkept⟩, if_pos ⟨rfl, hk⟩]
    · refine .inl ?_
      rw [effect, effect, if_neg fun h => hkey ⟨h.1, (mem_filter.mp h.2).1⟩, if_neg hkey]

theorem containsKey_ne_none {memDb : StoreType τ K V} {t : τ} {k : K} {x : Option V}
    {clearing : Bool} {d : Option V} (h : KeyInv t k x (memDb.row t k) clearing d D U)
    (hlive : memDb.containsKey t k = true) : memDb.row t k ≠ none ∧ x ≠ none := by
  obtain ⟨e, he, htomb⟩ := (Option.any_eq_true _ _).mp hlive
  have hrow : memDb.row t k = some e := he
  have hne : memDb.row t k ≠ none := by
    rw [hrow]
    exact Option.some_ne_none e
  refine ⟨hne, fun hx => ?_⟩
  obtain ⟨e', he', his⟩ := (h.present hne).1
  rw [hrow] at he'
  cases he'
  rw [his.tombstoned, hx] at htomb
  cases htomb

variable {queue : List (DBMessage τ K V)}

omit [LinearOrder τ] in
theorem pending_cons (hque : s.queue = msg :: queue) (hmsg : msg.op? = none) :
    pending { s with queue } = s.pending := by
  unfold pending
  rw [hque, filterMap_cons_none hmsg]

omit [LinearOrder τ] in
theorem pending_apply {op : DeferredOp τ K V} (hque : s.queue = .apply op :: queue) :
    s.pending = s.committedOps ++ op :: queue.filterMap op? := by
  unfold pending
  rw [hque]
  rfl

omit [LinearOrder τ] in
theorem settling_commit (ops : List (DeferredOp τ K V)) :
    settling { s with writer := if ops.isEmpty then .evict none else .settle ops } = ops := by
  cases ops <;> rfl

omit [LinearOrder τ] in
theorem settling_recv (hwr : s.writer = .recv) : s.settling = [] := by
  unfold settling
  rw [hwr]

/-- What the writer makes of a message that does not fail: operations move on towards it, and those
that it is about to settle have reached the persistent tier. -/
structure Taken (s s' : LayeredDatabase τ K V) : Prop where
  unsettled : s'.settling ++ s'.pending = s.pending
  closed : s'.txn = none → s'.committedOps = []
  rows : ∀ rows, s'.txn = some rows → rows = s'.committedOps.foldl applyTxn s'.db
  db : ∀ t k, (s'.db t)[k]? = (last effect s'.settling (t, k)).getD (s.db t)[k]? ∨
    s.memDb.containsKey t k = true ∧ last effect s'.settling (t, k) = some none

theorem taken_process (hwr : s.writer = .recv) (hque : s.queue = msg :: queue)
    (hclosed : s.txn = none → s.committedOps = [])
    (hrows : ∀ rows, s.txn = some rows → rows = s.committedOps.foldl applyTxn s.db)
    (fail : Option String) :
    let r := (process { s with queue } msg fail).2
    (r.fatal ≠ none ∧ r.db = s.db ∧ r.writer = s.writer) ∨ Taken s r := by
  have hnone : settling { s with queue } = [] := settling_recv hwr
  have hsame : ∀ t k, (s.db t)[k]? =
      (last effect (settling { s with queue }) (t, k)).getD (s.db t)[k]? := by
    rw [hnone]
    exact fun _ _ => rfl
  have hr := processed_process { s with queue } msg fail
  generalize process { s with queue } msg fail = r at hr
  cases hr with
  | failed => exact .inl ⟨fatal_trip _, rfl, rfl⟩
  | opened htxn =>
    refine .inr ⟨(congrArg (· ++ _) hnone).trans (pending_cons hque rfl), nofun, ?_,
      fun t k => .inl (hsame t k)⟩
    rintro _ ⟨⟩
    rw [hclosed htxn]
    rfl
  | committed rows htxn =>
    have hset := settling_commit (s := { s with queue, db := rows }) s.committedOps
    refine .inr ⟨?_, fun _ => rfl, nofun, fun t k => .inl ?_⟩
    · rw [← pending_cons hque rfl]
      exact congrArg (· ++ _) hset
    · refine Eq.trans ?_ (congrArg (fun ops => (last effect ops (t, k)).getD _) hset.symm)
      rw [← get_foldl_applyTxn, ← hrows rows htxn]
  | joined op rows htxn =>
    refine .inr ⟨?_, nofun, ?_, fun t k => .inl (hsame t k)⟩
    · rw [pending_apply hque]
      exact (congrArg (· ++ _) hnone).trans (append_assoc s.committedOps [op] _)
    · rintro _ ⟨⟩
      rw [foldl_append, ← hrows rows htxn]
      rfl
  | applied op htxn =>
    have hempty := hclosed htxn
    refine .inr ⟨?_, fun _ => hempty, fun rows hsome => ?_, get_applyDirect s.memDb s.db op⟩
    · rw [pending_apply hque, hempty]
      rfl
    · cases htxn.symm.trans hsome
  | answered id =>
    exact .inr ⟨(congrArg (· ++ _) hnone).trans (pending_cons hque rfl), hclosed, hrows,
      fun t k => .inl (hsame t k)⟩
  | awaited id => exact .inr ⟨pending_cons hque rfl, hclosed, hrows, fun t k => .inl rfl⟩

theorem Holds.process (h : s.Holds m U) (hwr : s.writer = .recv)
    (hque : s.queue = msg :: queue) (hfat : s.fatal = none) (fail : Option String) :
    ∃ U', (process { s with queue } msg fail).2.Holds m U' ∧ U' ⊆ U := by
  obtain ⟨hmem, -, -, halive⟩ := frame_process { s with queue } msg fail
  rcases taken_process hwr hque (h.closed hfat) (h.rows hfat) fail with ⟨hfail, hdb, hwr'⟩ | htaken
  · exact ⟨U, h.of_fatal hfail hmem hdb hwr' halive, refl U⟩
  · have hU := (h.pending hfat).trans htaken.unsettled.symm
    refine ⟨_, ⟨fun _ => rfl, fun _ => htaken.closed, fun _ => htaken.rows, fun t k => ?_,
      halive.trans h.alive⟩, hU ▸ subset_append_right _ _⟩
    have hkey := h.key t k
    rw [settling_recv hwr, hU] at hkey
    rw [hmem]
    exact hkey.apply ((htaken.db t k).imp_right fun hlive =>
      ⟨containsKey_ne_none hkey hlive.1, hlive.2⟩)

theorem writesOf_process (s : LayeredDatabase τ K V) (msg : DBMessage τ K V)
    (fail : Option String) : writesOf (s.process msg fail).1 = [] := by
  have hr := processed_process s msg fail
  generalize s.process msg fail = r at hr
  cases hr <;> rfl

section
variable {heap heap' : EvictionHeap τ K} {memDb memDb' : StoreType τ K V}

section
variable (happ : op.onApplied memDb heap = some (heap', memDb'))
include happ

theorem released_onApplied (t : τ) (k : K) :
    Released (op.owned t k) (memDb.row t k) (memDb'.row t k) := by
  cases op with
  | insert t' k' v => exact released_onOpApplied happ
  | remove t' keys => exact released_onKeysApplied happ
  | clear t' keys => exact released_onClearApplied happ

theorem clearing_onApplied (t : τ) : (op.Clears t → (memDb' t).clearing = false) ∧
    (¬ op.Clears t → (memDb' t).clearing = (memDb t).clearing) := by
  cases op with
  | insert t' k' v => exact ⟨nofun, fun _ => clearing_onOpApplied happ⟩
  | remove t' keys => exact ⟨nofun, fun _ => clearing_onKeysApplied happ⟩
  | clear t' keys =>
    have hflag : (memDb' t).clearing = _ := clearing_onClearApplied happ
    rw [hflag]
    exact ⟨fun hc => if_pos hc, fun hc => if_neg hc⟩

end

/-- Settling an operation that all rows count does not abort. -/
theorem onApplied_ne_none (h : ∀ t k, memDb.row t k ≠ none →
    ∃ x c, RowIs (memDb.row t k) x (c + op.owned t k)) : op.onApplied memDb heap ≠ none := by
  cases op with
  | insert t k v =>
    refine onOpApplied_ne_none fun hk => ?_
    obtain ⟨x, c, hx⟩ := h t k hk
    rw [hx.inFlightOf, owned, if_pos ⟨rfl, rfl⟩]
    exact Nat.succ_pos c
  | remove t keys =>
    refine onKeysApplied_ne_none fun k hk => ?_
    have hx := h t k hk
    rw [owned, if_pos rfl] at hx
    exact hx
  | clear t keys =>
    refine onKeysApplied_ne_none fun k hk => ?_
    rw [row_clearing] at hk ⊢
    have hx := h t k hk
    rw [owned, if_pos rfl] at hx
    exact hx

end

section
variable {ops : List (DeferredOp τ K V)} (hwr : s.writer = .settle (op :: ops))
include hwr

theorem Holds.settle (h : s.Holds m U) {evictionHeap : EvictionHeap τ K} {memDb : StoreType τ K V}
    (happ : op.onApplied s.memDb s.evictionHeap = some (evictionHeap, memDb)) : Holds m U { s with
      evictionHeap, memDb, writer := if ops.isEmpty then .evict none else .settle ops } := by
  refine { h with key := fun t k => ?_ }
  have hkey := h.key t k
  unfold settling at hkey
  rw [hwr] at hkey
  obtain ⟨hclr, hsame⟩ := clearing_onApplied happ t
  have hnew := hkey.settle (released_onApplied happ t k) hclr hsame
  rw [← settling_commit (s := s) ops] at hnew
  exact hnew

theorem Holds.settles (h : s.Holds m U) : op.onApplied s.memDb s.evictionHeap ≠ none := by
  refine onApplied_ne_none fun t k hk => ?_
  have hkey := (h.key t k).present hk
  unfold settling at hkey
  rw [hwr, cons_append, owners, Nat.add_comm] at hkey
  exact ⟨_, _, hkey.1⟩

end

theorem Holds.evict [Fintype τ] (h : s.Holds m U) {reply : Option Nat}
    (hwr : s.writer = .evict reply) (maxSize : Nat) : Holds m U { s with
      evictionHeap := (s.memDb.evictIfNeeded s.evictionHeap maxSize).1
      memDb := (s.memDb.evictIfNeeded s.evictionHeap maxSize).2
      writer := .recv } := by
  refine { h with key := fun t k => ?_ }
  have hkey := h.key t k
  unfold settling at hkey
  rw [hwr] at hkey
  obtain ⟨hrow, hflag⟩ := s.memDb.evicted_evictIfNeeded s.evictionHeap maxSize t
  have hnew := hkey.evict (hrow k)
  rw [← hflag] at hnew
  exact hnew

end LayeredDatabase

def LayeredEvent.archives : LayeredEvent τ K V → Bool
  | .evictPersistentBatch .. => true
  | _ => false

namespace LayeredDatabase

variable {m : Tables τ K V} {U : List (DeferredOp τ K V)} {s : LayeredDatabase τ K V} [Fintype τ]
  {cfg : CacheConfig}

omit [LinearOrder τ] [LinearOrder K] [Fintype τ] in
theorem writesOf_replies (reply : Option Nat) :
    writesOf (reply.toList.map fun id => (.persisted id none : LayeredEffect τ K V)) = [] := by
  cases reply <;> rfl

omit [LinearOrder τ] [LinearOrder K] [Fintype τ] in
theorem writesOf_discard (msg : DBMessage τ K V) (e : FatalError) :
    writesOf (discard msg e) = [] := by
  cases msg <;> rfl

variable {e : LayeredEvent τ K V} {r : LayeredResult τ K V}

theorem writes_move (hmove : Move cfg s e r) {op : WriteOp τ K V} (hop : op ∈ writesOf r.1) :
    ∃ now, e = .write op now ∨ e = .txnWrite op now := by
  cases hmove with
  | written op' now =>
    cases mem_singleton.mp hop
    exact ⟨now, .inl rfl⟩
  | txnWritten op' now =>
    cases mem_singleton.mp hop
    exact ⟨now, .inr rfl⟩
  | discarded fail msg queue e =>
    rw [writesOf_discard] at hop
    cases hop
  | processed fail msg =>
    rw [writesOf_process] at hop
    cases hop
  | evicted reply =>
    rw [writesOf_replies] at hop
    cases hop
  | _ => cases hop

theorem Holds.move (h : s.Holds m U) (hmove : Move cfg s e r) (he : e.archives = false) :
    ∃ U', r.2.Holds (mapAfter m (writesOf r.1)) U' ∧
      ∀ op ∈ U', op ∈ U ∨ ∃ w ∈ writesOf r.1, op = s.deferred w := by
  have hissue : ∀ (op : WriteOp τ K V) now, s.fatal = none →
      ∃ U', (s.issue op now).Holds (mapAfter m (writesOf [.wrote op])) U' ∧
        ∀ op' ∈ U', op' ∈ U ∨ ∃ w ∈ writesOf [.wrote op], op' = s.deferred w := by
    intro op now hfat
    refine ⟨_, h.issue hfat op now, fun op' hop' => ?_⟩
    rcases mem_append.mp hop' with hop' | hop'
    · exact .inl hop'
    · exact .inr ⟨op, mem_cons_self, mem_singleton.mp hop'⟩
  cases hmove with
  | blocked | refused | rejected => exact ⟨U, h, fun _ => .inl⟩
  | written op now hfat | txnWritten op now hfat => exact hissue op now hfat
  | started | committed | barrier => exact ⟨U, h.send rfl _, fun _ => .inl⟩
  | archivedNone | archived => cases he
  | abandoned | dropped | readBegun | readEnded => exact ⟨U, h.lock _, fun _ => .inl⟩
  | touched t k now => exact ⟨U, h.touch t k now, fun _ => .inl⟩
  | discarded fail msg queue e hwr hque hfat =>
    rw [writesOf_discard]
    refine ⟨U, h.of_fatal ?_ rfl rfl rfl rfl, fun _ => .inl⟩
    rw [hfat]
    exact Option.some_ne_none e
  | processed fail msg queue hwr hque hfat =>
    rw [writesOf_process]
    obtain ⟨U', h', hsub⟩ := h.process hwr hque hfat fail
    exact ⟨U', h', fun op hop => .inl (hsub hop)⟩
  | settled op ops heap memDb hwr happ => exact ⟨U, h.settle hwr happ, fun _ => .inl⟩
  | aborted op ops hwr hnone => exact absurd hnone (h.settles hwr)
  | evicted reply hwr =>
    rw [writesOf_replies]
    exact ⟨U, h.evict hwr cfg.maxSize, fun _ => .inl⟩

theorem Represents.step (h : s.Represents m) (cfg : CacheConfig) (he : e.archives = false) :
    (s.step cfg e).2.Represents (mapAfter m (writesOf (s.step cfg e).1)) := by
  obtain ⟨U, h⟩ := h
  obtain ⟨U', h', -⟩ := h.move (move_step cfg s e) he
  exact ⟨U', h'⟩

theorem Represents.run (h : s.Represents m) (cfg : CacheConfig) {evs : List (LayeredEvent τ K V)}
    (hevs : ∀ e ∈ evs, e.archives = false) :
    (s.run cfg evs).2.Represents (mapAfter m (writesOf (s.run cfg evs).1)) := by
  induction evs generalizing m s with
  | nil => exact h
  | cons e evs ih =>
    obtain ⟨he, hrest⟩ := forall_mem_cons.mp hevs
    show (run cfg (s.step cfg e).2 evs).2.Represents
      (mapAfter m (writesOf ((s.step cfg e).1 ++ (run cfg (s.step cfg e).2 evs).1)))
    rw [writesOf_append, mapAfter_append]
    exact ih (h.step cfg he) hrest

end LayeredDatabase

end

end Axyl
