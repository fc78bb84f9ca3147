import Axyl.Storage.LayeredDrain
import Axyl.Storage.LayeredView
import Mathlib.Data.Fintype.Basic

/-! The layered store against one map for every table. -/

namespace Axyl
open List LayeredDbTx LayeredDatabase
open Std ExtTreeMap
open OrderedKeys
open MergeJoin

def LayeredEvent.issues {τ K V : Type} : LayeredEvent τ K V → Bool
  | .write .. => true
  | .txnWrite .. => true
  | .evictPersistentBatch .. => true
  | _ => false

def Quiet {τ K V : Type} (w : List (LayeredEvent τ K V)) : Prop := ∀ e ∈ w, e.issues = false

/-- Rows of the memory tier go away and none comes; pending clears end and none begins. -/
structure Fades {τ K V : Type} [LinearOrder K] (store store' : StoreType τ K V) : Prop where
  row : ∀ t k, store.row t k = none → store'.row t k = none
  clearing : ∀ t, (store t).clearing = false → (store' t).clearing = false

namespace Fades

variable {τ K V : Type} [LinearOrder K] {store store' store'' : StoreType τ K V}

theorem refl (store : StoreType τ K V) : Fades store store := ⟨fun _ _ => id, fun _ => id⟩

theorem trans (h : Fades store store') (h' : Fades store' store'') : Fades store store'' :=
  ⟨fun t k hk => h'.row t k (h.row t k hk), fun t ht => h'.clearing t (h.clearing t ht)⟩

variable [LinearOrder τ]

section
variable (store : StoreType τ K V)

theorem touchRow (t : τ) (k : K) (now : Nat) : Fades store (store.touchRow t k now) := by
  refine ⟨fun t' k' => (StoreType.released_touchRow now).absent, fun t' ht => ?_⟩
  rw [StoreType.clearing_touchRow]
  exact ht

theorem onApplied {heap heap' : EvictionHeap τ K} {op : DeferredOp τ K V}
    (happ : op.onApplied store heap = some (heap', store')) : Fades store store' := by
  refine ⟨fun t k => (released_onApplied happ t k).absent, fun t ht => ?_⟩
  obtain ⟨hclr, hoth⟩ := clearing_onApplied happ t
  by_cases hop : op.Clears t
  · exact hclr hop
  · exact (hoth hop).trans ht

theorem evictIfNeeded [Fintype τ] (heap : EvictionHeap τ K) (maxSize : Nat) :
    Fades store (store.evictIfNeeded heap maxSize).2 := by
  have hspec := store.evicted_evictIfNeeded heap maxSize
  refine ⟨fun t k hk => ?_, fun t ht => ?_⟩
  · rcases (hspec t).1 k with hsame | ⟨hnone, -⟩
    · exact hsame.trans hk
    · exact hnone
  · exact (hspec t).2.trans ht

end

end Fades

namespace LayeredDatabase

section
variable {τ K V : Type} [LinearOrder τ] [LinearOrder K] [Fintype τ] {cfg : CacheConfig}
  {s : LayeredDatabase τ K V} {m : Tables τ K V} {t : τ} {k : K}
  {w w₁ w₂ w₃ : List (LayeredEvent τ K V)}

variable {e : LayeredEvent τ K V}

theorem quiet_move {r : LayeredResult τ K V} (hmove : Move cfg s e r)
    (he : e.issues = false) : writesOf r.1 = [] ∧ Fades s.memDb r.2.memDb := by
  cases hmove with
  | written | txnWritten | archivedNone | archived => cases he
  | touched t k now => exact ⟨rfl, Fades.touchRow s.memDb t k now⟩
  | discarded fail msg que e => exact ⟨writesOf_discard msg e, Fades.refl _⟩
  | processed fail msg que =>
    refine ⟨writesOf_process _ msg fail, ?_⟩
    rw [(frame_process _ msg fail).1]
    exact Fades.refl _
  | settled op ops heap memDb hwr happ => exact ⟨rfl, Fades.onApplied s.memDb happ⟩
  | evicted reply =>
    exact ⟨writesOf_replies reply, Fades.evictIfNeeded s.memDb s.evictionHeap cfg.maxSize⟩
  | _ => exact ⟨rfl, Fades.refl _⟩

omit [LinearOrder τ] [LinearOrder K] [Fintype τ] in
theorem archives_of_issues (he : e.issues = false) : e.archives = false := by
  cases e <;> first | rfl | cases he

theorem after_append (w w' : List (LayeredEvent τ K V)) :
    s.after cfg (w ++ w') = (s.after cfg w).after cfg w' := by
  unfold after run
  rw [Reactor.run_append]

theorem Represents.quiet (h : s.Represents m) (cfg : CacheConfig) (hw : Quiet w) :
    (s.after cfg w).Represents m ∧ Fades s.memDb (s.after cfg w).memDb := by
  induction w generalizing s with
  | nil => exact ⟨h, Fades.refl _⟩
  | cons e w ih =>
    obtain ⟨he, hrest⟩ := forall_mem_cons.mp hw
    obtain ⟨hws, hfades⟩ := quiet_move (move_step cfg s e) he
    have hstep := h.step cfg (archives_of_issues he)
    rw [hws] at hstep
    obtain ⟨h', hfades'⟩ := ih hstep hrest
    exact ⟨h', hfades.trans hfades'⟩

/-! Direct lookups. -/

section
variable (h : s.Represents m)
include h

omit [Fintype τ] in
/-- A key that is not cached reads through to the persistent tier, unless a clear is pending. -/
theorem Represents.of_absent (hk : s.memDb.row t k = none) :
    (if s.memDb.isClearing t then none else (s.db t)[k]?) = (m t)[k]? := by
  rw [← (h.shows t).absent k hk]
  unfold dbRows
  cases s.memDb.isClearing t with
  | true => exact getElem?_empty.symm
  | false => rfl

theorem Represents.miss (cfg : CacheConfig) (hw : Quiet w) (hk : s.memDb.row t k = none) :
    (if s.memDb.isClearing t then none else ((s.after cfg w).db t)[k]?) = (m t)[k]? := by
  obtain ⟨h', hfades⟩ := h.quiet cfg hw
  cases hclr : s.memDb.isClearing t with
  | true =>
    have hmiss := h.of_absent hk
    rw [hclr] at hmiss
    exact hmiss
  | false =>
    have hmiss := h'.of_absent (hfades.row t k hk)
    have hlat : (s.after cfg w).memDb.isClearing t = false := hfades.clearing t hclr
    rw [hlat] at hmiss
    exact hmiss

theorem Represents.cached (hw : Quiet w) (htomb : s.memDb.isTombstoned t k = false)
    (hk : (s.after cfg w).memDb.row t k ≠ none) : ∃ v, (m t)[k]? = some v := by
  obtain ⟨-, hfades⟩ := h.quiet cfg hw
  rw [(h.shows t).isTombstoned_eq fun hnone => hk (hfades.row t k hnone)] at htomb
  exact Option.isSome_iff_exists.mp (Option.isNone_eq_false_iff.mp htomb)

omit [Fintype τ] in
theorem isTombstoned_none (htomb : s.memDb.isTombstoned t k = true) : (m t)[k]? = none := by
  by_cases hk : s.memDb.row t k = none
  · rw [Shows.isTombstoned_of_absent hk] at htomb
    cases htomb
  · rw [(h.shows t).isTombstoned_eq hk] at htomb
    exact Option.isNone_iff_eq_none.mp htomb

theorem get_eq (h₁ : Quiet w₁) (h₂ : Quiet w₂) (h₃ : Quiet w₃) (t : τ) (k : K) :
    s.get cfg t k w₁ w₂ w₃ = .ok (m t)[k]? := by
  obtain ⟨hs₁, -⟩ := h.quiet cfg h₁
  obtain ⟨hs₂, hfades₂⟩ := hs₁.quiet cfg h₂
  unfold get
  split
  · next htomb => rw [isTombstoned_none h htomb]
  · next htomb =>
    by_cases hk : (s.after cfg w₁).memDb.row t k = none
    · dsimp only
      rw [Shows.getNoMarkedCheck_of_absent hk]
      exact congrArg Except.ok (hs₂.miss cfg h₃ (hfades₂.row t k hk))
    · obtain ⟨v, hv⟩ := h.cached h₁ (Bool.eq_false_iff.mpr htomb) hk
      dsimp only
      rw [(hs₁.shows t).getNoMarkedCheck_eq hk hv, hv]

theorem containsKey_eq (h₁ : Quiet w₁) (h₂ : Quiet w₂) (h₃ : Quiet w₃) (t : τ)
    (k : K) : s.containsKey cfg t k w₁ w₂ w₃ = (m t).contains k := by
  obtain ⟨hs₁, -⟩ := h.quiet cfg h₁
  obtain ⟨hs₂, hfades₂⟩ := hs₁.quiet cfg h₂
  rw [← isSome_getElem?_eq_contains]
  unfold containsKey
  split
  · next htomb =>
    rw [isTombstoned_none h htomb]
    rfl
  · next htomb =>
    by_cases hk : (s.after cfg w₁).memDb.row t k = none
    · have hmiss := congrArg Option.isSome (hs₂.miss cfg h₃ (hfades₂.row t k hk))
      rw [apply_ite Option.isSome, isSome_getElem?_eq_contains] at hmiss
      dsimp only
      rw [Shows.containsKey_of_absent hk]
      exact hmiss
    · obtain ⟨v, hv⟩ := h.cached h₁ (Bool.eq_false_iff.mpr htomb) hk
      dsimp only
      rw [(hs₁.shows t).containsKey_eq hk, hv]
      rfl

end

/-! Direct scans. -/

def Keeps (cfg : CacheConfig) (s : LayeredDatabase τ K V) (t : τ) (w : List (LayeredEvent τ K V)) :
    Prop :=
  ∀ k, s.memDb.row t k ≠ none → (s.after cfg w).memDb.row t k ≠ none

theorem Represents.row_iff (h : s.Represents m) (h₁ : Quiet w₁) (h₂ : Quiet w₂)
    (hkp : s.Keeps cfg t (w₁ ++ w₂)) (k : K) :
    (s.after cfg w₁).memDb.row t k = none ↔ s.memDb.row t k = none := by
  obtain ⟨hs₁, hfades₁⟩ := h.quiet cfg h₁
  obtain ⟨-, hfades₂⟩ := hs₁.quiet cfg h₂
  refine ⟨fun hk => ?_, hfades₁.row t k⟩
  by_contra hne
  apply hkp k hne
  rw [after_append]
  exact hfades₂.row t k hk

omit [Fintype τ] in
theorem Represents.isTombstoned_iff {s' : LayeredDatabase τ K V} (h : s.Represents m)
    (h' : s'.Represents m) (hrow : s'.memDb.row t k = none ↔ s.memDb.row t k = none) :
    s'.memDb.isTombstoned t k = s.memDb.isTombstoned t k := by
  by_cases hk : s.memDb.row t k = none
  · rw [Shows.isTombstoned_of_absent hk, Shows.isTombstoned_of_absent (hrow.mpr hk)]
  · rw [(h.shows t).isTombstoned_eq hk, (h'.shows t).isTombstoned_eq fun hk' => hk (hrow.mp hk')]

theorem Represents.shows_scan {ws : List (List (LayeredEvent τ K V))} (h : s.Represents m)
    (hqt : Quiet (w₁ ++ (w₂ ++ ws.flatten))) (hkp : s.Keeps cfg t (w₁ ++ (w₂ ++ ws.flatten))) :
    Shows ((s.after cfg w₁).after cfg w₂).memDb t
        (if s.memDb.isClearing t then ∅ else (s.after cfg w₁).db t) (m t) ∧ ∀ (i : Nat) (k : K),
        (((s.after cfg w₁).after cfg w₂).after cfg
          (ws.take (i + 1)).flatten).memDb.isTombstoned t k =
        ((s.after cfg w₁).after cfg w₂).memDb.isTombstoned t k := by
  obtain ⟨h₁, hqt'⟩ := forall_mem_append.mp hqt
  obtain ⟨h₂, hws⟩ := forall_mem_append.mp hqt'
  have h₁₂ : Quiet (w₁ ++ w₂) := forall_mem_append.mpr ⟨h₁, h₂⟩
  obtain ⟨hs₁, hfades₁⟩ := h.quiet cfg h₁
  have hs₂ : ((s.after cfg w₁).after cfg w₂).Represents m := (hs₁.quiet cfg h₂).1
  have hrow₂ : ∀ k, ((s.after cfg w₁).after cfg w₂).memDb.row t k = none ↔
      s.memDb.row t k = none := by
    rw [← after_append]
    refine h.row_iff h₁₂ hws ?_
    rwa [append_assoc]
  refine ⟨⟨(hs₂.shows t).present, fun k hk => ?_⟩, fun i k => ?_⟩
  · have hmiss := h.miss cfg h₁ ((hrow₂ k).mp hk)
    rw [← hmiss]
    split
    · exact getElem?_empty
    · rfl
  · have hspl : ws.flatten = (ws.take (i + 1)).flatten ++ (ws.drop (i + 1)).flatten := by
      rw [← flatten_append, take_append_drop]
    rw [hspl] at hws hkp
    obtain ⟨htake, hdrop⟩ := forall_mem_append.mp hws
    have hbegun : Quiet (w₁ ++ w₂ ++ (ws.take (i + 1)).flatten) :=
      forall_mem_append.mpr ⟨h₁₂, htake⟩
    have hkp' : s.Keeps cfg t
        (w₁ ++ w₂ ++ (ws.take (i + 1)).flatten ++ (ws.drop (i + 1)).flatten) := by
      rw [append_assoc, append_assoc]
      exact hkp
    have hrow := h.row_iff hbegun hdrop hkp' k
    rw [after_append, after_append] at hrow
    exact hs₂.isTombstoned_iff (hs₂.quiet cfg htake).1 (hrow.trans (hrow₂ k).symm)

end

end LayeredDatabase

section
variable {τ K V : Type} [LinearOrder τ] [LinearOrder K]

/-- All reads of a table in a read transaction answer from these rows. -/
structure LayeredDbTx.ReadsAs (tx : LayeredDbTx τ K V) (t : τ) (rows : ExtTreeMap K V) : Prop where
  get : ∀ k, tx.get t k = .ok rows[k]?
  containsKey : ∀ k, tx.containsKey t k = .ok (rows.contains k)
  iter : tx.iter t = rows.toList
  skipTo : ∀ k, tx.skipTo t k = rows.toList.filter fun row => k ≤ row.1
  reverseIter : tx.reverseIter t = rows.toList.reverse
  lastRecord : tx.lastRecord t = rows.toList.getLast?
  recordPriorTo : ∀ k, tx.recordPriorTo t k = (rows.toList.filter fun row => row.1 < k).getLast?

namespace LayeredDatabase

variable [Fintype τ]

/-- All reads of a table answer from these rows, whatever the other threads do meanwhile as long as
they issue no operation. A direct scan also needs its cached rows to stay. -/
structure ReadsAs (cfg : CacheConfig) (s : LayeredDatabase τ K V) (t : τ) (rows : ExtTreeMap K V) :
    Prop where
  tx : ∀ w, Quiet w → (s.beginRead cfg w).ReadsAs t rows
  get : ∀ k w₁ w₂ w₃, Quiet w₁ → Quiet w₂ → Quiet w₃ →
    s.get cfg t k w₁ w₂ w₃ = .ok rows[k]?
  containsKey : ∀ k w₁ w₂ w₃, Quiet w₁ → Quiet w₂ → Quiet w₃ →
    s.containsKey cfg t k w₁ w₂ w₃ = rows.contains k
  lastRecord : ∀ w, Quiet w → s.lastRecord cfg t w = rows.toList.getLast?
  recordPriorTo : ∀ k w, Quiet w →
    s.recordPriorTo cfg t k w = (rows.toList.filter fun row => row.1 < k).getLast?
  iter : ∀ w₁ w₂ ws, Quiet (w₁ ++ (w₂ ++ ws.flatten)) →
    s.Keeps cfg t (w₁ ++ (w₂ ++ ws.flatten)) → s.iter cfg t w₁ w₂ ws = rows.toList
  skipTo : ∀ k w₁ w₂ ws, Quiet (w₁ ++ (w₂ ++ ws.flatten)) →
    s.Keeps cfg t (w₁ ++ (w₂ ++ ws.flatten)) →
    s.skipTo cfg t w₁ w₂ k ws = rows.toList.filter fun row => k ≤ row.1
  reverseIter : ∀ w₁ w₂ ws, Quiet (w₁ ++ (w₂ ++ ws.flatten)) →
    s.Keeps cfg t (w₁ ++ (w₂ ++ ws.flatten)) →
    s.reverseIter cfg t w₁ w₂ ws = rows.toList.reverse

variable {cfg : CacheConfig} {s : LayeredDatabase τ K V} {m : Tables τ K V}

theorem Represents.readsAs_tx (h : s.Represents m) {w : List (LayeredEvent τ K V)} (hw : Quiet w)
    (t : τ) : (s.beginRead cfg w).ReadsAs t (m t) := by
  have ⟨U, hholds⟩ := h
  have hread := h.step cfg (e := .readTxn) rfl
  rw [step_of_alive hholds.alive] at hread
  have hread : s.readTxn.Represents m := hread
  have hshows := (hread.quiet cfg hw).1.shows t
  exact ⟨LayeredDbTx.get_eq hshows, LayeredDbTx.containsKey_eq hshows, LayeredDbTx.iter_eq hshows,
    skipTo_eq hshows, reverseIter_eq hshows,
    lastRecord_eq hshows, recordPriorTo_eq hshows⟩

theorem Represents.readsAs (h : s.Represents m) (t : τ) : s.ReadsAs cfg t (m t) where
  tx _ hw := h.readsAs_tx hw t
  get k _ _ _ h₁ h₂ h₃ := get_eq h h₁ h₂ h₃ t k
  containsKey k _ _ _ h₁ h₂ h₃ := containsKey_eq h h₁ h₂ h₃ t k
  lastRecord _ hw := (h.readsAs_tx hw t).lastRecord
  recordPriorTo k _ hw := (h.readsAs_tx hw t).recordPriorTo k
  iter w₁ w₂ ws hqt hkp := by
    obtain ⟨hshows, hhid⟩ := h.shows_scan hqt hkp
    have hiter := hshows.iter hhid
    rw [apply_ite toList] at hiter
    exact hiter
  skipTo k w₁ w₂ ws hqt hkp := by
    obtain ⟨hshows, hhid⟩ := h.shows_scan hqt hkp
    have hskip := hshows.skipTo hhid k
    rw [apply_ite (Mdbx.skipTo · k)] at hskip
    exact hskip
  reverseIter w₁ w₂ ws hqt hkp := by
    obtain ⟨hshows, hhid⟩ := h.shows_scan hqt hkp
    have hreverse := hshows.reverseIter hhid
    rw [apply_ite toList, apply_ite List.reverse] at hreverse
    exact hreverse

/-- The store against the map of the operations in the order of issue. Dropped transactions and
failures of the persistent tier are allowed in the part on reads. -/
theorem layered_refines_map (cfg : CacheConfig) (db : Tables τ K V)
    (events : List (LayeredEvent τ K V)) (hevents : ∀ e ∈ events, e.archives = false) :
    let r := run cfg (openWith db) events
    let m := mapAfter db (writesOf r.1)
    (∀ t, r.2.ReadsAs cfg t (m t)) ∧
      ((∀ e ∈ events, e.faults = false) → r.2.queue = [] → r.2.lock ≠ .exclusive → r.2.db = m) := by
  have h := (represents_openWith db).run cfg hevents
  refine ⟨fun t => h.readsAs t, fun hfaults hqueue hlock => ?_⟩
  exact h.db_eq ((balanced_openWith db).run hfaults) hqueue hlock

end LayeredDatabase

end

/-! A table of numbers in a store that keeps one row in memory. -/

namespace LayeredDatabase

def smallCache : CacheConfig := ⟨1⟩

def twoRows : Tables Unit Nat Nat := fun _ => ofList [(1, 10), (2, 20)]

def insertTwo : List (LayeredEvent Unit Nat Nat) :=
  [.write (.insert () 1 10) 0, .write (.insert () 2 20) 0]

def removeTwo : List (LayeredEvent Unit Nat Nat) :=
  [.write (.remove () 1) 0, .write (.remove () 2) 0]

def drainTwo : List (LayeredEvent Unit Nat Nat) :=
  [.recv none, .settle, .evict, .recv none, .settle, .evict]

theorem layered_refines_map_drained :
    let r := run smallCache (openWith fun _ => ∅) (insertTwo ++ drainTwo)
    let m := mapAfter (fun _ => ∅) (writesOf r.1)
    (m ()).toList = [(1, 10), (2, 20)] ∧ r.2.iter smallCache () [] [] [] = (m ()).toList ∧
      r.2.db = m := by
  have h := layered_refines_map smallCache (fun _ => ∅) (insertTwo ++ drainTwo) (by decide)
  refine ⟨by decide +kernel, (h.1 ()).iter [] [] [] nofun fun _ hk => hk, ?_⟩
  exact h.2 (by decide) (by decide +kernel) (by decide +kernel)

/-- A scan that takes its snapshot before the writer gets to the messages and its copy of the
memory tier after the eviction misses a row that is there, or shows one that is removed. -/
theorem iter_sees_eviction :
    let r := run smallCache (openWith fun _ => ∅) insertTwo
    let r' := run smallCache (openWith twoRows) removeTwo
    (r.2.iter smallCache () [] drainTwo [] = [(2, 20)] ∧
      (mapAfter (fun _ => ∅) (writesOf r.1) ()).toList = [(1, 10), (2, 20)]) ∧
    (r'.2.iter smallCache () [] drainTwo [] = [(1, 10)] ∧
      (mapAfter twoRows (writesOf r'.1) ()).toList = []) := by
  decide +kernel

end LayeredDatabase

end Axyl
