import Axyl.Storage.LayeredInv
import Axyl.Storage.LayeredReads

/-! What readers of the two tiers see of a table. -/

namespace Axyl
open List StoreType
open Std (ExtTreeMap)
open Std.ExtTreeMap
open OrderedKeys
open MergeJoin

section
variable {τ K V : Type} [LinearOrder K]

structure Shows (memDb : StoreType τ K V) (t : τ) (d rows : ExtTreeMap K V) : Prop where
  present : ∀ k, memDb.row t k ≠ none → ∃ n, RowIs (memDb.row t k) rows[k]? n
  absent : ∀ k, memDb.row t k = none → d[k]? = rows[k]?

theorem LayeredDatabase.Represents.shows [LinearOrder τ] {s : LayeredDatabase τ K V} {m : Tables τ K V}
    (h : s.Represents m) (t : τ) :
    Shows s.memDb t (LayeredDbTx.dbRows ⟨s.memDb, s.db⟩ t) (m t) := by
  obtain ⟨U, h⟩ := h
  refine ⟨fun k hk => ⟨_, ((h.key t k).present hk).1⟩, fun k hk => ?_⟩
  rw [← (h.key t k).read hk]
  show (if (s.memDb t).clearing then ∅ else s.db t)[k]? = _
  split
  · exact getElem?_empty
  · rfl

namespace Shows

variable {mem : StoreType τ K V} {t : τ} {d rows : ExtTreeMap K V} {k : K}

section
variable (h : Shows mem t d rows)
include h

theorem isTombstoned_eq (hk : mem.row t k ≠ none) : mem.isTombstoned t k = rows[k]?.isNone := by
  obtain ⟨n, e, he, his⟩ := h.present k hk
  have hrow : (mem t).rows[k]? = some e := he
  unfold isTombstoned
  rw [hrow, ← his.tombstoned]
  rfl

omit h in
theorem isTombstoned_of_absent (hk : mem.row t k = none) : mem.isTombstoned t k = false := by
  have hrow : (mem t).rows[k]? = none := hk
  unfold isTombstoned
  rw [hrow]
  rfl

theorem live_iff {v : V} : (∃ e, mem.row t k = some e ∧ e.live = some v) ↔
      mem.row t k ≠ none ∧ rows[k]? = some v := by
  constructor
  · rintro ⟨e, he, hlive⟩
    have hne : mem.row t k ≠ none := by
      rw [he]
      exact Option.some_ne_none e
    obtain ⟨n, e', he', his⟩ := h.present k hne
    rw [he] at he'
    cases he'
    exact ⟨hne, his.live.symm.trans hlive⟩
  · rintro ⟨hne, hv⟩
    obtain ⟨n, e, he, his⟩ := h.present k hne
    exact ⟨e, he, his.live.trans hv⟩

theorem getNoMarkedCheck_eq {v : V} (hk : mem.row t k ≠ none) (hv : rows[k]? = some v) :
    mem.getNoMarkedCheck t k = .ok (some (false, v)) := by
  obtain ⟨n, e, he, his⟩ := h.present k hk
  have hrow : (mem t).rows[k]? = some e := he
  rw [hv] at his
  have htomb : e.tombstoned = false := his.tombstoned
  have hval : e.value = some v := by
    have hlive := his.live
    rw [StoreEntry.live, htomb] at hlive
    exact hlive
  unfold getNoMarkedCheck
  rw [hrow]
  dsimp only
  rw [hval, htomb]

omit h in
theorem getNoMarkedCheck_of_absent (hk : mem.row t k = none) :
    mem.getNoMarkedCheck t k = .ok none := by
  have hrow : (mem t).rows[k]? = none := hk
  unfold getNoMarkedCheck
  rw [hrow]

theorem containsKey_eq (hk : mem.row t k ≠ none) : mem.containsKey t k = rows[k]?.isSome := by
  obtain ⟨n, e, he, his⟩ := h.present k hk
  have hrow : (mem t).rows[k]? = some e := he
  unfold containsKey
  rw [hrow, Option.any_some, his.tombstoned, Option.not_isNone]

omit h in
theorem containsKey_of_absent (hk : mem.row t k = none) : mem.containsKey t k = false := by
  have hrow : (mem t).rows[k]? = none := hk
  unfold containsKey
  rw [hrow]
  rfl

theorem mergeJoin_eq {cmp : K → K → Ordering} [Std.TransCmp cmp] [Std.LawfulEqCmp cmp]
    {hidden : Nat → K → Bool} {p : K → Prop} {dbList memList list : List (K × V)}
    (hhid : ∀ i k, hidden i k = mem.isTombstoned t k) (hdb : Ordered cmp dbList)
    (hdb' : ∀ row, row ∈ dbList ↔ d[row.1]? = some row.2 ∧ p row.1) (hmem : Ordered cmp memList)
    (hmem' : ∀ row, row ∈ memList ↔ (∃ e, mem.row t row.1 = some e ∧ e.live = some row.2) ∧ p row.1)
    (hlist : Ordered cmp list) (hlist' : ∀ row, row ∈ list ↔ rows[row.1]? = some row.2 ∧ p row.1) :
    mergeJoin cmp hidden 0 dbList memList = list := by
  refine MergeJoin.mergeJoin_eq hlist hdb hmem (fun i row _ => hhid i row.1) fun row => ?_
  rw [hlist', hdb', hmem', h.live_iff]
  by_cases hrow : mem.row t row.1 = none
  · -- the row comes from the persistent tier
    have hfree : ∀ row' ∈ memList, row'.1 ≠ row.1 := by
      intro row' hrow' heq
      obtain ⟨⟨e, he, -⟩, -⟩ := (hmem' row').mp hrow'
      rw [heq, hrow] at he
      cases he
    rw [h.absent row.1 hrow, isTombstoned_of_absent hrow]
    constructor
    · exact fun hr => .inr ⟨hr, rfl, hfree⟩
    · rintro (⟨⟨hne, -⟩, -⟩ | ⟨hr, -⟩)
      · exact absurd hrow hne
      · exact hr
  · rw [h.isTombstoned_eq hrow]
    constructor
    · exact fun hr => .inl ⟨⟨hrow, hr.1⟩, hr.2⟩
    · rintro (⟨⟨-, hv⟩, hp⟩ | ⟨⟨-, hp⟩, hlive, hfree⟩)
      · exact ⟨hv, hp⟩
      · -- a live row of the memory tier replaces it
        obtain ⟨v, hv⟩ := Option.isSome_iff_exists.mp (Option.isNone_eq_false_iff.mp hlive)
        refine absurd rfl (hfree (row.1, v) ((hmem' (row.1, v)).mpr ⟨?_, hp⟩))
        exact h.live_iff.mpr ⟨hrow, hv⟩

end

end Shows

/-! The lists that the tiers give. -/

theorem ordered_toList (rows : ExtTreeMap K V) : Ordered compare rows.toList :=
  ordered_keys_toList

variable {list : List (K × V)}

theorem ordered_reverse (h : Ordered compare list) : Ordered reversed list.reverse :=
  pairwise_reverse.mpr h

theorem ordered_filter (h : Ordered compare list) (p : K × V → Bool) :
    Ordered compare (list.filter p) :=
  List.Pairwise.filter p h

theorem mem_filter_toList {rows : ExtTreeMap K V} {p : K → Prop} [DecidablePred p] {row : K × V} :
    row ∈ rows.toList.filter (fun row => p row.1) ↔ rows[row.1]? = some row.2 ∧ p row.1 := by
  rw [mem_filter, decide_eq_true_eq]
  exact and_congr_left fun _ => mem_toList_iff_getElem?_eq_some

namespace StoreType

variable {memDb : StoreType τ K V} {t : τ}

def liveRows (memDb : StoreType τ K V) (t : τ) (p : K → Prop) [DecidablePred p] : List (K × V) :=
  collectTyped ((memDb t).rows.toList.filter fun row => p row.1)

theorem mem_liveRows {p : K → Prop} [DecidablePred p] {row : K × V} : row ∈ memDb.liveRows t p ↔
      (∃ e, memDb.row t row.1 = some e ∧ e.live = some row.2) ∧ p row.1 := by
  unfold liveRows collectTyped
  rw [mem_filterMap]
  constructor
  · rintro ⟨⟨k, e⟩, hmem, hlive⟩
    obtain ⟨v, hv, rfl⟩ := Option.map_eq_some_iff.mp hlive
    obtain ⟨hrow, hp⟩ := mem_filter.mp hmem
    exact ⟨⟨e, mem_toList_iff_getElem?_eq_some.mp hrow, hv⟩, of_decide_eq_true hp⟩
  · rintro ⟨⟨e, hrow, hlive⟩, hp⟩
    refine ⟨(row.1, e), mem_filter.mpr ⟨?_, decide_eq_true hp⟩, ?_⟩
    · exact mem_toList_iff_getElem?_eq_some.mpr hrow
    · rw [hlive]
      rfl

theorem ordered_liveRows (p : K → Prop) [DecidablePred p] :
    Ordered compare (memDb.liveRows t p) := by
  refine List.Pairwise.filterMap _ ?_ (List.Pairwise.filter _ ordered_keys_toList)
  intro a b hlt a' ha' b' hb'
  obtain ⟨-, -, rfl⟩ := Option.map_eq_some_iff.mp ha'
  obtain ⟨-, -, rfl⟩ := Option.map_eq_some_iff.mp hb'
  exact hlt

theorem filter_true {α : Type} (list : List α) : list.filter (fun _ => decide True) = list :=
  filter_eq_self.mpr fun _ _ => decide_eq_true trivial

theorem iter_eq : memDb.iter t = memDb.liveRows t fun _ => True := by
  unfold iter liveRows
  rw [filter_true]

theorem reverseIter_eq : memDb.reverseIter t = (memDb.liveRows t fun _ => True).reverse := by
  unfold reverseIter liveRows collectTyped
  rw [filter_true, filterMap_reverse]

theorem lastRecord_eq : memDb.lastRecord t = (memDb.liveRows t fun _ => True).getLast? := by
  unfold lastRecord liveRows collectTyped
  rw [filter_true, List.getLast?_eq_head?_reverse, ← filterMap_reverse, List.head?_filterMap]

theorem recordPriorTo_eq (k : K) :
    memDb.recordPriorTo t k = (memDb.liveRows t fun k' => k' < k).getLast? := by
  unfold recordPriorTo liveRows collectTyped
  rw [List.getLast?_eq_head?_reverse, ← filterMap_reverse, List.head?_filterMap]

theorem filter_liveRows (p : K → Prop) [DecidablePred p] :
    (memDb.liveRows t fun _ => True).filter (fun row => p row.1) = memDb.liveRows t p := by
  refine Ordered.ext (ordered_filter (ordered_liveRows _) _) (ordered_liveRows p) fun row => ?_
  rw [mem_filter, mem_liveRows, mem_liveRows, decide_eq_true_eq, and_true]

end StoreType

namespace Mdbx

theorem lt_below (k : K) : ∀ a b : K, compare a b = .lt → decide (b < k) = true →
    decide (a < k) = true := by
  intro a b hab hb
  rw [decide_eq_true_eq] at hb ⊢
  exact (compare_lt_iff_lt.mp hab).trans hb

theorem skipTo_eq (rows : ExtTreeMap K V) (k : K) :
    skipTo rows k = rows.toList.filter fun row => k ≤ row.1 := by
  unfold skipTo
  rw [(ordered_toList rows).dropWhile_eq (lt_below k)]
  refine filter_congr fun row _ => ?_
  rw [← decide_not]
  exact decide_eq_decide.mpr not_lt

theorem recordPriorTo_eq (rows : ExtTreeMap K V) (k : K) :
    recordPriorTo rows k = (rows.toList.filter fun row => row.1 < k).getLast? := by
  unfold recordPriorTo
  split
  · rw [(ordered_toList rows).takeWhile_eq (lt_below k)]
  · next hnone =>
    have hall : rows.toList.filter (fun row => row.1 < k) = rows.toList := by
      rw [filter_eq_self]
      intro row hrow
      have hlt := List.find?_eq_none.mp hnone row hrow
      simpa using hlt
    rw [hall]

end Mdbx

namespace Shows

variable {mem : StoreType τ K V} {t : τ} {d rows : ExtTreeMap K V} {hidden : Nat → K → Bool}

section
variable (h : Shows mem t d rows)
include h

section
variable (hhid : ∀ i k, hidden i k = mem.isTombstoned t k)
include hhid

theorem iter : mergeJoin compare hidden 0 d.toList (mem.iter t) = rows.toList := by
  rw [iter_eq]
  refine h.mergeJoin_eq (p := fun _ => True) hhid (ordered_toList d) (fun row => ?_)
    (ordered_liveRows _) (fun row => mem_liveRows) (ordered_toList rows)
    fun row => ?_
  · rw [and_true]
    exact mem_toList_iff_getElem?_eq_some
  · rw [and_true]
    exact mem_toList_iff_getElem?_eq_some

theorem skipTo (k : K) : mergeJoin compare hidden 0 (Mdbx.skipTo d k) (mem.skipTo t k) =
      rows.toList.filter fun row => k ≤ row.1 := by
  rw [Mdbx.skipTo_eq]
  exact h.mergeJoin_eq (p := fun k' => k ≤ k') hhid (ordered_filter (ordered_toList d) _)
    (fun row => mem_filter_toList) (ordered_liveRows _) (fun row => mem_liveRows)
    (ordered_filter (ordered_toList rows) _) fun row => mem_filter_toList

theorem reverse_below (p : K → Prop) [DecidablePred p] :
    mergeJoin reversed hidden 0 (d.toList.filter fun row => p row.1).reverse
      (mem.liveRows t p).reverse = (rows.toList.filter fun row => p row.1).reverse := by
  refine h.mergeJoin_eq (p := p) hhid (ordered_reverse (ordered_filter (ordered_toList d) _))
    (fun row => ?_) (ordered_reverse (ordered_liveRows _)) (fun row => ?_)
    (ordered_reverse (ordered_filter (ordered_toList rows) _)) fun row => ?_
  · rw [mem_reverse]
    exact mem_filter_toList
  · rw [mem_reverse]
    exact mem_liveRows
  · rw [mem_reverse]
    exact mem_filter_toList

theorem reverseIter :
    mergeJoin reversed hidden 0 d.toList.reverse (mem.reverseIter t) = rows.toList.reverse := by
  have hall := h.reverse_below hhid fun _ => True
  rw [StoreType.filter_true, StoreType.filter_true] at hall
  rw [StoreType.reverseIter_eq]
  exact hall

theorem walk_back {p : K → Prop} [DecidablePred p] (hp : ∀ a b, compare a b = .lt → p b → p a) :
    (mergeJoin reversed hidden 0
      (stepBack compare (Mdbx.recordPriorTo d) d.size
        (d.toList.filter fun row => p row.1).getLast?)
      (stepBack compare (mem.recordPriorTo t) (mem t).rows.size
        (mem.liveRows t p).getLast?)).head? =
      (rows.toList.filter fun row => p row.1).getLast? := by
  have hp' : ∀ a b, compare a b = .lt → decide (p b) = true → decide (p a) = true :=
    fun a b hab hb => decide_eq_true (hp a b hab (of_decide_eq_true hb))
  have hlt : ∀ (list : List (K × V)) (k : K), list.filter (fun row => row.1 < k) =
      list.filter fun row => compare row.1 k = .lt := fun list k =>
    filter_congr fun row _ => decide_eq_decide.mpr compare_lt_iff_lt.symm
  have hdb : stepBack compare (Mdbx.recordPriorTo d) d.size
      (d.toList.filter fun row => p row.1).getLast? =
        (d.toList.filter fun row => p row.1).reverse := by
    refine stepBack_eq (ordered_toList d) (fun k => ?_) hp' ExtTreeMap.length_toList.le
    rw [Mdbx.recordPriorTo_eq, hlt]
  have hmem : stepBack compare (mem.recordPriorTo t) (mem t).rows.size
      (mem.liveRows t p).getLast? = (mem.liveRows t p).reverse := by
    rw [← filter_liveRows]
    refine stepBack_eq (ordered_liveRows _) (fun k => ?_) hp' ?_
    · rw [recordPriorTo_eq, ← filter_liveRows, hlt]
    · unfold liveRows collectTyped
      rw [StoreType.filter_true]
      exact (length_filterMap_le _ _).trans ExtTreeMap.length_toList.le
  rw [hdb, hmem, h.reverse_below hhid p, List.getLast?_eq_head?_reverse]

end

end

end Shows

namespace LayeredDbTx

variable {tx : LayeredDbTx τ K V} {t : τ} {rows : ExtTreeMap K V}

section
variable (h : Shows tx.memDb t (tx.dbRows t) rows)
include h

theorem get_eq (k : K) : tx.get t k = .ok rows[k]? := by
  unfold LayeredDbTx.get
  by_cases hrow : tx.memDb.row t k = none
  · rw [Shows.isTombstoned_of_absent hrow, Shows.getNoMarkedCheck_of_absent hrow, ← h.absent k hrow]
    unfold dbRows
    cases tx.memDb.isClearing t with
    | true => exact congrArg Except.ok getElem?_empty.symm
    | false => rfl
  · rw [h.isTombstoned_eq hrow]
    cases hv : rows[k]? with
    | none => rfl
    | some v =>
      rw [h.getNoMarkedCheck_eq hrow hv]
      rfl

theorem containsKey_eq (k : K) : tx.containsKey t k = .ok (rows.contains k) := by
  unfold LayeredDbTx.containsKey
  rw [get_eq h, ← isSome_getElem?_eq_contains]
  rfl

theorem iter_eq : tx.iter t = rows.toList :=
  h.iter fun _ _ => rfl

theorem skipTo_eq (k : K) : tx.skipTo t k = rows.toList.filter fun row => k ≤ row.1 :=
  h.skipTo (fun _ _ => rfl) k

theorem reverseIter_eq : tx.reverseIter t = rows.toList.reverse :=
  h.reverseIter fun _ _ => rfl

theorem lastRecord_eq : tx.lastRecord t = rows.toList.getLast? := by
  have hwalk : (mergeJoin reversed (fun _ k => tx.memDb.isTombstoned t k) 0 _ _).head? = _ :=
    h.walk_back (p := fun _ => True) (fun _ _ => rfl) fun _ _ _ => id
  rw [StoreType.filter_true, StoreType.filter_true, ← StoreType.lastRecord_eq] at hwalk
  exact hwalk

end

omit [LinearOrder K] in
theorem filter_getLast? {list : List (K × V)} {p : K × V → Bool} :
    (list.filter p).getLast?.filter p = (list.filter p).getLast? := by
  cases hlast : (list.filter p).getLast? with
  | none => rfl
  | some row => exact Option.filter_some_pos (mem_filter.mp (mem_of_getLast? hlast)).2

theorem recordPriorTo_eq (h : Shows tx.memDb t (tx.dbRows t) rows) (k : K) :
    tx.recordPriorTo t k = (rows.toList.filter fun row => row.1 < k).getLast? := by
  have hwalk : (mergeJoin reversed (fun _ k => tx.memDb.isTombstoned t k) 0 _ _).head? = _ :=
    h.walk_back (p := fun k' => k' < k) (fun _ _ => rfl)
      fun a b hab hb => (compare_lt_iff_lt.mp hab).trans hb
  -- the first steps are already below the key
  have hdb : (Mdbx.recordPriorTo (tx.dbRows t) k).filter (fun row => row.1 < k) =
      ((tx.dbRows t).toList.filter fun row => row.1 < k).getLast? := by
    rw [Mdbx.recordPriorTo_eq, filter_getLast?]
  have hmem : (tx.memDb.recordPriorTo t k).filter (fun row => row.1 < k) =
      (tx.memDb.liveRows t fun k' => k' < k).getLast? := by
    rw [StoreType.recordPriorTo_eq, ← StoreType.filter_liveRows, filter_getLast?]
  rw [← hdb, ← hmem] at hwalk
  exact hwalk

end LayeredDbTx

end

end Axyl
