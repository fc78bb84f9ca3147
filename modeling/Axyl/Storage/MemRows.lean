import Axyl.Storage.MemDb

/-! What each operation of the memory tier does to a row. -/

namespace Axyl
open StoreEntry Function
open Std ExtTreeMap
open OrderedKeys

section
variable {V : Type}

structure StoreEntry.Is (e : StoreEntry V) (x : Option V) (n : Nat) : Prop where
  live : e.live = x
  tombstoned : e.tombstoned = x.isNone
  inFlight : e.inFlight = n

def RowIs (r : Option (StoreEntry V)) (x : Option V) (n : Nat) : Prop :=
  ∃ e, r = some e ∧ e.Is x n

def inFlightOf (r : Option (StoreEntry V)) : Nat := r.elim 0 StoreEntry.inFlight

variable {r : Option (StoreEntry V)} {n : Nat}

theorem RowIs.inFlightOf {x : Option V} (h : RowIs r x n) : inFlightOf r = n := by
  obtain ⟨e, rfl, he⟩ := h
  exact he.inFlight

theorem RowIs.ne_none {x : Option V} (h : RowIs r x n) : r ≠ none := by
  obtain ⟨e, rfl, -⟩ := h
  exact Option.some_ne_none e

structure Released (n : Nat) (r r' : Option (StoreEntry V)) : Prop where
  absent : r = none → r' = none
  present : ∀ x c, RowIs r x (c + n) → RowIs r' x c

theorem Released.rfl : Released 0 r r := ⟨id, fun _ _ h => h⟩

variable {r'' r' : Option (StoreEntry V)}

theorem Released.trans {m : Nat} (h : Released n r r')
    (h' : Released m r' r'') : Released (n + m) r r'' where
  absent hr := h'.absent (h.absent hr)
  present x c hr := by
    apply h'.present
    apply h.present
    rwa [add_assoc, add_comm m]

def Evicted (r r' : Option (StoreEntry V)) : Prop := r' = r ∨ r' = none ∧ inFlightOf r = 0

theorem Evicted.trans (h : Evicted r r') (h' : Evicted r' r'') : Evicted r r'' := by
  rcases h with rfl | ⟨rfl, h⟩
  · exact h'
  · rcases h' with rfl | ⟨rfl, -⟩ <;> exact .inr ⟨rfl, h⟩

namespace StoreEntry

variable {e : StoreEntry V} {n : Nat}

theorem is_of_live {v : V} (hval : e.value = some v) (htomb : e.tombstoned = false)
    (hcnt : e.inFlight = n) : e.Is (some v) n := by
  refine ⟨?_, htomb, hcnt⟩
  rw [live, htomb, hval]
  rfl

theorem is_of_tombstone (htomb : e.tombstoned = true) (hcnt : e.inFlight = n) : e.Is none n := by
  refine ⟨?_, htomb, hcnt⟩
  rw [live, htomb]
  rfl

theorem Is.of_eq {e' : StoreEntry V} {x : Option V} (h : e.Is x n) (hval : e'.value = e.value)
    (hpacked : e'.packed = e.packed) : e'.Is x n := by
  have htomb : e'.tombstoned = e.tombstoned := by
    unfold StoreEntry.tombstoned
    rw [hpacked]
  refine ⟨?_, htomb.trans h.tombstoned, ?_⟩
  · rw [← h.live, StoreEntry.live, StoreEntry.live, htomb, hval]
  · rw [← h.inFlight, StoreEntry.inFlight, StoreEntry.inFlight, hpacked]

theorem Is.decInFlight {e' : StoreEntry V} {x : Option V} (h : e.Is x (n + 1))
    (hdec : e.decInFlight = some e') : e'.Is x n := by
  obtain ⟨hval, htomb, hcnt⟩ := decInFlight_eq_some hdec
  refine ⟨?_, htomb.trans h.tombstoned, Nat.add_right_cancel (hcnt.trans h.inFlight)⟩
  rw [← h.live, StoreEntry.live, StoreEntry.live, htomb, hval]

end StoreEntry

end

namespace StoreType

section
variable {τ K V : Type} [LinearOrder τ] [LinearOrder K] {st : StoreType τ K V} {t t' : τ}
  {k k' : K}

theorem rowIs_setRow {e : StoreEntry V} {x : Option V} {n : Nat} (h : e.Is x n) :
    RowIs ((st.setRow t k e).row t k) x n :=
  ⟨e, by rw [row_setRow, if_pos ⟨rfl, rfl⟩], h⟩

theorem released_setRow {e e' : StoreEntry V} {n : Nat} (hrow : st.row t k = some e)
    (h : ∀ x c, e.Is x (c + n) → e'.Is x c) :
    Released (if t' = t ∧ k' = k then n else 0) (st.row t' k') ((st.setRow t k e').row t' k') := by
  rw [row_setRow]
  split
  · next hkey =>
    obtain ⟨rfl, rfl⟩ := hkey
    rw [hrow]
    refine ⟨nofun, fun x c hx => ?_⟩
    obtain ⟨_, he, his⟩ := hx
    cases he
    exact ⟨e', rfl, h x c his⟩
  · exact .rfl

section
variable (now : Nat)
include now

theorem rowIs_insertImpl (v : V) :
    RowIs ((st.insertImpl t k v now).row t k) (some v) (inFlightOf (st.row t k) + 1) := by
  unfold insertImpl row
  cases (st t).rows[k]? with
  | none => exact rowIs_setRow (is_of_live rfl (by simp) (by simp [inFlightOf]))
  | some e =>
    have his : ({ e with value := some v }.clearTombstone.addInFlight).Is (some v) _ :=
      is_of_live rfl (by simp) ((inFlight_addInFlight _).trans (by rw [inFlight_clearTombstone]))
    exact rowIs_setRow (his.of_eq rfl rfl)

theorem row_insertImpl (v : V) (h : ¬ (t' = t ∧ k' = k)) :
    (st.insertImpl t k v now).row t' k' = st.row t' k' := by
  unfold insertImpl
  split <;> rw [row_setRow, if_neg h]

theorem clearing_insertImpl (v : V) : (st.insertImpl t k v now t').clearing = (st t').clearing := by
  unfold insertImpl
  cases (st t).rows[k]? <;> exact clearing_setRow ..

theorem rowIs_removeImpl :
    RowIs ((st.removeImpl t k now).row t k) none (inFlightOf (st.row t k) + 1) := by
  unfold removeImpl row
  cases (st t).rows[k]? with
  | none => exact rowIs_setRow (is_of_tombstone (by simp) (by simp [inFlightOf]))
  | some e =>
    have his : e.markTombstone.addInFlight.Is none _ :=
      is_of_tombstone (by simp) ((inFlight_addInFlight _).trans (by rw [inFlight_markTombstone]))
    exact rowIs_setRow (his.of_eq rfl rfl)

theorem row_removeImpl (h : ¬ (t' = t ∧ k' = k)) :
    (st.removeImpl t k now).row t' k' = st.row t' k' := by
  unfold removeImpl
  split <;> rw [row_setRow, if_neg h]

theorem clearing_removeImpl : (st.removeImpl t k now t').clearing = (st t').clearing := by
  unfold removeImpl
  cases (st t).rows[k]? <;> exact clearing_setRow ..

end

theorem row_clearTableImpl : (st.clearTableImpl t).2.row t k =
      (st.row t k).map fun e => e.markTombstone.addInFlight := by
  unfold clearTableImpl row
  dsimp only
  rw [update_self]
  exact getElem?_map

theorem clearing_clearTableImpl : ((st.clearTableImpl t).2 t).clearing = true := by
  unfold clearTableImpl
  dsimp only
  rw [update_self]

theorem clearTableImpl_of_ne (h : t' ≠ t) : (st.clearTableImpl t).2 t' = st t' := by
  exact update_of_ne h _ _

theorem rowIs_clearTableImpl (h : st.row t k ≠ none) :
    RowIs ((st.clearTableImpl t).2.row t k) none (inFlightOf (st.row t k) + 1) := by
  obtain ⟨e, he⟩ := Option.ne_none_iff_exists'.mp h
  rw [row_clearTableImpl, he]
  refine ⟨_, rfl, is_of_tombstone ?_ ?_⟩
  · rw [tombstoned_addInFlight, tombstoned_markTombstone]
  · rw [inFlight_addInFlight, inFlight_markTombstone]
    rfl

theorem count_clearTableImpl :
    (st.clearTableImpl t).1.count k = if st.row t k = none then 0 else 1 := by
  have hmem : k ∈ (st.clearTableImpl t).1 ↔ st.row t k ≠ none := by
    unfold clearTableImpl row
    rw [mem_keys, ← isSome_getElem?_iff_mem, Option.isSome_iff_ne_none]
  split
  · next h => exact List.count_eq_zero.mpr fun hk => hmem.mp hk h
  · next h =>
    have hnd : (st.clearTableImpl t).1.Nodup := by
      exact nodup_keys
    exact List.count_eq_one_of_mem hnd (hmem.mpr h)

section
variable {heap : EvictionHeap τ K} {r : EvictionHeap τ K × StoreType τ K V}

theorem released_onOpApplied (h : st.onOpApplied heap t k = some r) :
    Released (if t' = t ∧ k' = k then 1 else 0) (st.row t' k') (r.2.row t' k') := by
  unfold onOpApplied at h
  cases hrow : (st t).rows[k]? with
  | none =>
    rw [hrow] at h
    cases h
    split
    · next h =>
      obtain ⟨rfl, rfl⟩ := h
      have hnone : st.row t' k' = none := hrow
      refine ⟨id, fun x c hx => ?_⟩
      exact absurd hnone hx.ne_none
    · exact .rfl
  | some e =>
    rw [hrow] at h
    obtain ⟨e', hdec, rfl⟩ := Option.map_eq_some_iff.mp h
    exact released_setRow hrow fun x c his => his.decInFlight hdec

theorem clearing_onOpApplied (h : st.onOpApplied heap t k = some r) :
    (r.2 t').clearing = (st t').clearing := by
  unfold onOpApplied at h
  split at h
  · cases h
    rfl
  · obtain ⟨e', -, rfl⟩ := Option.map_eq_some_iff.mp h
    exact clearing_setRow ..

/-- A row that counts the operation is released. -/
theorem onOpApplied_ne_none (h : st.row t k ≠ none → 0 < inFlightOf (st.row t k)) :
    st.onOpApplied heap t k ≠ none := by
  unfold onOpApplied
  cases hrow : (st t).rows[k]? with
  | none => exact Option.some_ne_none _
  | some e =>
    have hsome : st.row t k = some e := hrow
    rw [hsome] at h
    rw [Ne, Option.map_eq_none_iff, decInFlight_eq_none]
    exact (h (Option.some_ne_none e)).ne'

variable {keys : List K}

theorem onKeysApplied_cons : st.onKeysApplied heap t (k :: keys) = some r ↔
    ∃ r', st.onOpApplied heap t k = some r' ∧ r'.2.onKeysApplied r'.1 t keys = some r := by
  unfold onKeysApplied
  rw [List.foldlM_cons]
  exact Option.bind_eq_some_iff

theorem count_cons_key : (if t' = t then (k :: keys).count k' else 0) =
    (if t' = t ∧ k' = k then 1 else 0) + if t' = t then keys.count k' else 0 := by
  rw [List.count_cons]
  simp only [beq_iff_eq, @eq_comm K k k']
  by_cases ht : t' = t <;> by_cases hk : k' = k <;> simp [ht, hk, add_comm]

theorem released_onKeysApplied (h : st.onKeysApplied heap t keys = some r) :
    Released (if t' = t then keys.count k' else 0) (st.row t' k') (r.2.row t' k') := by
  induction keys generalizing st heap with
  | nil =>
    cases h
    rw [List.count_nil, ite_self]
    exact .rfl
  | cons k keys ih =>
    obtain ⟨r', hone, hrest⟩ := onKeysApplied_cons.mp h
    rw [count_cons_key]
    exact (released_onOpApplied hone).trans (ih hrest)

theorem clearing_onKeysApplied (h : st.onKeysApplied heap t keys = some r) :
    (r.2 t').clearing = (st t').clearing := by
  induction keys generalizing st heap with
  | nil =>
    cases h
    rfl
  | cons k keys ih =>
    obtain ⟨r', hone, hrest⟩ := onKeysApplied_cons.mp h
    exact (ih hrest).trans (clearing_onOpApplied hone)

/-- Rows that count every one of the keys are released one key after the other. -/
theorem onKeysApplied_ne_none (h : ∀ k', st.row t k' ≠ none →
    ∃ x c, RowIs (st.row t k') x (c + keys.count k')) : st.onKeysApplied heap t keys ≠ none := by
  induction keys generalizing st heap with
  | nil => exact Option.some_ne_none _
  | cons k keys ih =>
    have hfirst : st.onOpApplied heap t k ≠ none := by
      refine onOpApplied_ne_none fun hk => ?_
      obtain ⟨x, c, hx⟩ := h k hk
      rw [hx.inFlightOf, List.count_cons_self]
      exact Nat.succ_pos _
    obtain ⟨r, hone⟩ := Option.ne_none_iff_exists'.mp hfirst
    have hrest : r.2.onKeysApplied r.1 t keys ≠ none := by
      refine ih fun k' hk' => ?_
      have hrel : Released _ (st.row t k') (r.2.row t k') := released_onOpApplied hone
      obtain ⟨x, c, hx⟩ := h k' fun hnone => hk' (hrel.absent hnone)
      have hcnt : (if t = t then (k :: keys).count k' else 0) = _ := count_cons_key
      rw [if_pos rfl, if_pos rfl] at hcnt
      rw [hcnt, Nat.add_comm (ite _ _ _), ← Nat.add_assoc] at hx
      exact ⟨x, c, hrel.present x _ hx⟩
    obtain ⟨r', hr'⟩ := Option.ne_none_iff_exists'.mp hrest
    rw [onKeysApplied_cons.mpr ⟨r, hone, hr'⟩]
    exact Option.some_ne_none r'

theorem row_clearing (c : Bool) :
    row (Function.update st t { st t with clearing := c }) t' k' = st.row t' k' := by
  unfold row
  by_cases ht : t' = t
  · subst ht
    rw [update_self]
  · rw [update_of_ne ht]

section
variable (h : st.onClearApplied heap t keys = some r)
include h

theorem released_onClearApplied :
    Released (if t' = t then keys.count k' else 0) (st.row t' k') (r.2.row t' k') := by
  have hrow : row (Function.update st t { st t with clearing := false }) t' k' =
      st.row t' k' := row_clearing false
  rw [← hrow]
  exact released_onKeysApplied h

theorem clearing_onClearApplied :
    (r.2 t').clearing = if t' = t then false else (st t').clearing := by
  rw [clearing_onKeysApplied h]
  split
  · next h =>
    subst h
    rw [update_self]
  · next h => rw [update_of_ne h]

end

end

theorem evicted_evictLoop (stop fuel total : Nat) (heap : EvictionHeap τ K) :
    (∀ k', Evicted (st.row t' k') ((evictLoop stop fuel total heap st).2.row t' k')) ∧
      ((evictLoop stop fuel total heap st).2 t').clearing = (st t').clearing := by
  induction fuel generalizing total heap st with
  | zero => exact ⟨fun _ => .inl rfl, rfl⟩
  | succ fuel ih =>
    cases heap with
    | nil => exact ⟨fun _ => .inl rfl, rfl⟩
    | cons ent heap =>
      obtain ⟨lastUsed, t, k⟩ := ent
      rw [evictLoop]
      split
      · exact ⟨fun _ => .inl rfl, rfl⟩
      · cases hrow : (st t).rows[k]? with
        | none => exact ih total heap
        | some e =>
          dsimp only
          split
          · exact ih total heap
          · next hcnt =>
            split
            · exact ih total _
            · obtain ⟨hrest, hflag⟩ := @ih (st.eraseRow t k) (total - 1) heap
              refine ⟨fun k' => Evicted.trans ?_ (hrest k'), hflag.trans (clearing_eraseRow ..)⟩
              rw [row_eraseRow]
              split
              · next h =>
                obtain ⟨rfl, rfl⟩ := h
                refine .inr ⟨rfl, ?_⟩
                rw [row, hrow]
                exact not_not.mp hcnt
              · exact .inl rfl

theorem evicted_evictIfNeeded [Fintype τ] (st : StoreType τ K V) (heap : EvictionHeap τ K)
    (maxSize : Nat) (t : τ) :
    (∀ k, Evicted (st.row t k) ((st.evictIfNeeded heap maxSize).2.row t k)) ∧
      ((st.evictIfNeeded heap maxSize).2 t).clearing = (st t).clearing := by
  unfold evictIfNeeded
  split
  · exact ⟨fun _ => .inl rfl, rfl⟩
  · dsimp only
    split
    · exact ⟨fun _ => .inl rfl, rfl⟩
    · exact evicted_evictLoop _ _ _ heap

theorem released_touchRow (now : Nat) :
    Released 0 (st.row t' k') ((st.touchRow t k now).row t' k') := by
  unfold touchRow
  cases hrow : (st t).rows[k]? with
  | none => exact .rfl
  | some e =>
    dsimp only
    split
    · exact .rfl
    · have hrel : Released (if t' = t ∧ k' = k then 0 else 0) _ _ :=
        released_setRow hrow fun x c his =>
          his.of_eq (value_touchApproximately e now) (packed_touchApproximately e now)
      rwa [ite_self] at hrel

theorem clearing_touchRow (now : Nat) : (st.touchRow t k now t').clearing = (st t').clearing := by
  unfold touchRow
  cases (st t).rows[k]? with
  | none => rfl
  | some e =>
    dsimp only
    split
    · rfl
    · exact clearing_setRow ..

end

end StoreType

end Axyl
