import Axyl.Types.Certificate

/-! The certificates on disk and their indexes: by round and author, and by author and round, which
serves other nodes. -/

namespace Axyl
open List Std.LawfulEqCmp
open Std (ExtTreeMap)
open Std.ExtTreeMap

abbrev compareRoundOrigin : Nat × Nat → Nat × Nat → Ordering :=
  compareLex (compareOn Prod.fst) (compareOn Prod.snd)

instance transCmp_compareRoundOrigin : Std.TransCmp compareRoundOrigin := inferInstance

instance : Std.LawfulEqCmp compareRoundOrigin where
  eq_of_compare {a b} h := by
    have h' : (compare a.1 b.1).then (compare a.2 b.2) = .eq := h
    rw [Ordering.then_eq_eq, Nat.compare_eq_eq, Nat.compare_eq_eq] at h'
    exact Prod.ext h'.1 h'.2

structure CertificateStore where
  certificates : ExtTreeMap Nat Certificate
  certificateDigestByRound : ExtTreeMap (Nat × Nat) Nat compareRoundOrigin

namespace CertificateStore

def empty : CertificateStore := ⟨∅, ∅⟩

def write (s : CertificateStore) (c : Certificate) : CertificateStore where
  certificates := s.certificates.insert c.digest c
  certificateDigestByRound := s.certificateDigestByRound.insert (c.round, c.origin) c.digest

/-- The certificates of the given round and above in the order of the index. An index row
whose digest has no certificate is an error. -/
def afterRound (s : CertificateStore) (round : Nat) : Except Nat (List Certificate) :=
  (s.certificateDigestByRound.toList.filter fun e => round ≤ e.1.1).mapM fun e =>
    match s.certificates[e.2]? with
    | some c => .ok c
    | none => .error e.2

def Holds (s : CertificateStore) (c : Certificate) : Prop :=
  s.certificates[c.digest]? = some c ∧
    s.certificateDigestByRound[(c.round, c.origin)]? = some c.digest

def Indexed (s : CertificateStore) : Prop :=
  ∀ (k : Nat × Nat) d, s.certificateDigestByRound[k]? = some d →
    ∃ c, s.Holds c ∧ c.digest = d ∧ (c.round, c.origin) = k

theorem indexed_empty : empty.Indexed := by
  intro k d h
  simp [empty] at h

variable {s : CertificateStore} {c d : Certificate}

theorem holds_write_self (s : CertificateStore) (c : Certificate) : (s.write c).Holds c := by
  simp [Holds, write]

theorem Holds.write (h : s.Holds d) (hd : c.digest ≠ d.digest)
    (hslot : (c.round, c.origin) ≠ (d.round, d.origin)) : (s.write c).Holds d := by
  have hcmp : compareRoundOrigin (c.round, c.origin) (d.round, d.origin) ≠ .eq :=
    fun he => hslot (eq_of_compare he)
  refine ⟨?_, ?_⟩
  · simp only [CertificateStore.write, ExtTreeMap.getElem?_insert, Nat.compare_eq_eq, if_neg hd]
    exact h.1
  · simp only [CertificateStore.write, ExtTreeMap.getElem?_insert, if_neg hcmp]
    exact h.2

theorem Holds.of_write (h : (s.write c).Holds d) (hne : d ≠ c) : s.Holds d := by
  obtain ⟨hcert, hrow⟩ := h
  simp only [CertificateStore.write, ExtTreeMap.getElem?_insert, Nat.compare_eq_eq] at hcert hrow
  split at hcert
  · exact absurd (Option.some.inj hcert).symm hne
  · rename_i hdig
    split at hrow
    · exact absurd (Option.some.inj hrow) hdig
    · exact ⟨hcert, hrow⟩

theorem Indexed.write (h : s.Indexed) (hdig : ∀ d, s.Holds d → d.digest = c.digest → d = c) :
    (s.write c).Indexed := by
  intro k d hk
  simp only [CertificateStore.write, ExtTreeMap.getElem?_insert] at hk
  split at hk
  · rename_i hcmp
    cases hk
    exact ⟨c, holds_write_self s c, rfl, eq_of_compare hcmp⟩
  · rename_i hcmp
    obtain ⟨e, he, rfl, rfl⟩ := h k d hk
    by_cases hd : c.digest = e.digest
    · obtain rfl := hdig e he hd.symm
      exact absurd Std.ReflCmp.compare_self hcmp
    · refine ⟨e, he.write hd ?_, rfl, rfl⟩
      intro heq
      rw [heq] at hcmp
      exact hcmp Std.ReflCmp.compare_self

theorem foldl_write_spec (ws : List Certificate) (hws : ∀ c ∈ ws, ∀ d ∈ ws,
      c.digest = d.digest ∨ (c.round, c.origin) = (d.round, d.origin) → c = d) :
    (ws.foldl CertificateStore.write empty).Indexed ∧
      ∀ c, (ws.foldl CertificateStore.write empty).Holds c ↔ c ∈ ws := by
  induction ws using List.reverseRecOn with
  | nil =>
    refine ⟨indexed_empty, fun c => ?_⟩
    simp [Holds, empty]
  | append_singleton ws w ih =>
    obtain ⟨hindexed, hhold⟩ := ih fun c hc d hd =>
      hws c (mem_append_left _ hc) d (mem_append_left _ hd)
    rw [foldl_concat]
    set s := ws.foldl CertificateStore.write empty
    have hsame : ∀ d ∈ ws, d.digest = w.digest ∨ (d.round, d.origin) = (w.round, w.origin) →
        d = w := fun d hd =>
      hws d (mem_append_left _ hd) w (mem_append_right _ mem_cons_self)
    refine ⟨hindexed.write fun d hd he => hsame d ((hhold d).mp hd) (.inl he), fun c => ?_⟩
    rw [mem_append, mem_singleton]
    constructor
    · intro hc
      by_cases hcw : c = w
      · exact .inr hcw
      · exact .inl ((hhold c).mp (hc.of_write hcw))
    · rintro (hc | rfl)
      · by_cases hcw : c = w
        · subst hcw
          exact holds_write_self s c
        · apply ((hhold c).mpr hc).write
          · exact fun he => hcw (hsame c hc (.inl he.symm))
          · exact fun he => hcw (hsame c hc (.inr he.symm))
      · exact holds_write_self s c

theorem Indexed.afterRound (h : s.Indexed) (round : Nat) :
    ∃ cs, s.afterRound round = .ok cs ∧ ∀ c, c ∈ cs ↔ s.Holds c ∧ round ≤ c.round := by
  have hrows : ∀ rows : List ((Nat × Nat) × Nat),
      (∀ e ∈ rows, s.certificateDigestByRound[e.1]? = some e.2) →
      ∃ cs, (rows.mapM fun e => match s.certificates[e.2]? with
        | some c => Except.ok c
        | none => .error e.2) = .ok cs ∧
        ∀ c, c ∈ cs ↔ s.Holds c ∧ ((c.round, c.origin), c.digest) ∈ rows := by
    intro rows
    induction rows with
    | nil => exact fun _ => ⟨[], rfl, by simp⟩
    | cons e rows ih =>
      intro hall
      obtain ⟨he, hrest⟩ := forall_mem_cons.mp hall
      obtain ⟨cs, hcs, hmem⟩ := ih hrest
      obtain ⟨c, hc, hd, hk⟩ := h e.1 e.2 he
      refine ⟨c :: cs, ?_, fun x => ?_⟩
      · rw [mapM_cons, ← hd, hc.1, hcs]
        rfl
      · rw [mem_cons, mem_cons, hmem, ← Prod.eta e, ← hk, ← hd]
        constructor
        · rintro (rfl | hx)
          · exact ⟨hc, .inl rfl⟩
          · exact ⟨hx.1, .inr hx.2⟩
        · rintro ⟨hx, heq | hin⟩
          · have hdig := (Prod.mk.inj heq).2
            left
            have := hx.1
            rw [hdig, hc.1] at this
            exact (Option.some.inj this).symm
          · exact .inr ⟨hx, hin⟩
  obtain ⟨cs, hcs, hmem⟩ := hrows (s.certificateDigestByRound.toList.filter fun e =>
    round ≤ e.1.1) (fun e he => mem_toList_iff_getElem?_eq_some.mp (mem_filter.mp he).1)
  refine ⟨cs, hcs, fun c => ?_⟩
  rw [hmem, mem_filter, mem_toList_iff_getElem?_eq_some]
  simp only [decide_eq_true_eq]
  exact ⟨fun hc => ⟨hc.1, hc.2.2⟩, fun hc => ⟨hc.1, hc.1.2, hc.2⟩⟩

end CertificateStore

def maxRound : Nat := 4294967295

theorem compareRoundOrigin_lt {a b : Nat × Nat} :
    compareRoundOrigin a b = .lt ↔ a.1 < b.1 ∨ a.1 = b.1 ∧ a.2 < b.2 := by
  have h : compareRoundOrigin a b = (compare a.1 b.1).then (compare a.2 b.2) := rfl
  rw [h, Ordering.then_eq_lt, Nat.compare_eq_lt, Nat.compare_eq_eq, Nat.compare_eq_lt]

/-- Rows of the index are `(author, round)`, and each leads to a certificate of that slot. -/
structure OriginIndex where
  certificates : ExtTreeMap Nat Certificate
  certificateDigestByOrigin : ExtTreeMap (Nat × Nat) Nat compareRoundOrigin
  indexed : ∀ (k : Nat × Nat) d, certificateDigestByOrigin[k]? = some d →
    ∃ c, certificates[d]? = some c ∧ c.digest = d ∧ (c.origin, c.round) = k
  bounded : ∀ k ∈ certificateDigestByOrigin, k.2 ≤ maxRound

namespace OriginIndex

def empty : OriginIndex where
  certificates := ∅
  certificateDigestByOrigin := ∅
  indexed := by
    intro k d h
    simp at h
  bounded := by
    intro k h
    simp at h

def Holds (s : OriginIndex) (c : Certificate) : Prop :=
  s.certificates[c.digest]? = some c ∧
    s.certificateDigestByOrigin[(c.origin, c.round)]? = some c.digest

theorem not_holds_empty (c : Certificate) : ¬ empty.Holds c := by
  rintro ⟨h, _⟩
  simp [empty] at h

def write (s : OriginIndex) (c : Certificate) (hround : c.round ≤ maxRound)
    (hdigest : ∀ d, s.Holds d → d.digest = c.digest → d = c) : OriginIndex where
  certificates := s.certificates.insert c.digest c
  certificateDigestByOrigin := s.certificateDigestByOrigin.insert (c.origin, c.round) c.digest
  indexed := by
    intro k d hk
    rw [ExtTreeMap.getElem?_insert] at hk
    split at hk
    · rename_i hcmp
      cases hk
      exact ⟨c, by simp, rfl, eq_of_compare hcmp⟩
    · obtain ⟨e, he, hed, hek⟩ := s.indexed k d hk
      by_cases hcd : c.digest = d
      · have hholds : s.Holds e := ⟨by rw [hed]; exact he, by rw [hek, hed]; exact hk⟩
        refine ⟨c, by rw [hcd]; simp, hcd, ?_⟩
        rw [← hdigest e hholds (hed.trans hcd.symm)]
        exact hek
      · refine ⟨e, ?_, hed, hek⟩
        simp only [ExtTreeMap.getElem?_insert, Nat.compare_eq_eq, if_neg hcd]
        exact he
  bounded := by
    intro k hk
    rcases ExtTreeMap.mem_insert.mp hk with hcmp | hk
    · rw [← eq_of_compare hcmp]
      exact hround
    · exact s.bounded k hk

variable {c : Certificate}

theorem holds_write {s : OriginIndex} {d : Certificate} {hrnd : c.round ≤ maxRound}
    {hdig : ∀ d, s.Holds d → d.digest = c.digest → d = c}
    (h : (s.write c hrnd hdig).Holds d) : d = c ∨ s.Holds d := by
  obtain ⟨hcert, hrow⟩ := h
  simp only [write, ExtTreeMap.getElem?_insert, Nat.compare_eq_eq] at hcert hrow
  split at hcert
  · exact .inl (Option.some.inj hcert).symm
  · rename_i hne
    split at hrow
    · exact absurd (Option.some.inj hrow) hne
    · exact .inr ⟨hcert, hrow⟩

def readByIndex (s : OriginIndex) (origin round : Nat) : Option Certificate := do
  let digest ← s.certificateDigestByOrigin[(origin, round)]?
  s.certificates[digest]?

def nextRoundNumber (s : OriginIndex) (origin round : Nat) : Option Nat :=
  if round < maxRound then
    match s.certificateDigestByOrigin.keys.find? fun k =>
        decide (origin < k.1 ∨ origin = k.1 ∧ round + 1 ≤ k.2) with
    | some k => if k.1 = origin then some k.2 else none
    | none => none
  else none

def Has (s : OriginIndex) (origin round : Nat) : Prop :=
  (origin, round) ∈ s.certificateDigestByOrigin

variable {s : OriginIndex} {orig round : Nat}

theorem readByIndex_of_has (h : s.Has orig round) :
    ∃ c, s.readByIndex orig round = some c ∧ s.Holds c ∧ c.origin = orig ∧ c.round = round := by
  obtain ⟨d, hd⟩ := Option.isSome_iff_exists.mp (mem_iff_isSome_getElem?.mp h)
  obtain ⟨c, hc, hdig, hslot⟩ := s.indexed _ d hd
  refine ⟨c, ?_, ⟨?_, ?_⟩, congrArg Prod.fst hslot, congrArg Prod.snd hslot⟩
  · simp only [readByIndex, hd, Option.bind_eq_bind, Option.bind_some, hc]
  · rw [hdig]
    exact hc
  · rw [hslot, hdig]
    exact hd

theorem Holds.has (h : s.Holds c) : s.Has c.origin c.round :=
  mem_iff_isSome_getElem?.mpr (by rw [h.2]; rfl)

theorem Holds.readByIndex_eq (h : s.Holds c) : s.readByIndex c.origin c.round = some c := by
  simp only [readByIndex, h.2, Option.bind_eq_bind, Option.bind_some, h.1]

theorem exists_find_of_has {s' : Nat} (h : s.Has orig s') (hlt : round < s') :
    ∃ k, (s.certificateDigestByOrigin.keys.find? fun k =>
        decide (orig < k.1 ∨ orig = k.1 ∧ round + 1 ≤ k.2)) = some k ∧
      k.1 = orig ∧ k.2 ≤ s' := by
  have hmem : (orig, s') ∈ s.certificateDigestByOrigin.keys := ExtTreeMap.mem_keys.mpr h
  have hsat : decide (orig < orig ∨ orig = orig ∧ round + 1 ≤ s') = true :=
    decide_eq_true (.inr ⟨rfl, hlt⟩)
  cases hfind : s.certificateDigestByOrigin.keys.find? fun k =>
      decide (orig < k.1 ∨ orig = k.1 ∧ round + 1 ≤ k.2) with
  | none =>
    have := List.find?_eq_none.mp hfind _ hmem
    exact absurd hsat this
  | some k =>
    obtain ⟨hk, pre, after, heq, hbef⟩ := List.find?_eq_some_iff_append.mp hfind
    have hk := of_decide_eq_true hk
    have hsort : (pre ++ k :: after).Pairwise fun a b => compareRoundOrigin a b = .lt := by
      rw [← heq]
      exact ordered_keys
    rw [heq, List.mem_append, List.mem_cons] at hmem
    refine ⟨k, rfl, ?_⟩
    -- the row of the author at `s'` is the one found or comes after it
    rcases hmem with hmem | rfl | hmem
    · have := hbef _ hmem
      rw [hsat] at this
      cases this
    · omega
    · have hlt' := (List.pairwise_cons.mp (List.pairwise_append.mp hsort).2.1).1 _ hmem
      have hlt' := compareRoundOrigin_lt.mp hlt'
      omega

theorem nextRoundNumber_none (h : s.nextRoundNumber orig round = none) {s' : Nat}
    (hs : s.Has orig s') : s' ≤ round := by
  by_contra hlt
  rw [not_le] at hlt
  obtain ⟨k, hfind, horig, _⟩ := exists_find_of_has hs hlt
  have hrnd : round < maxRound := lt_of_lt_of_le hlt (s.bounded _ hs)
  simp only [nextRoundNumber, if_pos hrnd, hfind, if_pos horig] at h
  cases h

theorem nextRoundNumber_some {r : Nat} (h : s.nextRoundNumber orig round = some r) :
    s.Has orig r ∧ round < r ∧ ∀ s', s.Has orig s' → round < s' → r ≤ s' := by
  unfold nextRoundNumber at h
  split at h
  · split at h
    · rename_i k hfind
      split at h
      · rename_i horig
        cases h
        have hmem := ExtTreeMap.mem_keys.mp (List.mem_of_find?_eq_some hfind)
        have hsat := List.find?_some hfind
        have hk := of_decide_eq_true hsat
        refine ⟨?_, by omega, ?_⟩
        · rw [← horig]
          exact hmem
        · intro s' hs hlt
          obtain ⟨k', hfind', _, hle⟩ := exists_find_of_has hs hlt
          rw [hfind] at hfind'
          cases hfind'
          exact hle
      · cases h
    · cases h
  · cases h

end OriginIndex

end Axyl
