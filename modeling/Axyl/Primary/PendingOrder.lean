import Axyl.Lib.After
import Axyl.Primary.PendingCertificates
import Axyl.Consensus.CertificateDag

/-! The order in which pending certificates become ready: the index of the missing parents agrees with
the pending certificates, and no certificate is ready before a parent that it needs. -/

namespace Axyl
open List PendingCertificateManager
open Std (ExtTreeMap ExtTreeSet)
open Std.ExtTreeMap

def SignedCertificate.Needs (gcRound : Nat) (c : SignedCertificate) (p : Nat) : Prop :=
  gcRound + 1 < c.round ∧ p ∈ c.parents

/-- The digest is one that the pending certificate waits under, and it misses some of its parents. -/
structure PendingCertificate.Waits (w : PendingCertificate) (d : Nat) : Prop where
  digest : w.certificate.digest = d
  round : 2 ≤ w.certificate.round
  missing : ∃ p, p ∈ w.missingParentDigests
  parents : ∀ p ∈ w.missingParentDigests, p ∈ w.certificate.parents

def PendingCertificate.Misses (w : PendingCertificate) (key : Nat × Nat) : Prop :=
  key.1 + 1 = w.certificate.round ∧ key.2 ∈ w.missingParentDigests

namespace PendingCertificateManager

def Awaits (m : PendingCertificateManager) (k : Nat × Nat) (d : Nat) : Prop :=
  ∃ digests, m.missingForPending[k]? = some digests ∧ d ∈ digests

/-- The index has a pending certificate under exactly its missing parents. The key `k` is out of the
index while the digests of `owed` are still to be told that their parent is there. -/
structure Linked (k : Nat × Nat) (owed : List Nat) (m : PendingCertificateManager) : Prop where
  waits : ∀ (d : Nat) w, m.pending[d]? = some w → w.Waits d
  awaits : ∀ key d, m.Awaits key d ↔
    ∃ w, m.pending[d]? = some w ∧ w.Misses key ∧ ¬ (d ∈ owed ∧ key = k)
  keyed : ∀ (key : Nat × Nat) digests, m.missingForPending[key]? = some digests → ∃ d, d ∈ digests
  owed : ∀ d ∈ owed, ∃ w, m.pending[d]? = some w ∧ w.Misses k

def Available (gcRound : Nat) (there : Nat → Prop) (m : PendingCertificateManager) : Prop :=
  ∀ (d : Nat) w, m.pending[d]? = some w → ∀ p, w.certificate.Needs gcRound p →
    p ∈ w.missingParentDigests ∨ there p

variable {order : SetOrder} {m : PendingCertificateManager} {k : Nat × Nat} {owed : List Nat}
  {gcRound : Nat} {there there' : Nat → Prop}

theorem getElem?_new {d : Nat} {w : PendingCertificate} : new.pending[d]? ≠ some w :=
  fun h => nomatch (getElem?_empty (a := d)).symm.trans h

theorem linked_new : new.Linked k [] where
  waits := fun _ _ h => absurd h getElem?_new
  awaits := fun key _ =>
    ⟨fun ⟨_, h, _⟩ => (nomatch (getElem?_empty (a := key)).symm.trans h),
      fun ⟨_, h, _⟩ => absurd h getElem?_new⟩
  keyed := fun key _ h => nomatch (getElem?_empty (a := key)).symm.trans h
  owed := nofun

theorem available_new : new.Available gcRound there := fun _ _ h => absurd h getElem?_new

theorem Available.mono (h : m.Available gcRound there) {gcRound' : Nat} (hgc : gcRound ≤ gcRound')
    (hthere : ∀ p, there p → there' p) : m.Available gcRound' there' := by
  intro d w hw p hp
  have hneeds : w.certificate.Needs gcRound p := ⟨by have := hp.1; omega, hp.2⟩
  exact (h d w hw p hneeds).imp_right (hthere p)

variable {d : Nat} {w : PendingCertificate} {pending : ExtTreeMap Nat PendingCertificate}
    {missing digests : ExtTreeSet Nat}
  {parents : List Nat}

theorem getElem?_erase_pending {d' : Nat} :
    (pending.erase d)[d']? = some w ↔ d ≠ d' ∧ pending[d']? = some w := by
  rw [getElem?_erase]
  by_cases h : d = d'
  · simp [h]
  · simp [h]

theorem getElem?_insert_pending {d' : Nat} {v : PendingCertificate} :
    (pending.insert d v)[d']? = some w ↔ d = d' ∧ v = w ∨ d ≠ d' ∧ pending[d']? = some w := by
  rw [ExtTreeMap.getElem?_insert]
  by_cases h : d = d'
  · simp [h]
  · simp [h]

theorem mem_erase_missing {p q : Nat} : q ∈ missing.erase p ↔ p ≠ q ∧ q ∈ missing := by
  rw [ExtTreeSet.mem_erase, Ne, Nat.compare_eq_eq]

theorem exists_mem_of_not_isEmpty (h : ¬ missing.isEmpty) : ∃ p, p ∈ missing := by
  by_contra hnone
  rw [ExtTreeSet.isEmpty_iff, ExtTreeSet.eq_empty_iff_forall_not_mem] at h
  exact h fun p hp => hnone ⟨p, hp⟩

theorem not_isEmpty_of_mem {p : Nat} (h : p ∈ missing) : ¬ missing.isEmpty := by
  rw [ExtTreeSet.isEmpty_iff]
  rintro rfl
  exact ExtTreeSet.not_mem_empty h

theorem Linked.resolve (h : m.Linked k (d :: owed)) (hd : d ∉ owed) (hw : m.pending[d]? = some w)
    (hpend : ∀ (d' : Nat) w', pending[d']? = some w' ↔ d ≠ d' ∧ m.pending[d']? = some w' ∨
      d = d' ∧ ¬ (w.missingParentDigests.erase k.2).isEmpty ∧
        ⟨w.certificate, w.missingParentDigests.erase k.2⟩ = w') :
    Linked k owed { m with pending } := by
  have hoth {d' : Nat} {w' : PendingCertificate} (hne : d ≠ d') :
      pending[d']? = some w' ↔ m.pending[d']? = some w' := by simp [hpend, hne]
  refine ⟨fun d' w' hw' => ?_, fun key d' => ?_, h.keyed, fun d' hd' => ?_⟩
  · rcases (hpend d' w').mp hw' with ⟨-, hw'⟩ | ⟨rfl, hmore, rfl⟩
    · exact h.waits d' w' hw'
    · have hwts := h.waits d w hw
      refine ⟨hwts.digest, hwts.round, exists_mem_of_not_isEmpty hmore, fun p hp => ?_⟩
      exact hwts.parents p (mem_erase_missing.mp hp).2
  · refine (h.awaits key d').trans ?_
    by_cases hne : d = d'
    · subst hne
      obtain ⟨w', hw', hk⟩ := h.owed d mem_cons_self
      cases hw.symm.trans hw'
      constructor
      · rintro ⟨w', hw', hmis, hout⟩
        cases hw.symm.trans hw'
        have hleft : key.2 ∈ w.missingParentDigests.erase k.2 := by
          refine mem_erase_missing.mpr ⟨fun heq => hout ⟨mem_cons_self, ?_⟩, hmis.2⟩
          exact Prod.ext (Nat.succ.inj (hmis.1.trans hk.1.symm)) heq.symm
        exact ⟨_, (hpend d _).mpr (.inr ⟨rfl, not_isEmpty_of_mem hleft, rfl⟩),
          ⟨hmis.1, hleft⟩, fun hin => hd hin.1⟩
      · rintro ⟨w', hw', hmis, -⟩
        rcases (hpend d w').mp hw' with ⟨hne, -⟩ | ⟨-, -, rfl⟩
        · exact absurd rfl hne
        · obtain ⟨hne, hmiss⟩ := mem_erase_missing.mp hmis.2
          exact ⟨w, hw, ⟨hmis.1, hmiss⟩, fun hin => hne (congrArg Prod.snd hin.2).symm⟩
    · simp only [hoth hne, mem_cons, Ne.symm hne, false_or]
  · obtain ⟨w', hw', hk⟩ := h.owed d' (mem_cons_of_mem d hd')
    refine ⟨w', (hoth ?_).mpr hw', hk⟩
    rintro rfl
    exact hd hd'

variable {base : Nat → Prop} {s : Cascade}

namespace Cascade

def There (base : Nat → Prop) (s : Cascade) (p : Nat) : Prop :=
  base p ∨ ∃ c ∈ s.ready, c.digest = p

def tally (s : Cascade) (d : Nat) : Nat :=
  s.ready.countP (fun c => c.digest = d) + (s.manager.isPending d).toNat

structure Causal (gcRound : Nat) (base : Nat → Prop) (k : Nat × Nat) (owed : List Nat)
    (s : Cascade) : Prop where
  linked : s.manager.Linked k owed
  available : s.manager.Available gcRound (s.There base)
  ordered : After.Ordered (·.digest) (SignedCertificate.Needs gcRound) base s.ready
  queue : ∀ e ∈ s.queue, s.There base e.2 ∨ e.1 ≤ gcRound

theorem There.ready {ready : List SignedCertificate} {p : Nat} (h : s.There base p) :
    There base { s with ready := s.ready ++ ready } p := by
  rcases h with h | ⟨c, hc, hp⟩
  · exact .inl h
  · exact .inr ⟨c, mem_append_left ready hc, hp⟩

end Cascade

open Cascade

theorem Cascade.Causal.erase (h : s.Causal gcRound base k (d :: owed)) (hd : d ∉ owed)
    (hk : s.There base k.2 ∨ k.1 ≤ gcRound) (hw : s.manager.pending[d]? = some w)
    (hlast : (w.missingParentDigests.erase k.2).isEmpty) : Causal gcRound base k owed
      { manager := { s.manager with pending := s.manager.pending.erase d }
        queue := s.queue ++ [(w.certificate.round, d)]
        ready := s.ready ++ [w.certificate] } where
  linked := by
    refine h.linked.resolve hd hw fun d' w' => ?_
    rw [getElem?_erase_pending]
    simp [hlast]
  available := by
    intro d' w' hw' p hp
    exact (h.available d' w' (getElem?_erase_pending.mp hw').2 p hp).imp_right There.ready
  ordered := by
    refine h.ordered.snoc fun p hp => ?_
    obtain ⟨w', hw', hrnd, -⟩ := h.linked.owed d mem_cons_self
    cases hw.symm.trans hw'
    -- the parent is the one that has come, or it was there before
    rcases h.available d w hw p hp with hmiss | hthere
    · have hpk : k.2 = p := by
        by_contra hne
        exact not_isEmpty_of_mem (mem_erase_missing.mpr ⟨hne, hmiss⟩) hlast
      rw [← hpk]
      exact hk.resolve_right (by have := hp.1; omega)
    · exact hthere
  queue := by
    intro e he
    rcases mem_append.mp he with he | he
    · exact (h.queue e he).imp_left There.ready
    · cases mem_singleton.mp he
      exact .inl (.inr ⟨w.certificate, mem_append_right _ mem_cons_self,
        (h.linked.waits d w hw).digest⟩)

theorem Cascade.Causal.insert (h : s.Causal gcRound base k (d :: owed)) (hd : d ∉ owed)
    (hk : s.There base k.2 ∨ k.1 ≤ gcRound) (hw : s.manager.pending[d]? = some w)
    (hmore : ¬ (w.missingParentDigests.erase k.2).isEmpty) : Causal gcRound base k owed
      { s with manager := { s.manager with
          pending := s.manager.pending.insert d
            ⟨w.certificate, w.missingParentDigests.erase k.2⟩ } } where
  linked := by
    refine h.linked.resolve hd hw fun d' w' => ?_
    rw [getElem?_insert_pending, or_comm]
    simp [hmore]
  available := by
    intro d' w' hw' p hp
    rcases getElem?_insert_pending.mp hw' with ⟨rfl, rfl⟩ | ⟨-, hw'⟩
    · obtain ⟨w'', hw'', hrnd, -⟩ := h.linked.owed d mem_cons_self
      cases hw.symm.trans hw''
      rcases h.available d w hw p hp with hmiss | hthere
      · by_cases hpk : k.2 = p
        · rw [← hpk]
          exact .inr (hk.resolve_right (by have := hp.1; dsimp only at this; omega))
        · exact .inl (mem_erase_missing.mpr ⟨hpk, hmiss⟩)
      · exact .inr hthere
    · exact h.available d' w' hw' p hp
  ordered := h.ordered
  queue := h.queue

theorem isPending_of_getElem? (hw : m.pending[d]? = some w) : m.isPending d = true := by
  rw [isPending, contains_eq_isSome_getElem?, hw, Option.isSome_some]

theorem isPending_insert (d' : Nat) :
    isPending { m with pending := m.pending.insert d w } d' = (decide (d = d') || m.isPending d') := by
  rw [isPending, ExtTreeMap.contains_insert]
  congr 1
  rw [Bool.eq_iff_iff, beq_iff_eq, Nat.compare_eq_eq, decide_eq_true_iff]

theorem isPending_erase (d' : Nat) :
    isPending { m with pending := m.pending.erase d } d' = (decide (d ≠ d') && m.isPending d') := by
  rw [isPending, contains_erase]
  congr 1
  rw [Bool.eq_iff_iff, bne_iff_ne, Ne, Nat.compare_eq_eq, decide_eq_true_iff]

theorem tally_erase (hw : s.manager.pending[d]? = some w) (hdig : w.certificate.digest = d)
    (queue : List (Nat × Nat)) (d' : Nat) :
    tally { manager := { s.manager with pending := s.manager.pending.erase d }, queue
            ready := s.ready ++ [w.certificate] } d' = s.tally d' := by
  rw [tally, isPending_erase, tally, countP_append, countP_singleton, hdig]
  by_cases hd : d = d'
  · subst hd
    simp [isPending_of_getElem? hw]
  · simp [hd]

theorem tally_insert {w' : PendingCertificate} (hw : s.manager.pending[d]? = some w) (d' : Nat) :
    tally { s with manager := { s.manager with pending := s.manager.pending.insert d w' } } d' =
      s.tally d' := by
  rw [tally, isPending_insert, tally]
  by_cases hd : d = d'
  · subst hd
    simp [isPending_of_getElem? hw]
  · simp [hd]

theorem Cascade.Causal.resolve (h : s.Causal gcRound base k owed) (hnd : owed.Nodup)
    (hk : s.There base k.2 ∨ k.1 ≤ gcRound) : ∃ s', resolve k.2 owed s = (.ok (), s') ∧
      s'.Causal gcRound base k [] ∧ ∀ d, s'.tally d = s.tally d := by
  induction owed generalizing s with
  | nil => exact ⟨s, rfl, h, fun _ => rfl⟩
  | cons d owed ih =>
    obtain ⟨hd, hnd⟩ := nodup_cons.mp hnd
    obtain ⟨w, hw, -⟩ := h.linked.owed d mem_cons_self
    rw [resolve, hw]
    dsimp only
    split
    · next hlast =>
      obtain ⟨s', hs', hcaus, htally⟩ := ih (h.erase hd hk hw hlast) hnd (hk.imp_left There.ready)
      refine ⟨s', hs', hcaus, fun d' => (htally d').trans ?_⟩
      exact tally_erase hw (h.linked.waits d w hw).digest _ d'
    · next hmore =>
      obtain ⟨s', hs', hcaus, htally⟩ := ih (h.insert hd hk hw hmore) hnd hk
      exact ⟨s', hs', hcaus, fun d' => (htally d').trans (tally_insert hw d')⟩

theorem nodup_iter (order : SetOrder) (digests : ExtTreeSet Nat) : (order.iter digests).Nodup := by
  rw [(order.perm digests).nodup_iff]
  refine ExtTreeSet.distinct_toList.imp fun hne heq => hne ?_
  rw [heq, Nat.compare_eq_eq]

theorem mem_iter (order : SetOrder) : d ∈ order.iter digests ↔ d ∈ digests := by
  rw [(order.perm digests).mem_iff, ExtTreeSet.mem_toList]

variable {key : Nat × Nat}

theorem Linked.eraseKey (h : m.Linked k []) (hkey : m.missingForPending[key]? = some digests) :
    Linked key (order.iter digests)
      { m with missingForPending := m.missingForPending.erase key } := by
  have herase (key' : Nat × Nat) (set : ExtTreeSet Nat) :
      (m.missingForPending.erase key)[key']? = some set ↔
        key ≠ key' ∧ m.missingForPending[key']? = some set := by
    rw [getElem?_erase]
    by_cases hne : key = key'
    · simp [hne]
    · simp [hne, Std.LawfulEqCmp.compare_eq_iff_eq]
  have hawaits (key' : Nat × Nat) (d : Nat) :
      Awaits { m with missingForPending := m.missingForPending.erase key } key' d ↔
        key ≠ key' ∧ m.Awaits key' d := by
    simp only [Awaits, herase, and_assoc, exists_and_left]
  refine ⟨h.waits, fun key' d => ?_, fun key' set hset => ?_, fun d hd => ?_⟩
  · rw [hawaits, h.awaits]
    constructor
    · rintro ⟨hne, w, hw, hmis, -⟩
      exact ⟨w, hw, hmis, fun hin => hne hin.2.symm⟩
    · rintro ⟨w, hw, hmis, hout⟩
      have hnone : ¬ (d ∈ [] ∧ key' = k) := fun hin => not_mem_nil hin.1
      refine ⟨?_, w, hw, hmis, hnone⟩
      rintro rfl
      obtain ⟨set, hset, hd⟩ := (h.awaits key d).mpr ⟨w, hw, hmis, hnone⟩
      cases hkey.symm.trans hset
      exact hout ⟨(mem_iter order).mpr hd, rfl⟩
  · exact h.keyed key' set ((herase key' set).mp hset).2
  · obtain ⟨w, hw, hmis, -⟩ := (h.awaits key d).mp ⟨digests, hkey, (mem_iter order).mp hd⟩
    exact ⟨w, hw, hmis⟩

theorem Cascade.Causal.cascade {fuel : Nat} (h : s.Causal gcRound base k []) :
    ∃ s' k', cascade order fuel s = (.ok (), s') ∧
      s'.Causal gcRound base k' [] ∧ ∀ d, s'.tally d = s.tally d := by
  induction fuel generalizing s k with
  | zero => exact ⟨s, k, rfl, h, fun _ => rfl⟩
  | succ fuel ih =>
    rw [cascade]
    split
    · exact ⟨s, k, rfl, h, fun _ => rfl⟩
    · next round digest queue hque =>
      have hrest : ∀ e ∈ queue, s.There base e.2 ∨ e.1 ≤ gcRound := by
        intro e he
        refine h.queue e ?_
        rw [hque]
        exact mem_cons_of_mem _ he
      have hfst : s.There base digest ∨ round ≤ gcRound := by
        refine h.queue (round, digest) ?_
        rw [hque]
        exact mem_cons_self
      split
      · exact ih { h with queue := hrest }
      · next digests hdigs =>
        dsimp only
        have howed : Causal gcRound base (round, digest) (order.iter digests) { s with
              manager := { s.manager with
                missingForPending := s.manager.missingForPending.erase (round, digest) }
              queue } :=
          ⟨h.linked.eraseKey hdigs, h.available, h.ordered, hrest⟩
        obtain ⟨s₁, hs₁, hcaus₁, htally₁⟩ := howed.resolve (nodup_iter order digests) hfst
        rw [hs₁]
        obtain ⟨s', k', hs', hcaus', htally'⟩ := ih hcaus₁
        exact ⟨s', k', hs', hcaus', fun d => (htally' d).trans (htally₁ d)⟩

theorem Linked.updatePending (order : SetOrder) (h : m.Linked k []) (round digest : Nat)
    (havail : m.Available gcRound base) (hfst : base digest ∨ round ≤ gcRound) :
    ∃ ready m' k', m.updatePending order round digest = (.ok ready, m') ∧ m'.Linked k' [] ∧
      m'.Available gcRound (fun p => base p ∨ ∃ c ∈ ready, c.digest = p) ∧
      After.Ordered (·.digest) (SignedCertificate.Needs gcRound) base ready ∧
      ∀ d, ready.countP (fun c => c.digest = d) + (m'.isPending d).toNat =
        (m.isPending d).toNat := by
  have hst : Causal gcRound base k [] ⟨m, [(round, digest)], []⟩ := by
    refine ⟨h, havail.mono (le_refl _) fun p hp => .inl hp, trivial, fun e he => ?_⟩
    cases mem_singleton.mp he
    exact hfst.imp_left .inl
  obtain ⟨s', k', hs', hcaus, htally⟩ := hst.cascade
  refine ⟨s'.ready, s'.manager.publishCount, k', ?_, ?_, hcaus.available, hcaus.ordered,
    fun d => ?_⟩
  · rw [PendingCertificateManager.updatePending, hs']
  · exact { hcaus.linked with }
  · have hd := htally d
    simp only [tally, countP_nil, zero_add] at hd
    exact hd

def await (round digest : Nat)
    (missing : ExtTreeMap (Nat × Nat) (ExtTreeSet Nat) compareRoundOrigin) (parent : Nat) :
    ExtTreeMap (Nat × Nat) (ExtTreeSet Nat) compareRoundOrigin :=
  missing.insert (round, parent) ((missing[(round, parent)]?.getD ∅).insert digest)

variable {rnd digest : Nat}

theorem awaits_await {parent : Nat} :
    Awaits { m with missingForPending := await rnd digest m.missingForPending parent } key d ↔
      m.Awaits key d ∨ d = digest ∧ key = (rnd, parent) := by
  simp only [Awaits, await, ExtTreeMap.getElem?_insert, Std.LawfulEqCmp.compare_eq_iff_eq]
  by_cases hkey : (rnd, parent) = key
  · subst hkey
    simp only [if_true, Option.some.injEq, exists_eq_left', ExtTreeSet.mem_insert,
      Nat.compare_eq_eq, and_true]
    cases m.missingForPending[(rnd, parent)]? with
    | none => simp [eq_comm]
    | some set => simp [eq_comm, or_comm]
  · simp [hkey, Ne.symm hkey]

theorem awaits_foldl_await : Awaits { m with
        missingForPending := parents.foldl (await rnd digest) m.missingForPending } key d ↔
      m.Awaits key d ∨ d = digest ∧ key.1 = rnd ∧ key.2 ∈ parents := by
  induction parents generalizing m with
  | nil => simp
  | cons parent parents ih =>
    rw [foldl_cons]
    have hrest := ih (m := { m with
      missingForPending := await rnd digest m.missingForPending parent })
    rw [hrest, awaits_await, Prod.ext_iff]
    rw [mem_cons]
    tauto

theorem keyed_foldl_await {missing : ExtTreeMap (Nat × Nat) (ExtTreeSet Nat) compareRoundOrigin}
    (h : ∀ (key : Nat × Nat) digests, missing[key]? = some digests → ∃ d, d ∈ digests) :
    ∀ (key : Nat × Nat) digests, (parents.foldl (await rnd digest) missing)[key]? = some digests →
      ∃ d, d ∈ digests := by
  induction parents generalizing missing with
  | nil => exact h
  | cons parent parents ih =>
    refine ih fun key digests hkey => ?_
    rw [await, ExtTreeMap.getElem?_insert] at hkey
    split at hkey
    · cases hkey
      exact ⟨digest, ExtTreeSet.mem_insert.mpr (.inl (Nat.compare_eq_eq.mpr rfl))⟩
    · exact h key digests hkey

theorem Linked.insertPending (order : SetOrder) (h : m.Linked k [])
    (havail : m.Available gcRound there) {certificate : SignedCertificate}
    (hnew : m.isPending certificate.digest = false)
    (hwts : PendingCertificate.Waits ⟨certificate, missing⟩ certificate.digest)
    (hneeds : ∀ p, certificate.Needs gcRound p → p ∈ missing ∨ there p) :
    ∃ m', m.insertPending order certificate missing = (.ok (), m') ∧ m'.Linked k [] ∧
      m'.Available gcRound there ∧
      ∀ d, m'.isPending d = (decide (certificate.digest = d) || m.isPending d) := by
  have hnone : m.pending[certificate.digest]? = none :=
    getElem?_eq_none_of_contains_eq_false hnew
  have hrnd : certificate.round - 1 + 1 = certificate.round := by
    have := hwts.round
    dsimp only at this
    omega
  obtain ⟨m', hm'⟩ : ∃ m', m.insertPending order certificate missing = (.ok (), m') ∧
      m'.pending = m.pending.insert certificate.digest ⟨certificate, missing⟩ ∧
      m'.missingForPending = (order.iter missing).foldl
        (await (certificate.round - 1) certificate.digest) m.missingForPending := by
    unfold PendingCertificateManager.insertPending
    dsimp only
    rw [hnone]
    exact ⟨_, rfl, rfl, rfl⟩
  obtain ⟨hins, hpend, hmiss⟩ := hm'
  have hget {d : Nat} {w : PendingCertificate} : m'.pending[d]? = some w ↔
      certificate.digest = d ∧ ⟨certificate, missing⟩ = w ∨
        certificate.digest ≠ d ∧ m.pending[d]? = some w := by
    rw [hpend, getElem?_insert_pending]
  have hawaits {key : Nat × Nat} {d : Nat} : m'.Awaits key d ↔
      m.Awaits key d ∨ d = certificate.digest ∧ key.1 = certificate.round - 1 ∧ key.2 ∈ missing := by
    rw [Awaits, hmiss, ← mem_iter order]
    exact awaits_foldl_await (m := m)
  refine ⟨m', hins, ⟨fun d w hw => ?_, fun key d => ?_, ?_, nofun⟩, fun d w hw p hp => ?_,
    fun d => ?_⟩
  · rcases hget.mp hw with ⟨rfl, rfl⟩ | ⟨-, hw⟩
    · exact hwts
    · exact h.waits d w hw
  · rw [hawaits, h.awaits]
    simp only [hget, not_mem_nil, false_and, not_false_eq_true, and_true]
    constructor
    · rintro (⟨w, hw, hmis⟩ | ⟨rfl, hkey, hmem⟩)
      · refine ⟨w, .inr ⟨?_, hw⟩, hmis⟩
        rintro rfl
        cases hnone.symm.trans hw
      · exact ⟨_, .inl ⟨rfl, rfl⟩, by rw [hkey, hrnd], hmem⟩
    · rintro ⟨w, ⟨rfl, rfl⟩ | ⟨-, hw⟩, hmis⟩
      · have hkey := hmis.1
        exact .inr ⟨rfl, by dsimp only at hkey; omega, hmis.2⟩
      · exact .inl ⟨w, hw, hmis⟩
  · rw [hmiss]
    exact keyed_foldl_await h.keyed
  · rcases hget.mp hw with ⟨rfl, rfl⟩ | ⟨-, hw⟩
    · exact hneeds p hp
    · exact havail d w hw p hp
  · rw [isPending, hpend]
    exact isPending_insert d

theorem Linked.nextForGcRound (h : m.Linked k []) {committee : Committee}
    {G : CertificateDag committee} (hG : m.All fun c => c.toCertificate ∈ G.certs) (gcRound : Nat) :
    m.nextForGcRound gcRound = (none, m) ∨
      ∃ rnd digest, m.nextForGcRound gcRound = (some (rnd, digest), m) ∧ rnd ≤ gcRound := by
  unfold PendingCertificateManager.nextForGcRound
  split
  · exact .inl rfl
  · next rnd digest hmin =>
    split
    · exact .inl rfl
    · next hrnd =>
      right
      refine ⟨rnd, digest, ?_, by omega⟩
      split
      · rfl
      · next waiting hwait =>
        obtain ⟨hmem, hfst⟩ := minKey?_eq_some_iff_mem_and_forall.mp hmin
        -- the child that waits for the key gives the round of the pending parent
        obtain ⟨digests, hdigs⟩ := Option.isSome_iff_exists.mp
          (mem_iff_isSome_getElem?.mp hmem)
        obtain ⟨d, hd⟩ := h.keyed _ digests hdigs
        obtain ⟨w, hw, ⟨hwround, hmiss⟩, -⟩ := (h.awaits (rnd, digest) d).mp ⟨digests, hdigs, hd⟩
        have hwts := h.waits d w hw
        obtain ⟨parent, hpar, hpdigest, hpround⟩ := G.parents_mem _ (hG d w hw) hwts.round
          digest (hwts.parents digest hmiss)
        have hself := h.waits digest waiting hwait
        have hsame := G.digest_inj parent hpar _ (hG digest waiting hwait)
          (hpdigest.trans hself.digest.symm)
        have hpr : waiting.certificate.round = parent.round := congrArg Certificate.round hsame.symm
        -- a parent that it misses itself is a smaller key
        obtain ⟨p, hp⟩ := hself.missing
        have hself2 := hself.round
        have hkey : m.Awaits (waiting.certificate.round - 1, p) digest := by
          rw [h.awaits]
          exact ⟨waiting, hwait, ⟨by omega, hp⟩, fun hin => not_mem_nil hin.1⟩
        obtain ⟨set, hset, -⟩ := hkey
        have hle := hfst _ (mem_iff_isSome_getElem?.mpr (Option.isSome_of_eq_some hset))
        have hlt : compare rnd (waiting.certificate.round - 1) = .gt :=
          Nat.compare_eq_gt.mpr (by omega)
        have hcmp : compareRoundOrigin (rnd, digest) (waiting.certificate.round - 1, p) = .gt := by
          change (compare rnd (waiting.certificate.round - 1)).then _ = .gt
          rw [hlt]
          rfl
        rw [hcmp] at hle
        cases hle

end PendingCertificateManager

end Axyl
