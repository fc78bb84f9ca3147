import Axyl.Consensus.Agreement
import Axyl.Primary.PendingOrder
import Axyl.Primary.QuorumSigned

/-! Causal completeness of the certificate manager: whatever batches arrive, certificates are stored
and sent to consensus after the parents that they need, and consensus misses none of them. -/

namespace Axyl
open SignedCertificate
open List PendingCertificateManager CertificateStore CertificateManager PendingCertificate
open Std (ExtTreeMap ExtTreeSet)

def ManagerEnv.Accepts (env : ManagerEnv) : Prop :=
  (∀ digests, env.writeFailure digests = none) ∧ ∀ digest, env.outcome digest = .sent

/-- The inputs of the manager of an active validator. A collection comes with the round of the last
commit. -/
inductive ManagerEvent where
  | batch (certs : List SignedCertificate) (env : ManagerEnv)
  | gc (round committed : Nat) (env : ManagerEnv)

def ManagerEvent.delivered : List ManagerEvent → List SignedCertificate
  | [] => []
  | .batch certs _ :: events => certs ++ delivered events
  | .gc .. :: events => delivered events

namespace CertEffect

def written : CertEffect → List SignedCertificate
  | .stored certs => certs
  | _ => []

def sent : CertEffect → Option SignedCertificate
  | .forwarded cert => some cert
  | _ => none

end CertEffect

def CertificateStore.writeAll (store : CertificateStore) (certs : List SignedCertificate) :
    CertificateStore :=
  certs.foldl (fun store c => store.write c.toCertificate) store

theorem mem_writeAll {store : CertificateStore} {certs : List SignedCertificate}
    {p : Nat} : p ∈ (store.writeAll certs).certificates ↔
      p ∈ store.certificates ∨ ∃ c ∈ certs, c.digest = p := by
  induction certs generalizing store with
  | nil => simp [writeAll]
  | cons c certs ih =>
    change p ∈ ((store.write c.toCertificate).writeAll certs).certificates ↔ _
    rw [ih, write, ExtTreeMap.mem_insert, Nat.compare_eq_eq]
    simp only [mem_cons, exists_eq_or_imp]
    tauto

namespace CertificateManager

def step (cfg : CertConfig) (m : CertificateManager) :
    ManagerEvent → List (Nat × CertEffect) × CertificateManager
  | .batch certs env =>
    let r := m.processVerifiedCertificates cfg env certs
    (r.1.map (Prod.mk m.gcRound), r.2.2)
  | .gc round committed env =>
    let r := { m with gcRound := round }.processGcRound cfg env committed true
    (r.1.map (Prod.mk round), r.2.2)

def run (cfg : CertConfig) : CertificateManager → List ManagerEvent →
    List (Nat × CertEffect) × CertificateManager :=
  Reactor.run (step cfg)

def written (store : CertificateStore) : List (Nat × CertEffect) → CertificateStore
  | [] => store
  | x :: fx => written (store.writeAll x.2.written) fx

def StoredWithParents : CertificateStore → List (Nat × CertEffect) → Prop
  | _, [] => True
  | store, x :: fx =>
    (∀ c ∈ x.2.written, ∀ p, c.Needs x.1 p → p ∈ (store.writeAll x.2.written).certificates) ∧
      StoredWithParents (store.writeAll x.2.written) fx

def sent (fx : List (Nat × CertEffect)) : List (Nat × SignedCertificate) :=
  fx.filterMap fun x => x.2.sent.map (Prod.mk x.1)

def SentAfterParents (store : CertificateStore) (fx : List (Nat × CertEffect)) : Prop :=
  After.Ordered (fun x : Nat × SignedCertificate => x.2.digest) (fun x => x.2.Needs x.1)
    (· ∈ store.certificates) (sent fx)

section
variable {store : CertificateStore} {fx fx' : List (Nat × CertEffect)}

theorem written_append : written store (fx ++ fx') = written (written store fx) fx' := by
  induction fx generalizing store with
  | nil => rfl
  | cons x fx ih => exact ih

theorem storedWithParents_append : StoredWithParents store (fx ++ fx') ↔
    StoredWithParents store fx ∧ StoredWithParents (written store fx) fx' := by
  induction fx generalizing store with
  | nil => exact (true_and _).symm.to_iff
  | cons x fx ih =>
    rw [cons_append, StoredWithParents, ih, StoredWithParents, and_assoc]
    rfl

theorem sent_append : sent (fx ++ fx') = sent fx ++ sent fx' := filterMap_append

def Quiet (fx : List (Nat × CertEffect)) : Prop :=
  ∀ x ∈ fx, x.2.written = [] ∧ x.2.sent = none

theorem quiet_nil : Quiet [] := nofun

theorem Quiet.written (h : Quiet fx) : written store fx = store := by
  induction fx with
  | nil => rfl
  | cons x fx ih =>
    obtain ⟨hx, hfx⟩ := forall_mem_cons.mp h
    rw [CertificateManager.written, hx.1]
    exact ih hfx

theorem Quiet.storedWithParents (h : Quiet fx) : StoredWithParents store fx := by
  induction fx with
  | nil => exact trivial
  | cons x fx ih =>
    obtain ⟨hx, hfx⟩ := forall_mem_cons.mp h
    rw [StoredWithParents, hx.1]
    exact ⟨nofun, ih hfx⟩

theorem Quiet.sent (h : Quiet fx) : sent fx = [] := by
  refine filterMap_eq_nil_iff.mpr fun x hx => ?_
  rw [(h x hx).2, Option.map_none]

def accepted (g : Nat) (certs : List SignedCertificate) : List (Nat × CertEffect) :=
  (g, .stored certs) :: certs.map fun c => (g, .forwarded c)

theorem written_forwarded (g : Nat) (certs : List SignedCertificate) :
    written store (certs.map fun c => (g, CertEffect.forwarded c)) = store := by
  induction certs with
  | nil => rfl
  | cons c certs ih => exact ih

theorem storedWithParents_forwarded (g : Nat) (certs : List SignedCertificate) :
    StoredWithParents store (certs.map fun c => (g, CertEffect.forwarded c)) := by
  induction certs with
  | nil => exact trivial
  | cons c certs ih => exact ⟨nofun, ih⟩

theorem sent_accepted (g : Nat) (certs : List SignedCertificate) :
    sent (accepted g certs) = certs.map (Prod.mk g) := by
  change (certs.map fun c => (g, CertEffect.forwarded c)).filterMap _ = _
  rw [filterMap_map, ← filterMap_eq_map]
  rfl

theorem storedWithParents_accepted {g : Nat} {certs : List SignedCertificate}
    (h : After.Ordered (·.digest) (Needs g) (· ∈ store.certificates) certs) :
    StoredWithParents store (accepted g certs) := by
  refine ⟨fun c hc p hp => ?_, ?_⟩
  · obtain ⟨before, after, rfl⟩ := append_of_mem hc
    rw [mem_writeAll]
    refine (h.of_append_cons hp).imp_right ?_
    rintro ⟨b, hb, hdig⟩
    exact ⟨b, mem_append_left _ hb, hdig⟩
  · exact storedWithParents_forwarded g certs

end

/-- The manager with what it has done so far, from a store and nothing pending. -/
structure Tracked {committee : Committee} (G : CertificateDag committee) (store : CertificateStore)
    (delivered : List SignedCertificate) (fx : List (Nat × CertEffect)) (m : CertificateManager) :
    Prop where
  linked : ∃ k, m.pending.Linked k []
  all : m.pending.All fun c => c.toCertificate ∈ G.certs
  available : m.pending.Available m.gcRound (· ∈ m.store.certificates)
  store_eq : m.store = written store fx
  stored : StoredWithParents store fx
  known : ∀ p ∈ m.store.certificates, p ∈ store.certificates ∨ ∃ x ∈ sent fx, x.2.digest = p
  mem : ∀ x ∈ sent fx, x.2.toCertificate ∈ G.certs
  ordered : SentAfterParents store fx
  counted : ∀ d, (sent fx).countP (fun x => x.2.digest = d) + (m.pending.isPending d).toNat ≤
    delivered.countP fun c => c.digest = d

section
variable {committee : Committee} {G : CertificateDag committee} {store : CertificateStore}
  {delivered : List SignedCertificate} {fx : List (Nat × CertEffect)} {m : CertificateManager}
  {cfg : CertConfig} {env : ManagerEnv}

theorem tracked_start (hm : m.pending = .new) : Tracked G m.store [] [] m where
  linked := ⟨(0, 0), by rw [hm]; exact linked_new⟩
  all := by rw [hm]; exact all_new
  available := by rw [hm]; exact available_new
  store_eq := rfl
  stored := trivial
  known := fun _ hp => .inl hp
  mem := nofun
  ordered := trivial
  counted := by
    intro d
    rw [hm]
    exact le_of_eq rfl

variable {cert : SignedCertificate} {fx' : List CertEffect}

theorem missing_parents {result : CertManagerResult (ExtTreeSet Nat)}
    (h : (if m.gcRound + 1 < cert.round then m.getMissingParents cfg env cert else ([], .ok ∅)) =
      (fx', result)) : Quiet (fx'.map (Prod.mk m.gcRound)) ∧ ∀ missing, result = .ok missing →
      (∀ p, cert.Needs m.gcRound p → p ∈ missing ∨ p ∈ m.store.certificates) ∧
      (¬ missing.isEmpty → Waits ⟨cert, missing⟩ cert.digest) := by
  split at h
  · next hrnd =>
    have hneed : ∀ missing, .ok (ExtTreeSet.ofList
        (cert.parents.filter fun digest => ¬ m.store.certificates.contains digest)) =
          (.ok missing : CertManagerResult _) →
        (∀ p, cert.Needs m.gcRound p → p ∈ missing ∨ p ∈ m.store.certificates) ∧
          (¬ missing.isEmpty → Waits ⟨cert, missing⟩ cert.digest) := by
      rintro _ ⟨⟩
      refine ⟨fun p hp => ?_, fun hmore => ⟨rfl, by dsimp only; omega,
        exists_mem_of_not_isEmpty hmore, fun p hp => ?_⟩⟩
      · by_cases hstd : p ∈ m.store.certificates
        · exact .inr hstd
        · left
          rw [ExtTreeSet.mem_ofList, contains_iff_mem, mem_filter]
          exact ⟨hp.2, by simpa using hstd⟩
      · rw [ExtTreeSet.mem_ofList, contains_iff_mem, mem_filter] at hp
        exact hp.1
    unfold getMissingParents at h
    split at h
    · omega
    · split at h
      · cases h
        exact ⟨quiet_nil, nofun⟩
      · dsimp only at h
        split at h
        · cases h
          exact ⟨quiet_nil, hneed⟩
        · split at h
          · cases h
            exact ⟨quiet_nil, nofun⟩
          · cases h
            refine ⟨fun x hx => ?_, hneed⟩
            cases mem_singleton.mp hx
            exact ⟨rfl, rfl⟩
  · next hrnd =>
    cases h
    refine ⟨quiet_nil, ?_⟩
    rintro _ ⟨⟩
    exact ⟨fun p hp => absurd hp.1 hrnd, fun hmore => absurd ExtTreeSet.isEmpty_empty hmore⟩

/-- The collector is not behind the last commit by more than `gcDepth`, and rounds only rise. The
certificates are those of one epoch. -/
def Regular (cfg : CertConfig) (G : CertificateDag committee) (m : CertificateManager) :
    ManagerEvent → Prop
  | .batch certs env => env.Accepts ∧ ∀ c ∈ certs, c.toCertificate ∈ G.certs
  | .gc round committed env =>
    env.Accepts ∧ m.gcRound ≤ round ∧ committed - round ≤ cfg.gcDepth

section
variable (h : Tracked G store delivered fx m)
include h

theorem Tracked.more (more : List SignedCertificate) :
    Tracked G store (delivered ++ more) fx m := by
  refine { h with counted := fun d => ?_ }
  have hd := h.counted d
  rw [countP_append]
  omega

theorem Tracked.quiet {fx' : List (Nat × CertEffect)} (hfx' : Quiet fx') :
    Tracked G store delivered (fx ++ fx') m := by
  have hsent : sent (fx ++ fx') = sent fx := by rw [sent_append, hfx'.sent, append_nil]
  refine ⟨h.linked, h.all, h.available, ?_, ?_, ?_, ?_, ?_, ?_⟩
  · rw [written_append, hfx'.written, h.store_eq]
  · exact storedWithParents_append.mpr ⟨h.stored, hfx'.storedWithParents⟩
  · rw [hsent]
    exact h.known
  · rw [hsent]
    exact h.mem
  · rw [SentAfterParents, hsent]
    exact h.ordered
  · rw [hsent]
    exact h.counted

omit h in
theorem forwardAll_eq (henv : env.Accepts) (certs : List SignedCertificate)
    (m : CertificateManager) : ∃ m', forwardAll env certs m = (certs.map .forwarded, .ok (), m') ∧
      m'.pending = m.pending ∧ m'.store = m.store ∧ m'.gcRound = m.gcRound := by
  induction certs generalizing m with
  | nil => exact ⟨m, rfl, rfl, rfl, rfl⟩
  | cons c certs ih =>
    obtain ⟨m', hm', hsame⟩ := ih (m.recordAccepted c)
    refine ⟨m', ?_, hsame⟩
    rw [forwardAll, henv.2, hm']
    rfl

omit h in
theorem acceptVerifiedCertificates_eq (cfg : CertConfig) (henv : env.Accepts)
    (certs : List SignedCertificate) (m : CertificateManager) :
    ∃ m', m.acceptVerifiedCertificates cfg env certs =
        (.stored certs :: certs.map .forwarded, .ok (), m') ∧
      m'.pending = m.pending ∧ m'.store = m.store.writeAll certs ∧ m'.gcRound = m.gcRound := by
  obtain ⟨m₁, hpers, hsame₁⟩ : ∃ m₁, m.persist cfg env certs = (.ok (), m₁) ∧
      m₁.pending = m.pending ∧ m₁.store = m.store.writeAll certs ∧ m₁.gcRound = m.gcRound := by
    rw [persist, henv.1]
    exact ⟨_, rfl, rfl, rfl, rfl⟩
  obtain ⟨m', hfwd, hsame⟩ := forwardAll_eq henv certs m₁
  refine ⟨m', ?_, hsame.1.trans hsame₁.1, hsame.2.1.trans hsame₁.2.1, hsame.2.2.trans hsame₁.2.2⟩
  rw [acceptVerifiedCertificates, hpers]
  dsimp only
  rw [hfwd]

def Follows (G : CertificateDag committee) (store : CertificateStore)
    (delivered : List SignedCertificate) (fx : List (Nat × CertEffect)) (g : Nat)
    (r : ManagerResult) : Prop :=
  Tracked G store delivered (fx ++ r.1.map (Prod.mk g)) r.2.2 ∧ r.2.2.gcRound = g

theorem Tracked.stay (result : CertManagerResult Unit) :
    Follows G store delivered fx m.gcRound ([], result, m) :=
  ⟨h.quiet quiet_nil, rfl⟩

variable {certs : List SignedCertificate}

theorem Tracked.accept {more : List SignedCertificate} {pending : PendingCertificateManager}
    {k : Nat × Nat} (hlkd : pending.Linked k [])
    (hall : pending.All fun c => c.toCertificate ∈ G.certs)
    (havail : pending.Available m.gcRound fun p =>
      p ∈ m.store.certificates ∨ ∃ c ∈ certs, c.digest = p)
    (hord : After.Ordered (·.digest) (Needs m.gcRound) (· ∈ m.store.certificates) certs)
    (hcs : ∀ c ∈ certs, c.toCertificate ∈ G.certs)
    (hcnt : ∀ d, certs.countP (fun c => c.digest = d) + (pending.isPending d).toNat ≤
      more.countP (fun c => c.digest = d) + (m.pending.isPending d).toNat) {m' : CertificateManager}
    (hpend : m'.pending = pending) (hstore : m'.store = m.store.writeAll certs)
    (hgc : m'.gcRound = m.gcRound) :
    Tracked G store (delivered ++ more) (fx ++ accepted m.gcRound certs) m' := by
  have hsent : sent (fx ++ accepted m.gcRound certs) = sent fx ++ certs.map (Prod.mk m.gcRound) := by
    rw [sent_append, sent_accepted]
  refine ⟨⟨k, hpend ▸ hlkd⟩, hpend ▸ hall, ?_, ?_, ?_, ?_, ?_, ?_, ?_⟩
  · rw [hpend, hgc, hstore]
    exact havail.mono (le_refl _) fun p hp => mem_writeAll.mpr hp
  · rw [written_append, ← h.store_eq, hstore]
    exact (written_forwarded _ certs).symm
  · refine storedWithParents_append.mpr ⟨h.stored, ?_⟩
    rw [← h.store_eq]
    exact storedWithParents_accepted hord
  · intro p hp
    rw [hstore, mem_writeAll] at hp
    rw [hsent]
    rcases hp with hp | ⟨c, hc, hdig⟩
    · refine (h.known p hp).imp_right ?_
      rintro ⟨x, hx, hdig⟩
      exact ⟨x, mem_append_left _ hx, hdig⟩
    · exact .inr ⟨(m.gcRound, c), mem_append_right _ (mem_map_of_mem hc), hdig⟩
  · intro x hx
    rw [hsent] at hx
    rcases mem_append.mp hx with hx | hx
    · exact h.mem x hx
    · obtain ⟨c, hc, rfl⟩ := mem_map.mp hx
      exact hcs c hc
  · rw [SentAfterParents, hsent, After.ordered_append, After.ordered_map]
    exact ⟨h.ordered, hord.mono h.known⟩
  · intro d
    have hd := h.counted d
    have hc := hcnt d
    rw [hsent, countP_append, countP_append, countP_map, hpend]
    change _ + certs.countP (fun c => c.digest = d) + _ ≤ _
    omega

theorem Tracked.unlock (cfg : CertConfig) (henv : env.Accepts) {round digest : Nat}
    (hcs : ∀ c ∈ certs, c.toCertificate ∈ G.certs)
    (hneeds : After.Ordered (·.digest) (Needs m.gcRound) (· ∈ m.store.certificates) certs)
    (hfst : (∃ c ∈ certs, c.digest = digest) ∨ round ≤ m.gcRound) : ∃ unlocked pending fx' m',
      m.pending.updatePending cfg.order round digest = (.ok unlocked, pending) ∧
      { m with pending }.acceptVerifiedCertificates cfg env (certs ++ unlocked) =
        (fx', .ok (), m') ∧
      Follows G store (delivered ++ certs) fx m.gcRound (fx', .ok (), m') := by
  obtain ⟨k, hlkd⟩ := h.linked
  have hbase : m.pending.Available m.gcRound fun p =>
      p ∈ m.store.certificates ∨ ∃ c ∈ certs, c.digest = p :=
    h.available.mono (le_refl _) fun _ hp => .inl hp
  obtain ⟨unlocked, pending, k', hupd, hlkd', havail, hord, hcnt⟩ :=
    hlkd.updatePending cfg.order round digest hbase (hfst.imp_left .inr)
  obtain ⟨hall, hrdy⟩ := h.all.updatePending hupd
  obtain ⟨m', hm', hpend, hstore, hgc⟩ :=
    acceptVerifiedCertificates_eq cfg henv (certs ++ unlocked) { m with pending }
  refine ⟨unlocked, pending, _, m', hupd, hm', ?_, hgc⟩
  have hacc : Tracked G store (delivered ++ certs)
      (fx ++ accepted m.gcRound (certs ++ unlocked)) m' := by
    refine h.accept hlkd' hall ?_ (After.ordered_append.mpr ⟨hneeds, hord⟩) ?_ ?_ hpend hstore hgc
    · refine havail.mono (le_refl _) fun p hp => ?_
      rcases hp with (hp | ⟨c, hc, hp⟩) | ⟨c, hc, hp⟩
      · exact .inl hp
      · exact .inr ⟨c, mem_append_left _ hc, hp⟩
      · exact .inr ⟨c, mem_append_right _ hc, hp⟩
    · intro c hc
      exact (mem_append.mp hc).elim (hcs c) (hrdy unlocked rfl c)
    · intro d
      have hd := hcnt d
      rw [countP_append]
      omega
  rw [map_cons, map_map]
  exact hacc

section
variable (cfg : CertConfig)

theorem Tracked.insertPending {missing : ExtTreeSet Nat} (hcert : cert.toCertificate ∈ G.certs)
    (hnew : m.pending.isPending cert.digest = false) (hwts : Waits ⟨cert, missing⟩ cert.digest)
    (hneeds : ∀ p, cert.Needs m.gcRound p → p ∈ missing ∨ p ∈ m.store.certificates) :
    ∃ pending, m.pending.insertPending cfg.order cert missing = (.ok (), pending) ∧
      Tracked G store (delivered ++ [cert]) fx { m with pending } := by
  obtain ⟨k, hlkd⟩ := h.linked
  obtain ⟨pending, hins, hlkd', havail, hpend⟩ :=
    hlkd.insertPending cfg.order h.available hnew hwts hneeds
  refine ⟨pending, hins, ⟨k, hlkd'⟩, h.all.insertPending hcert hins, havail,
    h.store_eq, h.stored, h.known, h.mem, h.ordered, fun d => ?_⟩
  have hd := h.counted d
  rw [hpend]
  by_cases heq : cert.digest = d
  · subst heq
    rw [hnew] at hd ⊢
    simpa using hd
  · simpa [heq] using hd

theorem Tracked.processAll (henv : env.Accepts) (hcs : ∀ c ∈ certs, c.toCertificate ∈ G.certs)
    (result : CertManagerResult Unit) :
    Follows G store (delivered ++ certs) fx m.gcRound (processAll cfg env certs result m) := by
  induction certs generalizing m fx delivered result with
  | nil => exact (h.more []).stay result
  | cons cert certs ih =>
    obtain ⟨hcert, hrest⟩ := forall_mem_cons.mp hcs
    have hcomma : delivered ++ cert :: certs = delivered ++ [cert] ++ certs := by simp
    rw [processAll]
    split
    · exact (h.more _).stay _
    · split
      · rw [hcomma]
        exact ih (h.more [cert]) hrest _
      · next hnew =>
        split
        · next hmiss => exact ⟨(h.more _).quiet (missing_parents hmiss).1, rfl⟩
        · next fx' missing hmiss =>
          obtain ⟨hqt, hres⟩ := missing_parents hmiss
          obtain ⟨hneeds, hwts⟩ := hres missing rfl
          have hnow := h.quiet hqt
          split
          · next hemp =>
            have hneeds' : ∀ p, cert.Needs m.gcRound p → p ∈ m.store.certificates := by
              intro p hp
              refine (hneeds p hp).resolve_left ?_
              rw [ExtTreeSet.isEmpty_iff.mp hemp]
              exact ExtTreeSet.not_mem_empty
            obtain ⟨unlocked, pending, fx₁, m₁, hupd, hacc, hfol, hgc⟩ :=
              hnow.unlock cfg henv (forall_mem_singleton.mpr hcert) ⟨hneeds', trivial⟩
                (.inl ⟨cert, mem_singleton_self cert, rfl⟩)
            rw [hupd]
            dsimp only
            change { m with pending }.acceptVerifiedCertificates cfg env (cert :: unlocked) = _
              at hacc
            rw [hacc]
            obtain ⟨htr, hgc'⟩ := ih hfol hrest result
            rw [hgc] at htr hgc'
            refine ⟨?_, hgc'⟩
            rw [hcomma]
            rw [map_append, map_append, ← append_assoc, ← append_assoc]
            exact htr
          · next hmore =>
            obtain ⟨pending, hins, hwait⟩ :=
              hnow.insertPending cfg hcert (eq_false_of_ne_true hnew) (hwts hmore) hneeds
            rw [hins]
            obtain ⟨htr, hgc⟩ := ih hwait hrest (.error (.pending cert.digest))
            refine ⟨?_, hgc⟩
            rw [hcomma]
            rw [map_append, ← append_assoc]
            exact htr

theorem Tracked.release (henv : env.Accepts) (fuel : Nat) :
    Follows G store delivered fx m.gcRound
      (release cfg (fun certs m => m.acceptVerifiedCertificates cfg env certs)
        m.gcRound fuel m) := by
  induction fuel generalizing m fx with
  | zero => exact h.stay _
  | succ fuel ih =>
    obtain ⟨k, hlkd⟩ := h.linked
    rw [release]
    rcases hlkd.nextForGcRound h.all m.gcRound with hnext | ⟨round, digest, hnext, hrnd⟩
    · rw [hnext]
      exact h.stay _
    · have hnone : ∀ c ∈ ([] : List SignedCertificate), c.toCertificate ∈ G.certs :=
        forall_mem_nil _
      obtain ⟨unlocked, pending, fx₁, m₁, hupd, hacc, hfol, hgc⟩ :=
        h.unlock cfg henv hnone trivial (.inr hrnd)
      rw [hnext]
      dsimp only
      rw [hupd]
      dsimp only
      rw [nil_append] at hacc
      rw [hacc]
      rw [append_nil] at hfol
      have hrest := ih hfol
      rw [hgc] at hrest
      refine ⟨?_, hrest.2⟩
      rw [map_append, ← append_assoc]
      exact hrest.1

end

theorem Tracked.collect {round : Nat} (hrnd : m.gcRound ≤ round) :
    Tracked G store delivered fx { m with gcRound := round } :=
  { h with available := h.available.mono hrnd fun _ hp => hp }

theorem Tracked.step {event : ManagerEvent} (hev : Regular cfg G m event) :
    Tracked G store (delivered ++ ManagerEvent.delivered [event])
      (fx ++ (step cfg m event).1) (step cfg m event).2 := by
  cases event with
  | batch certs env =>
    obtain ⟨henv, hcs⟩ := hev
    have hperm := perm_insertionSort (fun c d : SignedCertificate => c.round ≤ d.round) certs
    obtain ⟨htr, -⟩ := h.processAll cfg henv (fun c hc => hcs c (hperm.mem_iff.mp hc)) (.ok ())
    refine { htr with counted := fun d => ?_ }
    have hd := htr.counted d
    rw [countP_append, hperm.countP_eq] at hd
    rw [ManagerEvent.delivered, ManagerEvent.delivered, append_nil, countP_append]
    exact hd
  | gc round committed env =>
    obtain ⟨henv, hrnd, hfre⟩ := hev
    have hrelease := (h.collect hrnd).release cfg henv m.pending.missingForPending.size
    have heffv : (if true = false ∨ cfg.gcDepth < committed - round then max round committed
        else round) = round := by
      rw [if_neg]
      rintro (hpassive | hstale)
      · cases hpassive
      · omega
    rw [ManagerEvent.delivered, ManagerEvent.delivered, append_nil]
    unfold CertificateManager.step CertificateManager.processGcRound
    dsimp only
    rw [heffv]
    exact hrelease.1

theorem Tracked.run {events : List ManagerEvent}
    (hevs : Reactor.Always (CertificateManager.step cfg) (Regular cfg G) m events) :
    Tracked G store (delivered ++ ManagerEvent.delivered events)
      (fx ++ (run cfg m events).1) (run cfg m events).2 := by
  induction events generalizing m fx delivered with
  | nil =>
    change Tracked G store (delivered ++ []) (fx ++ []) m
    rw [append_nil, append_nil]
    exact h
  | cons event events ih =>
    have hrest := ih (h.step hevs.1) hevs.2
    rw [append_assoc, append_assoc] at hrest
    cases event with
    | batch certs env =>
      rw [ManagerEvent.delivered, ManagerEvent.delivered, append_nil] at hrest
      exact hrest
    | gc round committed env => exact hrest

theorem Tracked.tryInsert [StdRng]
    (hstore : ∀ (p : Nat) c, store.certificates[p]? = some c → c.digest = p ∧ c ∈ G.certs)
    {n n' : Consensus} (hn : n.Sound G) (hheld : ∀ (p : Nat) c, store.certificates[p]? = some c →
      n.state.lastRound.gcRound < c.round → n.state.dag.Holds c)
    {before after : List (Nat × SignedCertificate)} {g : Nat} {c : SignedCertificate}
    (hsent : sent fx = before ++ (g, c) :: after)
    (hdel : (n.deliver (before.map fun x => x.2.toCertificate)).2 = .ok n')
    (hgc : g ≤ n'.state.lastRound.gcRound) :
    ∃ inserted, (n'.state.tryInsert c.toCertificate).1 = .ok inserted := by
  have hmem : ∀ x ∈ before ++ (g, c) :: after, x.2.toCertificate ∈ G.certs := by
    rw [← hsent]
    exact h.mem
  have hc : c.toCertificate ∈ G.certs := hmem (g, c) (by simp)
  have hbef : ∀ x ∈ before, x.2.toCertificate ∈ G.certs := fun x hx => hmem x (mem_append_left _ hx)
  have hcs : ∀ d ∈ before.map (fun x => x.2.toCertificate), d ∈ G.certs := by
    intro d hd
    obtain ⟨x, hx, rfl⟩ := mem_map.mp hd
    exact hbef x hx
  obtain ⟨hsnd, hle, hhold⟩ := Consensus.deliver_holds hn hcs hdel
  have hpars : ∀ p, G.Parent c.toCertificate p → n'.state.lastRound.gcRound < p.round →
      n'.state.dag.Holds p := by
    intro p hp hr
    have hrnd : p.round + 1 = c.round := hp.2.2
    have hord := h.ordered
    rw [SentAfterParents, hsent] at hord
    have hneeds : c.Needs g p.digest := ⟨by omega, hp.2.1⟩
    rcases hord.of_append_cons hneeds with hin | ⟨x, hx, hdig⟩
    · obtain ⟨d, hd⟩ := Option.isSome_iff_exists.mp (ExtTreeMap.mem_iff_isSome_getElem?.mp hin)
      obtain ⟨hdig, hdG⟩ := hstore p.digest d hd
      obtain rfl := G.digest_inj d hdG p hp.1 hdig
      exact hhold d (.inr (hheld _ d hd (by omega))) hr
    · obtain rfl := G.digest_inj _ (hbef x hx) p hp.1 hdig
      exact hhold _ (.inl (mem_map_of_mem hx)) hr
  have hchk := hsnd.dag.checkParents_of_holds hc hpars
  rcases ConsensusState.tryInsertInDag_cases n'.state.dag n'.state.lastCommitted
    n'.state.lastRound.gcRound c.toCertificate with ⟨-, heq⟩ | ⟨-, e, he, -⟩ |
      ⟨-, -, d, hd, hne, -⟩ | ⟨-, -, -, heq⟩
  · exact ⟨false, congrArg Prod.fst heq⟩
  · rw [hchk] at he
    cases he
  · obtain ⟨hdm, hdr, hdo⟩ := hsnd.dag.mem hd
    exact absurd (congrArg _ (G.unique d hdm _ hc hdo hdr)) hne
  · exact ⟨_, congrArg Prod.fst heq⟩

end

/-- Certificates are stored and sent after the parents that they need and no more often than they are
delivered, and consensus that has kept up with the collector accepts every one of them. -/
theorem causally_complete [StdRng] {events : List ManagerEvent} (hm : m.pending = .new)
    (hstore : ∀ (p : Nat) c, m.store.certificates[p]? = some c → c.digest = p ∧ c ∈ G.certs)
    (hevents : Reactor.Always (step cfg) (Regular cfg G) m events) :
    let fx := (run cfg m events).1
    (run cfg m events).2.store = written m.store fx ∧ StoredWithParents m.store fx ∧
      (∀ d, (sent fx).countP (fun x => x.2.digest = d) ≤
        (ManagerEvent.delivered events).countP fun c => c.digest = d) ∧
      SentAfterParents m.store fx ∧
      ∀ n : Consensus, n.Sound G →
        (∀ (p : Nat) c, m.store.certificates[p]? = some c →
          n.state.lastRound.gcRound < c.round → n.state.dag.Holds c) →
        ∀ before g c after, sent fx = before ++ (g, c) :: after →
          ∀ n', (n.deliver (before.map fun x => x.2.toCertificate)).2 = .ok n' →
            g ≤ n'.state.lastRound.gcRound →
              ∃ inserted, (n'.state.tryInsert c.toCertificate).1 = .ok inserted := by
  have h := (tracked_start (G := G) hm).run hevents
  rw [nil_append, nil_append] at h
  refine ⟨h.store_eq, h.stored, fun d => ?_, h.ordered, ?_⟩
  · have hd := h.counted d
    omega
  · intro n hn hheld before g c after hsent n' hdeliver hgc
    exact h.tryInsert hstore hn hheld hsent hdeliver hgc

end

def fourKeys : KeyedCommittee where
  toCommittee := fourAuthorities
  protocolKey id := id
  keys_nodup := by decide

def fourSigners : CertConfig :=
  { CertIntake.sums with committee := fourKeys, verifySecure := fun _ _ _ => true, gcDepth := 4 }

def verified (c : Certificate) : SignedCertificate := ⟨c, .verifiedDirectly 0, ⟨[], by decide⟩⟩

def nothingStored : CertificateManager := ⟨.new, .empty, 0, 0, 0, 0, true⟩

def childrenFirst : List ManagerEvent :=
  [.batch (((fullRounds 2).drop 4).map verified) .good, .batch ((fullRounds 1).map verified) .good]

theorem causally_complete_childrenFirst :
    let fx := (run fourSigners nothingStored childrenFirst).1
    (sent fx).map (fun x => x.2.digest) = [10, 11, 12, 13, 20, 21, 22, 23] ∧
      StoredWithParents .empty fx ∧ SentAfterParents .empty fx := by
  let _ : StdRng := .first
  have hgood : ManagerEnv.good.Accepts := ⟨fun _ => rfl, fun _ => rfl⟩
  let G := CertificateDag.ofList fourAuthorities 0 (fullRounds 2) (by decide +kernel)
  have hround : ∀ certs : List Certificate, (∀ c ∈ certs, c ∈ fullRounds 2) →
      ∀ c ∈ certs.map verified, c.toCertificate ∈ G.certs := by
    intro certs hcerts c hc
    obtain ⟨d, hd, rfl⟩ := mem_map.mp hc
    exact hcerts d hd
  have hevents : Reactor.Always (step fourSigners) (Regular fourSigners G) nothingStored
      childrenFirst :=
    ⟨⟨hgood, hround _ (by decide +kernel)⟩, ⟨hgood, hround _ (by decide +kernel)⟩, trivial⟩
  have hempty : ∀ (p : Nat) c, nothingStored.store.certificates[p]? = some c →
      c.digest = p ∧ c ∈ G.certs := by
    intro p c hc
    cases hc
  have h := causally_complete rfl hempty hevents
  exact ⟨by decide +kernel, h.2.1, h.2.2.2.1⟩

/-- A certificate that is delivered again after it was accepted is stored and sent again. -/
theorem accepted_again :
    let c := verified (certificateOf 0 1 [])
    let fx := (run fourSigners nothingStored [.batch [c] .good, .batch [c] .good]).1
    (sent fx).countP (fun x => x.2.digest = c.digest) = 2 := by
  decide +kernel

end CertificateManager

end Axyl
