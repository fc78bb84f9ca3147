import Axyl.Lib.Trace
import Axyl.StateSync.EpochRecord

/-! The tables of epoch records: by number, by digest, their certificates and the records that wait
for one. -/

namespace Axyl
open Function

structure EpochStore where
  epochRecords : Nat → Option EpochRecord := fun _ => none
  epochRecordsIndex : Nat → Option Nat := fun _ => none
  epochCerts : Nat → Option EpochCertificate := fun _ => none
  pendingEpochRecord : Nat → Option EpochRecord := fun _ => none

inductive EpochCall
  | saveEpochRecord (epochRec : EpochRecord)
  | saveEpochRecordWithCert (epochRec : EpochRecord) (cert : EpochCertificate)
  /-- The read of the digest outside the transaction may fail. -/
  | removeEpochRecord (epoch : Nat) (readable : Bool)
  | savePendingEpochRecord (epochRec : EpochRecord)
  | clearPendingEpochRecord (epoch : Nat)

namespace EpochStore

variable (cr : EpochCrypto) (s : EpochStore)

def put (r : EpochRecord) : EpochStore :=
  { s with
    epochRecordsIndex := update s.epochRecordsIndex (cr.digest r) (some r.epoch)
    epochRecords := update s.epochRecords r.epoch (some r) }

def saveEpochRecord (r : EpochRecord) : EpochStore :=
  if r.epoch = 0 then put cr { s with epochRecords := update s.epochRecords r.epoch none } r
  else s.put cr r

def certify (r : EpochRecord) (cert : EpochCertificate) : EpochStore :=
  { s with
    epochCerts := update s.epochCerts (cr.digest r) (some cert)
    pendingEpochRecord := update s.pendingEpochRecord r.epoch none }

def saveEpochRecordWithCert (r : EpochRecord) (cert : EpochCertificate) : EpochStore :=
  (s.put cr r).certify cr r cert

def removeEpochRecord (epoch : Nat) (readable : Bool) : EpochStore :=
  let epochRecords := update s.epochRecords epoch none
  match if readable then s.epochRecords epoch else none with
  | some r => { s with
      epochCerts := update s.epochCerts (cr.digest r) none
      epochRecordsIndex := update s.epochRecordsIndex (cr.digest r) none
      epochRecords }
  | none => { s with epochRecords }

def apply : EpochCall → EpochStore
  | .saveEpochRecord r => s.saveEpochRecord cr r
  | .saveEpochRecordWithCert r cert => s.saveEpochRecordWithCert cr r cert
  | .removeEpochRecord epoch readable => s.removeEpochRecord cr epoch readable
  | .savePendingEpochRecord r =>
    { s with pendingEpochRecord := update s.pendingEpochRecord r.epoch (some r) }
  | .clearPendingEpochRecord epoch =>
    { s with pendingEpochRecord := update s.pendingEpochRecord epoch none }

def getEpochByNumber (epoch : Nat) : Option (EpochRecord × Option EpochCertificate) :=
  (s.epochRecords epoch).map fun r => (r, s.epochCerts (cr.digest r))

def getEpochByHash (hash : Nat) : Option (EpochRecord × Option EpochCertificate) :=
  (s.epochRecordsIndex hash).bind (s.getEpochByNumber cr)

/-- The digest of the record of an epoch. -/
def held (epoch : Nat) : Option Nat := (s.epochRecords epoch).map cr.digest

/-- A record replaces none of another digest, and no certified epoch becomes pending. -/
def Fits : EpochCall → Prop
  | .saveEpochRecord r | .saveEpochRecordWithCert r _ =>
    ∀ e d, s.held cr e = some d → (d = cr.digest r ↔ e = r.epoch)
  | .removeEpochRecord _ readable => readable = true
  | .savePendingEpochRecord r => ∀ d, s.held cr r.epoch = some d → s.epochCerts d = none
  | .clearPendingEpochRecord _ => True

def Step (s : EpochStore) (call : EpochCall) (s' : EpochStore) : Prop :=
  s.Fits cr call ∧ s' = s.apply cr call

structure Coherent : Prop where
  index : ∀ d e, s.epochRecordsIndex d = some e ↔ s.held cr e = some d
  certs : ∀ d, s.epochCerts d ≠ none → ∃ e, s.epochRecordsIndex d = some e
  pending : ∀ d e, s.epochRecordsIndex d = some e → s.epochCerts d ≠ none →
    s.pendingEpochRecord e = none

variable {cr} {s} {r : EpochRecord}

theorem saveEpochRecord_eq_put : s.saveEpochRecord cr r = s.put cr r := by
  unfold saveEpochRecord put
  split
  · rw [update_idem]
  · rfl

theorem held_put (e : Nat) :
    (s.put cr r).held cr e = if e = r.epoch then some (cr.digest r) else s.held cr e := by
  simp only [held, put, update_apply]
  split <;> rfl

section
variable (h : Coherent cr s)
include h

theorem Coherent.put (hr : ∀ e d, s.held cr e = some d → (d = cr.digest r ↔ e = r.epoch)) :
    Coherent cr (s.put cr r) := by
  obtain ⟨hi, hc, hp⟩ := h
  refine ⟨fun d e => ?_, fun d hd => ?_, fun d e he hd => ?_⟩
  · rw [held_put]
    simp only [EpochStore.put, update_apply]
    grind
  · obtain ⟨e, he⟩ := hc d hd
    simp only [EpochStore.put, update_apply]
    grind
  · obtain ⟨e', he'⟩ := hc d hd
    have hpend := hp d e' he' hd
    simp only [EpochStore.put, update_apply] at he ⊢
    grind

theorem Coherent.certify (hr : s.epochRecordsIndex (cr.digest r) = some r.epoch)
    (cert : EpochCertificate) : Coherent cr (s.certify cr r cert) := by
  obtain ⟨hi, hc, hp⟩ := h
  refine ⟨hi, fun d hd => ?_, fun d e he hd => ?_⟩
  · have hcd := hc d
    simp only [EpochStore.certify, update_apply] at hd ⊢
    grind
  · have hpd := hp d e he
    simp only [EpochStore.certify, update_apply] at he hd ⊢
    grind

theorem Coherent.remove (epoch : Nat) : Coherent cr (s.removeEpochRecord cr epoch true) := by
  obtain ⟨hi, hc, hp⟩ := h
  unfold removeEpochRecord
  rw [if_pos rfl]
  split
  · next r hr =>
    have hr : s.epochRecordsIndex (cr.digest r) = some epoch :=
      (hi _ epoch).mpr (congrArg (Option.map cr.digest) hr)
    refine ⟨fun d e => ?_, fun d hd => ?_, fun d e he hd => ?_⟩
    · have hid := hi d e
      simp only [held, update_apply] at hid ⊢
      grind
    · have hcd := hc d
      simp only [update_apply] at hd ⊢
      grind
    · have hpd := hp d e
      simp only [update_apply] at he hd ⊢
      grind
  · next hr =>
    rw [← hr, update_eq_self]
    exact ⟨hi, hc, hp⟩

theorem Coherent.step {call : EpochCall} {s' : EpochStore} (hstep : Step cr s call s') :
    Coherent cr s' := by
  obtain ⟨hfits, rfl⟩ := hstep
  cases call with
  | saveEpochRecord r =>
    rw [apply, saveEpochRecord_eq_put]
    exact h.put hfits
  | saveEpochRecordWithCert r cert =>
    exact (h.put hfits).certify (update_self ..) cert
  | removeEpochRecord ep readable =>
    cases hfits
    exact h.remove ep
  | savePendingEpochRecord r =>
    refine ⟨h.index, h.certs, fun d e he hd => ?_⟩
    have hne : e ≠ r.epoch := by
      rintro rfl
      exact hd (hfits d ((h.index d _).mp he))
    exact (update_of_ne hne ..).trans (h.pending d e he hd)
  | clearPendingEpochRecord ep =>
    refine ⟨h.index, h.certs, fun d e he hd => ?_⟩
    simp only [apply, update_apply, h.pending d e he hd, ite_self]

end

/-- In every run of calls that fit. -/
theorem lookups_coherent (cr : EpochCrypto) (calls : List EpochCall) {s : EpochStore}
    (h : Trace.Run (Step cr) {} calls s) :
    (∀ hash r cert, s.getEpochByHash cr hash = some (r, cert) →
      cr.digest r = hash ∧ cert = s.epochCerts hash) ∧
    ∀ epoch r cert, s.getEpochByNumber cr epoch = some (r, some cert) →
      s.pendingEpochRecord epoch = none := by
  have hs : Coherent cr s := h.invariant (fun _ _ _ hstep hs => hs.step hstep)
    ⟨fun _ _ => ⟨nofun, nofun⟩, fun _ hd => absurd rfl hd, nofun⟩
  constructor
  · intro hash r cert hget
    obtain ⟨e, he, hget⟩ := Option.bind_eq_some_iff.mp hget
    obtain ⟨r', hr, heq⟩ := Option.map_eq_some_iff.mp hget
    cases heq
    have hd := (hs.index hash e).mp he
    rw [held, hr] at hd
    cases hd
    exact ⟨rfl, rfl⟩
  · intro epoch r cert hget
    obtain ⟨r', hr, heq⟩ := Option.map_eq_some_iff.mp hget
    obtain ⟨rfl, hcert⟩ := Prod.mk.inj heq
    have hd : s.held cr epoch = some (cr.digest r') := congrArg (Option.map cr.digest) hr
    exact hs.pending _ epoch ((hs.index _ epoch).mpr hd) (by simp [hcert])

/-- Tells records of one epoch apart by their parent. -/
def parentDigest : EpochCrypto := ⟨fun r => 10 * r.epoch + r.parentHash, fun _ _ _ => true⟩

def childOf (parentHash : Nat) : EpochRecord := ⟨5, [], [], parentHash, (0, 0), 0⟩

def certOf (r : EpochRecord) : EpochCertificate := ⟨parentDigest.digest r, 0, ⟨[0], by decide⟩⟩

def certified (parentHash : Nat) : EpochCall :=
  .saveEpochRecordWithCert (childOf parentHash) (certOf (childOf parentHash))

theorem lookups_coherent_certified :
    let s := [.savePendingEpochRecord (childOf 1), certified 1].foldl (apply parentDigest) {}
    (parentDigest.digest (childOf 1) = 51 ∧ some (certOf (childOf 1)) = s.epochCerts 51) ∧
      s.pendingEpochRecord 5 = none := by
  have h := lookups_coherent parentDigest [.savePendingEpochRecord (childOf 1), certified 1]
    (.cons ⟨nofun, rfl⟩ (.cons ⟨nofun, rfl⟩ (.nil _)))
  exact ⟨h.1 51 _ _ rfl, h.2 5 _ _ rfl⟩

/-- A record is served without a certificate; the digest of a record that was replaced leads to the
other one; a certified epoch becomes pending again. -/
theorem lookups_incoherent :
    let after := List.foldl (apply parentDigest) {}
    (after [.saveEpochRecord (childOf 1)]).getEpochByHash parentDigest 51 = some (childOf 1, none) ∧
    (after [certified 1, certified 2]).getEpochByHash parentDigest 51 =
      some (childOf 2, some (certOf (childOf 2))) ∧
    let s := after [certified 1, .savePendingEpochRecord (childOf 1)]
    s.getEpochByNumber parentDigest 5 = some (childOf 1, some (certOf (childOf 1))) ∧
      s.pendingEpochRecord 5 = some (childOf 1) := by
  decide

end EpochStore

end Axyl
