import Axyl.Types.SignedCertificate

/-! Records of epochs and their certificates. A record is accepted if it is anchored at the record
of the epoch before and its certificate verifies. -/

namespace Axyl
open Finset List

structure EpochRecord where
  epoch : Nat
  committee : List Nat
  nextCommittee : List Nat
  parentHash : Nat
  /-- The number and the hash of the last block. -/
  parentState : Nat × Nat
  parentConsensus : Nat
deriving DecidableEq, Repr

structure EpochCertificate where
  epochHash : Nat
  signature : Nat
  signedAuthorities : Bitmap
deriving DecidableEq, Repr

/-- The digest of a record and the check of an aggregate signature over a digest. -/
structure EpochCrypto where
  digest : EpochRecord → Nat
  aggregateVerify : (sig digest : Nat) → List Nat → Bool

def EpochCrypto.verifySecure (cr : EpochCrypto) (sig digest : Nat) (pks : List Nat) : Bool :=
  if pks.isEmpty then true else cr.aggregateVerify sig digest pks

namespace EpochRecord

variable (cr : EpochCrypto) (r : EpochRecord)

def superQuorum : Nat := r.committee.length * 2 / 3 + 1

def verifyWithCert (cert : EpochCertificate) : Bool :=
  if cr.digest r ≠ cert.epochHash then false
  else
    let pks := cert.signedAuthorities.pick r.committee
    if pks.length < r.superQuorum then false
    else cr.verifySecure cert.signature cert.epochHash pks

end EpochRecord

abbrev EpochRecords := Std.ExtTreeMap Nat EpochRecord

def getCommitteeKeys (db : EpochRecords) (epoch : Nat) : Option (List Nat) :=
  match db[epoch]? with
  | some r => some r.committee
  | none => db[epoch - 1]?.map EpochRecord.nextCommittee

def getCommittee (digest : EpochRecord → Nat) (db : EpochRecords) (epoch : Nat) :
    Option (Nat × List Nat) :=
  if epoch = 0 then (getCommitteeKeys db 0).map fun committee => (0, committee)
  else db[epoch - 1]?.map fun prev => (digest prev, prev.nextCommittee)

def epochCommitteeValid (r : EpochRecord) (committee : List Nat) : Bool :=
  if committee.length < r.committee.length then false
  else if committee.length = r.committee.length then committee = r.committee
  else
    let required := (committee.length * 2 + 2) / 3
    if r.committee.length < required then false
    else r.committee.all fun k => k ∈ committee

def epochRecordValid (cr : EpochCrypto) (db : EpochRecords) (epoch : Nat) (r : EpochRecord)
    (cert : EpochCertificate) : Bool :=
  if r.epoch ≠ epoch then false
  else
    match getCommittee cr.digest db epoch with
    | none => false
    | some (parentHash, committee) =>
      parentHash = r.parentHash && epochCommitteeValid r committee && r.verifyWithCert cr cert

namespace EpochRecord

variable {cr : EpochCrypto} {db : EpochRecords} {epoch parentHash : Nat} {committee : List Nat}
  {r : EpochRecord} {cert : EpochCertificate} {signers : Nat → Finset Nat}

theorem subset_of_epochCommitteeValid (h : epochCommitteeValid r committee = true) :
    r.committee ⊆ committee := by
  unfold epochCommitteeValid at h
  split at h
  · cases h
  · split at h
    · rw [of_decide_eq_true h]
      exact List.Subset.refl _
    · dsimp only at h
      split at h
      · cases h
      · intro k hk
        simpa using all_eq_true.mp h k hk

theorem verifyWithCert_iff : r.verifyWithCert cr cert = true ↔ cr.digest r = cert.epochHash ∧
      r.superQuorum ≤ (cert.signedAuthorities.pick r.committee).length ∧
      cr.aggregateVerify cert.signature cert.epochHash
        (cert.signedAuthorities.pick r.committee) = true := by
  unfold verifyWithCert EpochCrypto.verifySecure
  have hpos : 0 < r.superQuorum := Nat.succ_pos _
  by_cases hdig : cr.digest r = cert.epochHash
  · by_cases hquo : (cert.signedAuthorities.pick r.committee).length < r.superQuorum
    · simp [hquo, Nat.not_le.mpr hquo]
    · -- a quorum is not empty, so that the signature is really checked
      have hne : cert.signedAuthorities.pick r.committee ≠ [] := by
        rintro hnil
        rw [hnil] at hquo
        exact hquo hpos
      simp [hdig, hquo, hne, Nat.not_lt.mp hquo]
  · simp [hdig]

def Anchored (digest : EpochRecord → Nat) (db : EpochRecords) (epoch : Nat) (r : EpochRecord)
    (committee : List Nat) : Prop :=
  r.epoch = epoch ∧ getCommittee digest db epoch = some (r.parentHash, committee) ∧
    epochCommitteeValid r committee = true

theorem epochRecordValid_iff (h : r.Anchored cr.digest db epoch committee) :
    epochRecordValid cr db epoch r cert = true ↔ r.verifyWithCert cr cert = true := by
  obtain ⟨hep, hpar, hvld⟩ := h
  rw [epochRecordValid, if_neg (fun hne => hne hep), hpar]
  simp [hvld]

theorem anchored_of_epochRecordValid (h : epochRecordValid cr db epoch r cert = true)
    (hpar : getCommittee cr.digest db epoch = some (parentHash, committee)) :
    r.Anchored cr.digest db epoch committee := by
  unfold epochRecordValid at h
  split at h
  · cases h
  · next hep =>
    rw [hpar] at h
    simp only [Bool.and_eq_true, decide_eq_true_eq] at h
    obtain ⟨⟨hhash, hvld⟩, _⟩ := h
    rw [hhash] at hpar
    exact ⟨not_not.mp hep, hpar, hvld⟩

def Sound (cr : EpochCrypto) (signers : Nat → Finset Nat) : Prop :=
  ∀ sig digest pks, cr.aggregateVerify sig digest pks = true → ∀ k ∈ pks, k ∈ signers digest

def Covers (r : EpochRecord) (n : Nat) : Prop :=
  ∀ picked : List Nat, picked.Sublist r.committee → r.superQuorum ≤ picked.length →
    quorumThreshold n ≤ picked.toFinset.card

theorem covers_of_length (hnd : committee.Nodup) (hvld : epochCommitteeValid r committee = true)
    (hlen : r.committee.length = committee.length) : r.Covers committee.length := by
  have heq : committee = r.committee := by
    unfold epochCommitteeValid at hvld
    rw [if_neg (by omega), if_pos hlen.symm] at hvld
    exact of_decide_eq_true hvld
  intro picked hpicked hquo
  rw [toFinset_card_of_nodup ((heq ▸ hnd).sublist hpicked)]
  rw [superQuorum, hlen, mul_comm] at hquo
  exact hquo

def signedMembers (cr : EpochCrypto) (signers : Nat → Finset Nat) (committee : List Nat)
    (r : EpochRecord) : Finset Nat :=
  committee.toFinset ∩ signers (cr.digest r)

theorem quorum_of_covers (hsnd : Sound cr signers) (hcovs : r.Covers committee.length)
    (hvld : epochCommitteeValid r committee = true) (h : r.verifyWithCert cr cert = true) :
    quorumThreshold committee.length ≤ (signedMembers cr signers committee r).card := by
  obtain ⟨hdig, hquo, hvrf⟩ := verifyWithCert_iff.mp h
  have hpicked := Bitmap.pick_sublist cert.signedAuthorities r.committee
  refine le_trans (hcovs _ hpicked hquo) (card_le_card ?_)
  intro k hk
  have hk := mem_toFinset.mp hk
  have hmember := subset_of_epochCommitteeValid hvld (hpicked.subset hk)
  rw [signedMembers, mem_inter, mem_toFinset, hdig]
  exact ⟨hmember, hsnd _ _ _ hvrf k hk⟩

theorem lt_card_inter_of_quorum {n : Nat} {u s t : Finset Nat} (hs : s ⊆ u) (ht : t ⊆ u)
    (hu : u.card ≤ n) (hs' : quorumThreshold n ≤ s.card) (ht' : quorumThreshold n ≤ t.card) :
    (n - 1) / 3 < (s ∩ t).card := by
  have hunion : (s ∪ t).card ≤ n := le_trans (card_le_card (union_subset hs ht)) hu
  have hcnt := card_union_add_card_inter s t
  unfold quorumThreshold at hs' ht'
  omega

/-- What the acceptance of a record is for: a quorum signed it, so that two accepted records have
more than `f` signers in common and no member is accepted alone. -/
structure Vouched (cr : EpochCrypto) (signers : Nat → Finset Nat) (db : EpochRecords) (epoch : Nat)
    (committee : List Nat) (r : EpochRecord) : Prop where
  quorum : quorumThreshold committee.length ≤ (signedMembers cr signers committee r).card
  shared : ∀ r' cert', r'.Covers committee.length → epochRecordValid cr db epoch r' cert' = true →
    (committee.length - 1) / 3 <
      (signedMembers cr signers committee r ∩ signedMembers cr signers committee r').card
  notAlone : 4 ≤ committee.length → ∀ k, ¬ signedMembers cr signers committee r ⊆ {k}

theorem vouched_of_covers (hsnd : Sound cr signers) (hcovs : r.Covers committee.length)
    (hancd : r.Anchored cr.digest db epoch committee)
    (h : epochRecordValid cr db epoch r cert = true) : Vouched cr signers db epoch committee r := by
  have hquo := quorum_of_covers hsnd hcovs hancd.2.2 ((epochRecordValid_iff hancd).mp h)
  refine ⟨hquo, ?_, ?_⟩
  · intro r' cert' hcovs' h'
    have hancd' := anchored_of_epochRecordValid h' hancd.2.1
    have hquo' := quorum_of_covers hsnd hcovs' hancd'.2.2 ((epochRecordValid_iff hancd').mp h')
    exact lt_card_inter_of_quorum inter_subset_left inter_subset_left
      (toFinset_card_le committee) hquo hquo'
  · intro hfour k hk
    have hone := card_le_card hk
    rw [card_singleton] at hone
    unfold quorumThreshold at hquo
    omega

def signedBy (digest : EpochRecord → Nat) (keys : List Nat) : EpochCrypto :=
  ⟨digest, fun _ _ pks => pks.all (· ∈ keys)⟩

theorem sound_signedBy (dig : EpochRecord → Nat) (keys : List Nat) :
    Sound (signedBy dig keys) fun _ => keys.toFinset := by
  intro sig d pks hvrf k hk
  have hmem := all_eq_true.mp hvrf k hk
  exact mem_toFinset.mpr (of_decide_eq_true hmem)

/-- If some super quorum of the list is no quorum, its keys alone sign a certificate. -/
theorem epoch_record_trust_iff (digest : EpochRecord → Nat) (db : EpochRecords) (epoch : Nat)
    (r : EpochRecord) (committee : List Nat) (hanchored : r.Anchored digest db epoch committee) :
    (∀ aggregateVerify signers, Sound ⟨digest, aggregateVerify⟩ signers → ∀ cert,
      epochRecordValid ⟨digest, aggregateVerify⟩ db epoch r cert = true →
        Vouched ⟨digest, aggregateVerify⟩ signers db epoch committee r) ↔
      r.Covers committee.length := by
  constructor
  · intro h picked hpicked hquorum
    obtain ⟨bitmap, hbitmap⟩ := Bitmap.exists_pick hpicked
    have hcert : r.verifyWithCert (signedBy digest picked) ⟨digest r, 0, bitmap⟩ = true := by
      refine verifyWithCert_iff.mpr ⟨rfl, ?_, ?_⟩
      · rw [hbitmap]
        exact hquorum
      · rw [hbitmap]
        exact all_eq_true.mpr fun k hk => decide_eq_true hk
    have hvouched := h (signedBy digest picked).aggregateVerify _ (sound_signedBy digest picked) _
      ((epochRecordValid_iff hanchored).mpr hcert)
    exact le_trans hvouched.quorum (card_le_card inter_subset_right)
  · intro hcovers aggregateVerify signers hsound cert h
    exact vouched_of_covers hsound hcovers hanchored h

def fourNext : EpochRecords :=
  (∅ : EpochRecords).insert 0 ⟨0, [], [1, 2, 3, 4], 0, (0, 0), 0⟩

def keySum (r : EpochRecord) : Nat := r.committee.sum

def listing (keys : List Nat) : EpochRecord := ⟨1, keys, [], 0, (0, 0), 0⟩

def firstThree (r : EpochRecord) : EpochCertificate := ⟨keySum r, 0, ⟨[0, 1, 2], by decide⟩⟩

theorem epoch_record_trust_whole :
    epochRecordValid (signedBy keySum [1, 2, 3]) fourNext 1 (listing [1, 2, 3, 4])
        (firstThree (listing [1, 2, 3, 4])) = true ∧
      Vouched (signedBy keySum [1, 2, 3]) (fun _ => {1, 2, 3}) fourNext 1 [1, 2, 3, 4]
        (listing [1, 2, 3, 4]) := by
  have haccepted : epochRecordValid (signedBy keySum [1, 2, 3]) fourNext 1 (listing [1, 2, 3, 4])
      (firstThree (listing [1, 2, 3, 4])) = true := by decide +kernel
  have hanchored : (listing [1, 2, 3, 4]).Anchored keySum fourNext 1 [1, 2, 3, 4] :=
    ⟨rfl, by decide +kernel, by decide⟩
  have htrust := epoch_record_trust_iff keySum fourNext 1 (listing [1, 2, 3, 4]) _ hanchored
  have hcovers := covers_of_length (by decide) hanchored.2.2 rfl
  exact ⟨haccepted, htrust.mpr hcovers _ _ (sound_signedBy keySum [1, 2, 3]) _ haccepted⟩

/-- One key that is listed three times is a super quorum of its own. -/
theorem one_key_three_times :
    epochRecordValid (signedBy keySum [1]) fourNext 1 (listing [1, 1, 1])
        (firstThree (listing [1, 1, 1])) = true ∧
      Sound (signedBy keySum [1]) (fun _ => {1}) ∧
      signedMembers (signedBy keySum [1]) (fun _ => {1}) [1, 2, 3, 4] (listing [1, 1, 1]) = {1} ∧
      quorumThreshold 4 = 3 :=
  ⟨by decide +kernel, sound_signedBy keySum [1], by decide, rfl⟩

end EpochRecord

end Axyl
