import Axyl.Types.Certificate
import Mathlib.Algebra.BigOperators.Group.Finset.Basic

/-! The certificates of every round are collected until their authors are a quorum. The first
quorum of a round is handed over at once and every later certificate on its own. -/

namespace Axyl
open List Certificate
open Std (ExtTreeMap)

structure CertificatesAggregator where
  weight : Nat
  certificates : List Certificate
  authoritiesSeen : List Nat
deriving DecidableEq, Repr

namespace CertificatesAggregator

def new : CertificatesAggregator := ⟨0, [], []⟩

def append (agg : CertificatesAggregator) (certificate : Certificate) (committee : Committee) :
    Option (List Certificate) × CertificatesAggregator :=
  if certificate.origin ∈ agg.authoritiesSeen then (none, agg)
  else
    let certificates := agg.certificates ++ [certificate]
    let weight := agg.weight + committee.votingPowerById certificate.origin
    let authoritiesSeen := agg.authoritiesSeen ++ [certificate.origin]
    if committee.quorumThreshold ≤ weight then (some certificates, ⟨weight, [], authoritiesSeen⟩)
    else (none, ⟨weight, certificates, authoritiesSeen⟩)

end CertificatesAggregator

structure CertificatesAggregatorManager where
  aggregators : ExtTreeMap Nat CertificatesAggregator
  gcDepth : Nat

namespace CertificatesAggregatorManager

def new (gcDepth : Nat) : CertificatesAggregatorManager := ⟨∅, gcDepth⟩

variable (m : CertificatesAggregatorManager)

def garbageCollect (gcRound : Nat) : CertificatesAggregatorManager :=
  { m with aggregators := m.aggregators.filter fun round _ => gcRound < round }

def proactiveGc (latestRound : Nat) : CertificatesAggregatorManager :=
  if m.gcDepth ≤ latestRound then m.garbageCollect (latestRound - m.gcDepth) else m

def get (round : Nat) : CertificatesAggregator := m.aggregators[round]?.getD .new

def appendCertificate (certificate : Certificate) (committee : Committee) :
    Option (List Certificate × Nat) × CertificatesAggregatorManager :=
  let round := certificate.round
  let m := m.proactiveGc round
  let r := (m.get round).append certificate committee
  (r.1.map fun parents => (parents, round),
    { m with aggregators := m.aggregators.insert round r.2 })

variable {m}

theorem getElem?_garbageCollect (gcRound round : Nat) :
    (m.garbageCollect gcRound).aggregators[round]? =
      if gcRound < round then m.aggregators[round]? else none := by
  rw [garbageCollect, ExtTreeMap.getElem?_filter']
  cases m.aggregators[round]? with
  | none => simp
  | some agg => simp [Option.filter]

theorem getElem?_proactiveGc (latestRound round : Nat) :
    (m.proactiveGc latestRound).aggregators[round]? =
      if round + m.gcDepth ≤ latestRound then none else m.aggregators[round]? := by
  unfold proactiveGc
  split
  · rw [getElem?_garbageCollect]
    by_cases h : round + m.gcDepth ≤ latestRound
    · rw [if_pos h, if_neg (by omega)]
    · rw [if_neg h, if_pos (by omega)]
  · rw [if_neg (by omega)]

end CertificatesAggregatorManager

def Quorate (committee : Committee) (certs : List Certificate) : Prop :=
  committee.quorumThreshold ≤ ∑ id ∈ (certs.map origin).toFinset,
    committee.votingPowerById id

instance (committee : Committee) (certs : List Certificate) :
    Decidable (Quorate committee certs) := inferInstanceAs (Decidable (_ ≤ _))

section
variable {com : Committee} {cs : List Certificate}

theorem Quorate.mono {more : List Certificate} (h : Quorate com cs)
    (hsub : ∀ c ∈ cs, c ∈ more) : Quorate com more := by
  refine Nat.le_trans h (Finset.sum_le_sum_of_subset ?_)
  intro id hid
  rw [mem_toFinset, mem_map] at hid ⊢
  obtain ⟨c, hc, rfl⟩ := hid
  exact ⟨c, hsub c hc, rfl⟩

theorem quorate_iff_of_nodup (h : (cs.map origin).Nodup) : Quorate com cs ↔ com.quorumThreshold ≤
      (cs.map fun cert => com.votingPowerById cert.origin).sum := by
  unfold Quorate
  rw [sum_toFinset _ h, map_map]
  rfl

end

namespace CertificatesAggregator

variable {committee : Committee} {agg : CertificatesAggregator}

/-- The weight is that of the authors seen. Before the quorum all their certificates are held, and
after it none. -/
structure Counts (committee : Committee) (agg : CertificatesAggregator) : Prop where
  nodup : agg.authoritiesSeen.Nodup
  weight_eq : agg.weight = (agg.authoritiesSeen.map committee.votingPowerById).sum
  held : agg.weight < committee.quorumThreshold →
    agg.certificates.map origin = agg.authoritiesSeen
  handed : committee.quorumThreshold ≤ agg.weight → agg.certificates = []

theorem counts_new (committee : Committee) : new.Counts committee := by
  refine ⟨nodup_nil, rfl, fun _ => rfl, fun _ => rfl⟩

/-- What one more certificate does: the certificates handed over are a quorum, or come after one,
and what is handed over at the quorum is one. -/
structure Appended (committee : Committee) (agg : CertificatesAggregator)
    (r : Option (List Certificate) × CertificatesAggregator) : Prop where
  counts : r.2.Counts committee
  seen : ∀ id ∈ agg.authoritiesSeen, id ∈ r.2.authoritiesSeen
  nodup : ∀ parents, r.1 = some parents → (parents.map origin).Nodup
  quorate : ∀ parents, r.1 = some parents →
    Quorate committee parents ∨ committee.quorumThreshold ≤ agg.weight
  reached : committee.quorumThreshold ≤ r.2.weight → committee.quorumThreshold ≤ agg.weight ∨
    ∃ parents, r.1 = some parents ∧ Quorate committee parents

theorem Counts.append (h : agg.Counts committee) (cert : Certificate) :
    Appended committee agg (agg.append cert committee) := by
  unfold CertificatesAggregator.append
  split
  · exact ⟨h, fun _ hid => hid, nofun, nofun, .inl⟩
  · next hnew =>
    have hnd : (agg.authoritiesSeen ++ [cert.origin]).Nodup := by
      rw [nodup_append]
      refine ⟨h.nodup, nodup_singleton _, ?_⟩
      intro a ha b hb
      rw [mem_singleton.mp hb]
      rintro rfl
      exact hnew ha
    have hwt : agg.weight + committee.votingPowerById cert.origin =
        ((agg.authoritiesSeen ++ [cert.origin]).map committee.votingPowerById).sum := by
      rw [map_append, sum_append, ← h.weight_eq]
      simp
    have hseen : ∀ id ∈ agg.authoritiesSeen, id ∈ agg.authoritiesSeen ++ [cert.origin] :=
      fun id hid => mem_append_left _ hid
    dsimp only
    split
    · next hquo =>
      have hcounts : Counts committee ⟨agg.weight + committee.votingPowerById cert.origin, [],
          agg.authoritiesSeen ++ [cert.origin]⟩ :=
        ⟨hnd, hwt, fun hlt => absurd hquo (Nat.not_le.mpr hlt), fun _ => rfl⟩
      by_cases hbef : committee.quorumThreshold ≤ agg.weight
      · refine ⟨hcounts, hseen, ?_, fun _ _ => .inr hbef, fun _ => .inl hbef⟩
        rintro ps ⟨⟩
        rw [h.handed hbef]
        exact nodup_singleton _
      · have horigins : (agg.certificates ++ [cert]).map origin =
            agg.authoritiesSeen ++ [cert.origin] := by
          rw [map_append, h.held (by omega)]
          rfl
        have hqrt : Quorate committee (agg.certificates ++ [cert]) := by
          unfold Quorate
          rw [horigins, sum_toFinset _ hnd, ← hwt]
          exact hquo
        refine ⟨hcounts, hseen, ?_, ?_, fun _ => .inr ⟨_, rfl, hqrt⟩⟩
        · rintro ps ⟨⟩
          rw [horigins]
          exact hnd
        · rintro ps ⟨⟩
          exact .inl hqrt
    · next hquo =>
      refine ⟨⟨hnd, hwt, fun _ => ?_, fun hle => absurd hle hquo⟩, hseen, nofun, nofun,
        fun hle => absurd hle hquo⟩
      have hbef : agg.weight < committee.quorumThreshold := by
        omega
      rw [map_append, h.held hbef]
      rfl

end CertificatesAggregator

namespace CertificatesAggregatorManager

variable {m : CertificatesAggregatorManager} {committee : Committee}

def Counted (committee : Committee) (m : CertificatesAggregatorManager) : Prop :=
  ∀ (r : Nat) (agg : CertificatesAggregator), m.aggregators[r]? = some agg → agg.Counts committee

theorem Counted.get (h : m.Counted committee) (r : Nat) : (m.get r).Counts committee := by
  unfold CertificatesAggregatorManager.get
  cases hr : m.aggregators[r]? with
  | none => exact CertificatesAggregator.counts_new committee
  | some agg => exact h r agg hr

end CertificatesAggregatorManager

end Axyl
