import Axyl.Consensus.LeaderSchedule
import Mathlib.Data.Set.Basic

/-! The certificates of one epoch as one set, with the facts that verification gives:
no author has two certificates for a round, digests identify certificates, and a
certificate above round one has parents in the round below by a quorum of authors. -/

namespace Axyl
open List

structure CertificateDag (committee : Committee) where
  certs : Set Certificate
  epoch : Nat
  epoch_eq : ∀ c ∈ certs, c.epoch = epoch
  author_mem : ∀ c ∈ certs, committee.IsAuthority c.origin
  unique : ∀ c ∈ certs, ∀ d ∈ certs, c.origin = d.origin → c.round = d.round → c = d
  digest_inj : ∀ c ∈ certs, ∀ d ∈ certs, c.digest = d.digest → c = d
  parents_mem : ∀ c ∈ certs, 2 ≤ c.round → ∀ p ∈ c.parents,
    ∃ d ∈ certs, d.digest = p ∧ d.round + 1 = c.round
  parents_quorum : ∀ c ∈ certs, 2 ≤ c.round → ∃ authors : Finset Nat,
    committee.quorumThreshold ≤ ∑ a ∈ authors, committee.votingPowerById a ∧
      ∀ a ∈ authors, ∃ d ∈ certs, d.origin = a ∧ d.digest ∈ c.parents

namespace CertificateDag

variable {committee : Committee} (G : CertificateDag committee)

def Parent (c p : Certificate) : Prop :=
  p ∈ G.certs ∧ p.digest ∈ c.parents ∧ p.round + 1 = c.round

def Path : Certificate → Certificate → Prop := Relation.ReflTransGen G.Parent

def Supported (c : Certificate) : Prop :=
  ∃ authors : Finset Nat,
    committee.validityThreshold ≤ ∑ a ∈ authors, committee.votingPowerById a ∧
      ∀ a ∈ authors, ∃ d ∈ G.certs, d.origin = a ∧ d.round = c.round + 1 ∧ c.digest ∈ d.parents

variable {G} {x y : Certificate}

theorem Path.round_le (h : G.Path x y) : y.round ≤ x.round := by
  induction h with
  | refl => exact le_refl _
  | tail _ hp ih => exact (by have := hp.2.2; omega)

theorem Path.eq_of_round_eq (h : G.Path x y) (hr : x.round = y.round) : x = y := by
  rcases Relation.ReflTransGen.cases_head h with rfl | ⟨z, hz, hzy⟩
  · rfl
  · have := hz.2.2
    have := Path.round_le hzy
    omega

theorem Path.mem (h : G.Path x y) (hx : x ∈ G.certs) : y ∈ G.certs := by
  cases h with
  | refl => exact hx
  | tail _ hp => exact hp.1

variable {c : Certificate}

section
variable (hc : c ∈ G.certs)
include hc

theorem parent_of_digest_mem {p : Certificate} (hp : p ∈ G.certs)
    (h : p.digest ∈ c.parents) (hr : 2 ≤ c.round) : G.Parent c p := by
  obtain ⟨d, hd, hdig, hrnd⟩ := G.parents_mem c hc hr _ h
  obtain rfl := G.digest_inj d hd p hp hdig
  exact ⟨hp, h, hrnd⟩

theorem exists_parent_of_quorum (hr : 2 ≤ c.round) {authors : Finset Nat}
    (ha : committee.validityThreshold ≤ ∑ a ∈ authors, committee.votingPowerById a) :
    ∃ p, G.Parent c p ∧ p.origin ∈ authors := by
  obtain ⟨s, hs, hsm⟩ := G.parents_quorum c hc hr
  obtain ⟨a, has, haa⟩ := committee.exists_mem_quorum_inter_validity hs ha
  obtain ⟨p, hp, rfl, hpd⟩ := hsm a has
  exact ⟨p, parent_of_digest_mem hc hp hpd hr, haa⟩

theorem exists_parent (hr : 2 ≤ c.round) : ∃ p, G.Parent c p := by
  obtain ⟨s, hs, hsm⟩ := G.parents_quorum c hc hr
  obtain ⟨a, ha⟩ : s.Nonempty := by
    rw [Finset.nonempty_iff_ne_empty]
    rintro rfl
    simp [Committee.quorumThreshold] at hs
  obtain ⟨p, hp, -, hpd⟩ := hsm a ha
  exact ⟨p, parent_of_digest_mem hc hp hpd hr⟩

theorem path_of_supported (hs : G.Supported c) :
    ∀ x ∈ G.certs, c.round + 2 ≤ x.round → G.Path x c := by
  obtain ⟨authors, hpow, hsup⟩ := hs
  intro x
  induction hn : x.round using Nat.strong_induction_on generalizing x with
  | _ n ih =>
    intro hx hle
    rcases Nat.lt_or_ge (c.round + 2) n with hlt | hge
    · obtain ⟨p, hp⟩ := exists_parent hx (by omega)
      have hpr := hp.2.2
      exact .head hp (ih p.round (by omega) p rfl hp.1 (by omega))
    · obtain ⟨p, hp, hpa⟩ := exists_parent_of_quorum hx (by omega) hpow
      obtain ⟨d, hd, hda, hdr, hdp⟩ := hsup _ hpa
      have hpr := hp.2.2
      obtain rfl := G.unique d hd p hp.1 hda (by omega)
      exact .head hp (.single ⟨hc, hdp, hdr.symm⟩)

end

variable (G) in
/-- The certificates of the list, delivered after those of `before`, each come after
all their parents. -/
def CausalFrom : List Certificate → List Certificate → Prop
  | _, [] => True
  | before, c :: cs =>
    c ∈ G.certs ∧ (∀ p, G.Parent c p → p ∈ before) ∧ CausalFrom (c :: before) cs

variable (G) in
def Causal (cs : List Certificate) : Prop := G.CausalFrom [] cs

variable {pre cs : List Certificate}

theorem CausalFrom.mem (h : G.CausalFrom pre cs) : ∀ c ∈ cs, c ∈ G.certs := by
  induction cs generalizing pre with
  | nil => simp
  | cons c cs ih => exact forall_mem_cons.mpr ⟨h.1, ih h.2.2⟩

theorem causalFrom_append {ds : List Certificate} : G.CausalFrom pre (cs ++ ds) ↔
      G.CausalFrom pre cs ∧ G.CausalFrom (cs.reverse ++ pre) ds := by
  induction cs generalizing pre with
  | nil => exact (true_and _).symm.to_iff
  | cons c cs ih =>
    rw [cons_append, CausalFrom, CausalFrom, ih, reverse_cons, append_assoc]
    simp only [and_assoc, singleton_append]

def WellFormed (committee : Committee) (epoch : Nat) (l : List Certificate) : Prop :=
  (∀ c ∈ l, c.epoch = epoch ∧ committee.IsAuthority c.origin) ∧
  (∀ c ∈ l, ∀ d ∈ l, (c.origin = d.origin ∧ c.round = d.round) ∨ c.digest = d.digest → c = d) ∧
  ∀ c ∈ l, 2 ≤ c.round →
    (∀ p ∈ c.parents, ∃ d ∈ l, d.digest = p ∧ d.round + 1 = c.round) ∧
      committee.quorumThreshold ≤ ∑ a ∈
        ((l.filter fun d => d.digest ∈ c.parents).map Certificate.origin).toFinset,
          committee.votingPowerById a

instance (committee : Committee) (epoch : Nat) (l : List Certificate) :
    Decidable (WellFormed committee epoch l) :=
  inferInstanceAs (Decidable (_ ∧ _ ∧ _))

def ofList (committee : Committee) (epoch : Nat) (l : List Certificate)
    (h : WellFormed committee epoch l) : CertificateDag committee where
  certs := { c | c ∈ l }
  epoch := epoch
  epoch_eq := fun c hc => (h.1 c hc).1
  author_mem := fun c hc => (h.1 c hc).2
  unique := fun c hc d hd ho hr => h.2.1 c hc d hd (.inl ⟨ho, hr⟩)
  digest_inj := fun c hc d hd he => h.2.1 c hc d hd (.inr he)
  parents_mem := fun c hc hr => (h.2.2 c hc hr).1
  parents_quorum := fun c hc hr => ⟨_, (h.2.2 c hc hr).2, fun a ha => by
    obtain ⟨d, hd, rfl⟩ := mem_map.mp (mem_toFinset.mp ha)
    obtain ⟨hd, hp⟩ := mem_filter.mp hd
    exact ⟨d, hd, rfl, by simpa using hp⟩⟩

def causalFromList (l : List Certificate) : List Certificate → List Certificate → Bool
  | _, [] => true
  | before, c :: cs =>
    c ∈ l ∧ (∀ p ∈ l, p.digest ∈ c.parents → p.round + 1 = c.round → p ∈ before) ∧
      causalFromList l (c :: before) cs

theorem causalFrom_ofList {committee : Committee} {ep : Nat} {l : List Certificate}
    {h : WellFormed committee ep l}
    (hc : causalFromList l pre cs) : (ofList committee ep l h).CausalFrom pre cs := by
  induction cs generalizing pre with
  | nil => trivial
  | cons c cs ih =>
    simp only [causalFromList, Bool.decide_and, Bool.and_eq_true, decide_eq_true_eq] at hc
    exact ⟨hc.1, fun p hp => hc.2.1 p hp.1 hp.2.1 hp.2.2, ih hc.2.2⟩

end CertificateDag

abbrev StdRng.first : StdRng := ⟨fun _ _ => 0⟩

def fourAuthorities : Committee where
  authorities := [⟨0, 1⟩, ⟨1, 1⟩, ⟨2, 1⟩, ⟨3, 1⟩]
  epoch := 0
  sorted := by decide
  nonempty := by decide

/-- A certificate whose parents are given by their authors; `10 * round + author` serves
as its digest. -/
def certificateOf (author round : Nat) (parents : List Nat) : Certificate where
  header :=
    { author, round
      epoch := 0
      createdAt := round
      payload := []
      parents := parents.map fun a => 10 * (round - 1) + a
      digest := 10 * round + author }

def fullRounds (rounds : Nat) : List Certificate :=
  (range rounds).flatMap fun r =>
    [0, 1, 2, 3].map fun a => certificateOf a (r + 1) (if r = 0 then [] else [0, 1, 2, 3])

end Axyl
