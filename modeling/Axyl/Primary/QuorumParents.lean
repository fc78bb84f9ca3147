import Axyl.Lib.After
import Axyl.Primary.ParentAggregator
import Axyl.Primary.ParentsUsed

/-! From accepted certificates to the parents of a header: the aggregators of the rounds, the channel
to the proposer and the proposer itself, in any order of their steps. -/

namespace Axyl
open List List.Sublist CertificatesAggregatorManager
open Std (ExtTreeMap)

structure ParentFlow where
  manager : CertificatesAggregatorManager
  channel : List (List Certificate × Nat)
  proposer : Proposer

/-- A certificate is accepted, a round is garbage collected, the validator announces a round without
parents, the proposer takes the next message, or anything else happens to it. -/
inductive ParentEvent where
  | accept (cert : Certificate)
  | collect (gcRound : Nat)
  | announce (round : Nat)
  | deliver (env : LoopEnv)
  | propose (event : ProposerEvent)

def ParentEvent.evicts (gcDepth r : Nat) : ParentEvent → Bool
  | .accept cert => r + gcDepth ≤ cert.round
  | .collect gcRound => r ≤ gcRound
  | .announce _ | .deliver _ | .propose _ => false

namespace ParentFlow

def start (cfg : ProposerConfig) (committedRound : Nat) (lastProposed : Option Header) :
    ParentFlow :=
  ⟨.new cfg.gcDepth, [], .new cfg committedRound lastProposed⟩

def step (cfg : ProposerConfig) (s : ParentFlow) :
    ParentEvent → List ProposerEffect × ParentFlow
  | .accept cert =>
    let r := s.manager.appendCertificate cert cfg.committee
    ([], { s with manager := r.2, channel := s.channel ++ r.1.toList })
  | .collect gcRound => ([], { s with manager := s.manager.garbageCollect gcRound })
  | .announce round => ([], { s with channel := s.channel ++ [([], round)] })
  | .deliver env =>
    match s.channel with
    | [] => ([], s)
    | (certs, round) :: channel =>
      let r := s.proposer.step cfg (.select (.parents certs round) env)
      (r.1, { s with channel, proposer := r.2 })
  | .propose event =>
    if Proposer.bringsNoParents event then
      let r := s.proposer.step cfg event
      (r.1, { s with proposer := r.2 })
    else ([], s)

def run (cfg : ProposerConfig) (s : ParentFlow) (events : List ParentEvent) :
    List ProposerEffect × ParentFlow :=
  Reactor.run (step cfg) s events

open Proposer

def held (s : ParentFlow) (r : Nat) : List Certificate :=
  (if s.proposer.round = r then s.proposer.lastParents else []) ++
    (s.channel.filter (·.2 = r)).flatMap Prod.fst ++ (s.manager.get r).certificates

/-- An author has two certificates of the round accepted, and between them the aggregator was
dropped. -/
def Repeats (gcDepth r : Nat) (events : List ParentEvent) : Prop :=
  ∃ earlier c mid d later, events = earlier ++ .accept c :: (mid ++ .accept d :: later) ∧
    c.round = r ∧ d.round = r ∧ c.origin = d.origin ∧
    ∃ event ∈ ParentEvent.accept d :: mid, event.evicts gcDepth r

def Known (gcDepth : Nat) (events : List ParentEvent) (m : CertificatesAggregatorManager) (r : Nat)
    (c : Certificate) : Prop :=
  c.round = r ∧ ∃ earlier later, events = earlier ++ .accept c :: later ∧
    (c.origin ∈ (m.get r).authoritiesSeen ∨ ∃ event ∈ later, event.evicts gcDepth r)

section
variable {committee : Committee} {p q : Proposer}

def Opened (committee : Committee) (p : Proposer) (r : Nat) : Prop :=
  r < p.round ∨ p.round = r ∧ Quorate committee p.lastParents

def opens (committee : Committee) (message : List Certificate × Nat) : Option Nat :=
  if Quorate committee message.1 then some message.2 else none

def needs (committee : Committee) (message : List Certificate × Nat) (k : Option Nat) : Prop :=
  message.1 ≠ [] ∧ ¬ Quorate committee message.1 ∧ k = some message.2

def InOrder (committee : Committee) (p : Proposer) (channel : List (List Certificate × Nat)) :
    Prop :=
  After.Ordered (opens committee) (needs committee)
    (fun k => ∀ r, k = some r → Opened committee p r) channel

theorem opens_eq_some {msg : List Certificate × Nat} {r : Nat} :
    opens committee msg = some r ↔ Quorate committee msg.1 ∧ msg.2 = r := by
  unfold opens
  split
  · next h => simp [h]
  · next h => simp [h]

theorem Opened.advance {r : Nat} (h : Opened committee p r) (hadv : p.Advances q)
    (hend : q.ended = none) : Opened committee q r := by
  rcases (hadv hend).2 with ⟨hrnd, hpars⟩ | ⟨hrnd, -⟩
  · unfold Opened
    rw [hrnd, hpars]
    exact h
  · rcases h with h | ⟨h, -⟩
    · exact .inl (by omega)
    · exact .inl (by omega)

theorem InOrder.mono {channel : List (List Certificate × Nat)} (h : InOrder committee p channel)
    (hopn : ∀ r, Opened committee p r → Opened committee q r) : InOrder committee q channel := by
  apply After.Ordered.mono h
  intro k hk r hr
  exact hopn r (hk r hr)

end

/-- The proposer has a quorum of the round or will find one in the channel. -/
def Reached (cfg : ProposerConfig) (s : ParentFlow) (r : Nat) : Prop :=
  Opened cfg.committee s.proposer r ∨ ∃ message ∈ s.channel, opens cfg.committee message = some r

structure Flows (cfg : ProposerConfig) (events : List ParentEvent) (s : ParentFlow) : Prop where
  depth : s.manager.gcDepth = cfg.gcDepth
  counted : s.manager.Counted cfg.committee
  opened : ∀ r, cfg.committee.quorumThreshold ≤ (s.manager.get r).weight →
    Opened cfg.committee s.proposer r ∨ ∃ message ∈ s.channel, opens cfg.committee message = some r
  nodup : ∀ message ∈ s.channel, (message.1.map Certificate.origin).Nodup
  order : InOrder cfg.committee s.proposer s.channel
  parents : 1 ≤ s.proposer.round → s.proposer.lastParents ≠ [] →
    Quorate cfg.committee s.proposer.lastParents
  known : ∀ r, 1 ≤ r → ∀ c ∈ s.held r, Known cfg.gcDepth events s.manager r c
  distinct : ∀ r, 1 ≤ r → ¬ Repeats cfg.gcDepth r events →
    ((s.held r).map Certificate.origin).Nodup

variable {cfg : ProposerConfig} {events : List ParentEvent} {s : ParentFlow} {cert : Certificate}
    {gd r : Nat}

theorem Repeats.append (h : Repeats gd r events) (later : List ParentEvent) :
    Repeats gd r (events ++ later) := by
  obtain ⟨earlier, c, mid, d, rest, rfl, hc, hd, horig, hevic⟩ := h
  refine ⟨earlier, c, mid, d, rest ++ later, ?_, hc, hd, horig, hevic⟩
  simp

theorem not_repeats (h : ∀ ev ∈ events, ev.evicts gd r = false) : ¬ Repeats gd r events := by
  rintro ⟨earlier, c, mid, d, later, rfl, -, -, -, ev, hev, hevic⟩
  have hmem : ev ∈ earlier ++ .accept c :: (mid ++ .accept d :: later) := by
    rcases mem_cons.mp hev with rfl | hev
    · simp
    · simp [hev]
  rw [h ev hmem] at hevic
  cases hevic

variable {m : CertificatesAggregatorManager} {c : Certificate} {m' : CertificatesAggregatorManager}

theorem Known.append (h : Known gd events m r c) (ev : ParentEvent)
    (hseen : ∀ id ∈ (m.get r).authoritiesSeen, id ∈ (m'.get r).authoritiesSeen ∨ ev.evicts gd r) :
    Known gd (events ++ [ev]) m' r c := by
  obtain ⟨hrnd, earlier, later, rfl, horig⟩ := h
  refine ⟨hrnd, earlier, later ++ [ev], by simp, ?_⟩
  rcases horig with horig | ⟨e, he, hevic⟩
  · rcases hseen _ horig with hseen | hevic
    · exact .inl hseen
    · exact .inr ⟨ev, mem_append_right _ mem_cons_self, hevic⟩
  · exact .inr ⟨e, mem_append_left _ he, hevic⟩

theorem Known.mono (h : Known gd events m r c)
    (hseen : ∀ id ∈ (m.get r).authoritiesSeen, id ∈ (m'.get r).authoritiesSeen) :
    Known gd events m' r c := by
  obtain ⟨hrnd, earlier, later, rfl, horig⟩ := h
  exact ⟨hrnd, earlier, later, rfl, horig.imp_left (hseen _)⟩

section
variable (h : Flows cfg events s)
include h

theorem Flows.move {chan : List (List Certificate × Nat)} {p : Proposer}
    (hopn : ∀ r, Reached cfg s r → Reached cfg ⟨s.manager, chan, p⟩ r)
    (hnd : ∀ msg ∈ chan, (msg.1.map Certificate.origin).Nodup) (hord : InOrder cfg.committee p chan)
    (hpars : 1 ≤ p.round → p.lastParents ≠ [] → Quorate cfg.committee p.lastParents)
    (hheld : ∀ r, 1 ≤ r → (held ⟨s.manager, chan, p⟩ r).Sublist (s.held r)) :
    Flows cfg events ⟨s.manager, chan, p⟩ where
  depth := h.depth
  counted := h.counted
  opened := fun r hr => hopn r (h.opened r hr)
  nodup := hnd
  order := hord
  parents := hpars
  known := fun r hr c hc => h.known r hr c ((hheld r hr).subset hc)
  distinct := fun r hr hrpt => ((hheld r hr).map _).nodup (h.distinct r hr hrpt)

theorem Flows.evict (ev : ParentEvent) (hdep : m.gcDepth = s.manager.gcDepth)
    (hget : ∀ r : Nat, m.aggregators[r]? = s.manager.aggregators[r]? ∨
      m.aggregators[r]? = none ∧ ev.evicts cfg.gcDepth r) :
    Flows cfg (events ++ [ev]) { s with manager := m } := by
  have hcase : ∀ r, m.get r = s.manager.get r ∨ m.get r = .new ∧ ev.evicts cfg.gcDepth r := by
    intro r
    unfold CertificatesAggregatorManager.get
    rcases hget r with hr | ⟨hr, hevic⟩
    · rw [hr]
      exact .inl rfl
    · rw [hr]
      exact .inr ⟨rfl, hevic⟩
  have hheld : ∀ r, (held { s with manager := m } r).Sublist (s.held r) := by
    intro r
    apply List.Sublist.append (List.Sublist.refl _)
    rcases hcase r with hr | ⟨hr, -⟩
    · rw [hr]
    · rw [hr]
      exact nil_sublist _
  refine ⟨hdep.trans h.depth, ?_, ?_, h.nodup, h.order, h.parents, ?_, ?_⟩
  · intro r agg hagg
    rcases hget r with hr | ⟨hr, -⟩
    · exact h.counted r agg (hr.symm.trans hagg)
    · rw [hr] at hagg
      cases hagg
  · intro r hr
    rcases hcase r with hcase | ⟨hcase, -⟩
    · rw [hcase] at hr
      exact h.opened r hr
    · rw [hcase] at hr
      exact absurd hr (Nat.not_succ_le_zero _)
  · intro r hr c hc
    apply (h.known r hr c ((hheld r).subset hc)).append ev
    intro id hid
    rcases hcase r with hcase | ⟨-, hevic⟩
    · rw [hcase]
      exact .inl hid
    · exact .inr hevic
  · intro r hr hrpt
    have hdist := h.distinct r hr fun hr => hrpt (hr.append [ev])
    exact ((hheld r).map _).nodup hdist

theorem Flows.idle (ev : ParentEvent) : Flows cfg (events ++ [ev]) s :=
  h.evict ev rfl fun _ => .inl rfl

theorem Flows.collect (gcRound : Nat) : Flows cfg (events ++ [.collect gcRound])
      { s with manager := s.manager.garbageCollect gcRound } := by
  refine h.evict _ rfl fun r => ?_
  rw [getElem?_garbageCollect]
  by_cases hr : gcRound < r
  · exact .inl (if_pos hr)
  · exact .inr ⟨if_neg hr, decide_eq_true (by omega)⟩

theorem Flows.proactiveGc (cert : Certificate) : Flows cfg (events ++ [.accept cert])
      { s with manager := s.manager.proactiveGc cert.round } := by
  have hdep : (s.manager.proactiveGc cert.round).gcDepth = s.manager.gcDepth := by
    unfold CertificatesAggregatorManager.proactiveGc
    split
    · rfl
    · rfl
  refine h.evict _ hdep fun r => ?_
  rw [getElem?_proactiveGc, h.depth]
  by_cases hr : r + cfg.gcDepth ≤ cert.round
  · exact .inr ⟨if_pos hr, decide_eq_true hr⟩
  · exact .inl (if_neg hr)

theorem Flows.announce (round : Nat) :
    Flows cfg events { s with channel := s.channel ++ [([], round)] } := by
  refine h.move ?_ ?_ ?_ h.parents ?_
  · rintro r (hr | ⟨msg, hmsg, hr⟩)
    · exact .inl hr
    · exact .inr ⟨msg, mem_append_left _ hmsg, hr⟩
  · exact forall_mem_append.mpr ⟨h.nodup, forall_mem_singleton.mpr nodup_nil⟩
  · apply After.Ordered.snoc h.order
    rintro k ⟨hne, -⟩
    exact absurd rfl hne
  · intro r _
    unfold held
    by_cases hrnd : round = r
    · simp [hrnd]
    · simp [hrnd]

end

def appended (cfg : ProposerConfig) (s : ParentFlow) (cert : Certificate) : ParentFlow :=
  let r := (s.manager.get cert.round).append cert cfg.committee
  { s with
    manager := { s.manager with aggregators := s.manager.aggregators.insert cert.round r.2 }
    channel := s.channel ++ (r.1.map fun parents => (parents, cert.round)).toList }

section
variable (cert : Certificate)

theorem get_appended (cfg : ProposerConfig) (s : ParentFlow) (r : Nat) :
    (appended cfg s cert).manager.get r = if cert.round = r then
      ((s.manager.get cert.round).append cert cfg.committee).2 else s.manager.get r := by
  change (ExtTreeMap.insert _ _ _)[r]?.getD _ = _
  rw [ExtTreeMap.getElem?_insert]
  simp only [Nat.compare_eq_eq]
  split
  · rfl
  · rfl

theorem held_appended (cfg : ProposerConfig) (s : ParentFlow) (r : Nat) :
    (appended cfg s cert).held r = s.held r ++ if cert.round = r ∧
      cert.origin ∉ (s.manager.get cert.round).authoritiesSeen then [cert] else [] := by
  unfold held
  rw [get_appended]
  unfold appended
  by_cases hrnd : cert.round = r
  · subst hrnd
    unfold CertificatesAggregator.append
    by_cases hseen : cert.origin ∈ (s.manager.get cert.round).authoritiesSeen
    · simp [hseen]
    · by_cases hquo : cfg.committee.quorumThreshold ≤
          (s.manager.get cert.round).weight + cfg.committee.votingPowerById cert.origin
      · simp [hseen, hquo]
      · simp [hseen, hquo]
  · cases ((s.manager.get cert.round).append cert cfg.committee).1 with
    | none => simp [hrnd]
    | some ps => simp [hrnd]

theorem mem_seen_append (agg : CertificatesAggregator) (committee : Committee) :
    cert.origin ∈ (agg.append cert committee).2.authoritiesSeen := by
  unfold CertificatesAggregator.append
  split
  · next hseen => exact hseen
  · dsimp only
    split
    · exact mem_append_right _ mem_cons_self
    · exact mem_append_right _ mem_cons_self

end

theorem Flows.repeats (h : Flows cfg (events ++ [.accept cert]) s) (hr : 1 ≤ r) (hc : c ∈ s.held r)
    (hrnd : cert.round = r) (horig : c.origin = cert.origin)
    (hseen : cert.origin ∉ (s.manager.get r).authoritiesSeen) :
    Repeats cfg.gcDepth r (events ++ [.accept cert]) := by
  obtain ⟨hcround, earlier, later, hspl, hkn⟩ := h.known r hr c hc
  rw [horig] at hkn
  obtain ⟨ev, hev, hevic⟩ := hkn.resolve_left hseen
  rcases eq_nil_or_concat later with rfl | ⟨mid, last, rfl⟩
  · cases hev
  · rw [concat_eq_append] at hspl hev
    have hlast : [ParentEvent.accept cert] = [last] := by
      rw [← cons_append, ← append_assoc] at hspl
      exact append_inj_right' hspl rfl
    obtain ⟨rfl, -⟩ := List.cons.inj hlast
    refine ⟨earlier, c, mid, cert, [], hspl, hcround, hrnd, horig, ev, ?_, hevic⟩
    rcases mem_append.mp hev with hev | hev
    · exact mem_cons_of_mem _ hev
    · rw [mem_singleton.mp hev]
      exact mem_cons_self

theorem Flows.append (h : Flows cfg (events ++ [.accept cert]) s) :
    Flows cfg (events ++ [.accept cert]) (appended cfg s cert) := by
  have happ := (h.counted.get cert.round).append cert
  refine ⟨h.depth, ?_, ?_, ?_, ?_, h.parents, ?_, ?_⟩
  · intro r agg hagg
    change (ExtTreeMap.insert _ _ _)[r]? = _ at hagg
    rw [ExtTreeMap.getElem?_insert] at hagg
    split at hagg
    · cases hagg
      exact happ.counts
    · exact h.counted r agg hagg
  · intro r hr
    have hold : Reached cfg s r → Reached cfg (appended cfg s cert) r := by
      rintro (hopn | ⟨msg, hmsg, hopens⟩)
      · exact .inl hopn
      · exact .inr ⟨msg, mem_append_left _ hmsg, hopens⟩
    rw [get_appended] at hr
    split at hr
    · next hrnd =>
      subst hrnd
      rcases happ.reached hr with hbef | ⟨ps, hpars, hqrt⟩
      · exact hold (h.opened cert.round hbef)
      · refine .inr ⟨(ps, cert.round), ?_, opens_eq_some.mpr ⟨hqrt, rfl⟩⟩
        apply mem_append_right
        rw [hpars]
        exact mem_cons_self
    · exact hold (h.opened r hr)
  · intro msg hmsg
    rcases mem_append.mp hmsg with hmsg | hmsg
    · exact h.nodup msg hmsg
    · -- the new message
      obtain ⟨ps, hpars, rfl⟩ := Option.map_eq_some_iff.mp (Option.mem_toList.mp hmsg)
      exact happ.nodup ps hpars
  · refine After.ordered_append.mpr ⟨h.order, ?_⟩
    cases hres : ((s.manager.get cert.round).append cert cfg.committee).1 with
    | none => exact trivial
    | some ps =>
      refine ⟨?_, trivial⟩
      rintro k ⟨-, hqrt, rfl⟩
      have hbef := (happ.quorate ps hres).resolve_left hqrt
      rcases h.opened cert.round hbef with hopn | hopens
      · refine .inl ?_
        rintro r ⟨⟩
        exact hopn
      · exact .inr hopens
  · intro r hr c hc
    rw [held_appended] at hc
    have hseen : ∀ id ∈ (s.manager.get r).authoritiesSeen,
        id ∈ ((appended cfg s cert).manager.get r).authoritiesSeen := by
      intro id hid
      rw [get_appended]
      split
      · next hrnd =>
        subst hrnd
        exact happ.seen id hid
      · exact hid
    rcases mem_append.mp hc with hc | hc
    · exact (h.known r hr c hc).mono hseen
    · split at hc
      · next hrnd =>
        rw [mem_singleton.mp hc]
        refine ⟨hrnd.1, events, [], rfl, .inl ?_⟩
        rw [get_appended, if_pos hrnd.1]
        exact mem_seen_append _ _ _
      · cases hc
  · intro r hr hrpt
    have hdist := h.distinct r hr hrpt
    rw [held_appended]
    split
    · next hrnd =>
      rw [map_append, nodup_append]
      refine ⟨hdist, nodup_singleton _, ?_⟩
      intro a ha b hb
      obtain ⟨c, hc, rfl⟩ := mem_map.mp ha
      rw [mem_singleton.mp hb]
      intro horig
      refine hrpt (h.repeats hr hc hrnd.1 horig ?_)
      rw [← hrnd.1]
      exact hrnd.2
    · rw [append_nil]
      exact hdist

theorem takeParents_cases (cfg : ProposerConfig) (p : Proposer) (certs : List Certificate)
    (round : Nat) :
    p.takeParents cfg certs round = p ∧ (round < p.round ∨ p.round < round ∧
        ¬ cfg.committee.quorumThreshold ≤
          (certs.map fun cert => cfg.committee.votingPowerById cert.origin).sum) ∨
      p.round < round ∧ cfg.committee.quorumThreshold ≤
          (certs.map fun cert => cfg.committee.votingPowerById cert.origin).sum ∧
        (p.takeParents cfg certs round).round = round ∧
        (p.takeParents cfg certs round).lastParents = certs ∨
      p.round = round ∧ (p.takeParents cfg certs round).round = round ∧
        (p.takeParents cfg certs round).lastParents = p.lastParents ++ certs := by
  unfold takeParents
  split
  · next hlat =>
    dsimp only
    split
    · next hquo => exact .inr (.inl ⟨hlat, hquo, rfl, rfl⟩)
    · next hquo => exact .inl ⟨rfl, .inr ⟨hlat, hquo⟩⟩
  · next hlat =>
    split
    · next hearl => exact .inl ⟨rfl, .inl hearl⟩
    · next hearl =>
      have hrnd : p.round = round := by omega
      exact .inr (.inr ⟨hrnd, hrnd, rfl⟩)

theorem Flows.take (h : Flows cfg events s) {cs : List Certificate} {round : Nat}
    {channel : List (List Certificate × Nat)} (hchan : s.channel = (cs, round) :: channel) :
    Flows cfg events { s with channel, proposer := s.proposer.takeParents cfg cs round } := by
  have hnd := h.nodup
  have hord := h.order
  rw [hchan] at hnd hord
  have hcs : Quorate cfg.committee cs ↔ cfg.committee.quorumThreshold ≤
      (cs.map fun cert => cfg.committee.votingPowerById cert.origin).sum :=
    quorate_iff_of_nodup (hnd (cs, round) mem_cons_self)
  have hcas := takeParents_cases cfg s.proposer cs round
  generalize hp : s.proposer.takeParents cfg cs round = p at hcas ⊢
  have hkept : ∀ r, Opened cfg.committee s.proposer r → Opened cfg.committee p r := by
    intro r hr
    rcases hcas with ⟨rfl, -⟩ | ⟨hlat, -, hrnd, -⟩ | ⟨hsame, hrnd, hpars⟩
    · exact hr
    · have hle : r ≤ s.proposer.round := by
        rcases hr with hr | ⟨hr, -⟩
        · omega
        · omega
      exact .inl (by omega)
    · rcases hr with hr | ⟨hr, hqrt⟩
      · exact .inl (by omega)
      · refine .inr ⟨by omega, ?_⟩
        rw [hpars]
        exact hqrt.mono fun c hc => mem_append_left _ hc
  have hopn : ∀ r, opens cfg.committee (cs, round) = some r → Opened cfg.committee p r := by
    intro r hr
    obtain ⟨hqrt, rfl⟩ := opens_eq_some.mp hr
    rcases hcas with ⟨rfl, hout⟩ | ⟨-, -, hrnd, hpars⟩ | ⟨-, hrnd, hpars⟩
    · rcases hout with hout | ⟨-, hout⟩
      · exact .inl hout
      · exact absurd (hcs.mp hqrt) hout
    · refine .inr ⟨hrnd, ?_⟩
      rw [hpars]
      exact hqrt
    · refine .inr ⟨hrnd, ?_⟩
      rw [hpars]
      exact hqrt.mono fun c hc => mem_append_right _ hc
  refine h.move ?_ ?_ ?_ ?_ ?_
  · rintro r (hr | ⟨msg, hmsg, hr⟩)
    · exact .inl (hkept r hr)
    · rw [hchan] at hmsg
      rcases mem_cons.mp hmsg with rfl | hmsg
      · exact .inl (hopn r hr)
      · exact .inr ⟨msg, hmsg, hr⟩
  · intro msg hmsg
    exact hnd msg (mem_cons_of_mem _ hmsg)
  · apply After.Ordered.mono hord.2
    rintro k hk r rfl
    rcases hk with hk | hk
    · exact hkept r (hk r rfl)
    · exact hopn r hk
  · intro hpos hne
    rcases hcas with ⟨rfl, -⟩ | ⟨-, hquo, -, hpars⟩ | ⟨hsame, hrnd, hpars⟩
    · exact h.parents hpos hne
    · rw [hpars]
      exact hcs.mpr hquo
    · rw [hpars] at hne ⊢
      by_cases hnil : cs = []
      · rw [hnil, append_nil] at hne ⊢
        exact h.parents (by omega) hne
      · by_cases hqrt : Quorate cfg.committee cs
        · exact hqrt.mono fun c hc => mem_append_right _ hc
        · -- certificates on their own: the round is open
          rcases hord.1 (some round) ⟨hnil, hqrt, rfl⟩ round rfl with hlt | ⟨-, hold⟩
          · omega
          · exact hold.mono fun c hc => mem_append_left _ hc
  · intro r _
    unfold held
    rw [hchan]
    apply append_right
    by_cases hr : round = r
    · rw [filter_cons_of_pos (by simpa using hr), flatMap_cons, ← append_assoc]
      apply append_right
      rcases hcas with ⟨rfl, -⟩ | ⟨hlat, -, hrnd, hpars⟩ | ⟨hsame, hrnd, hpars⟩
      · exact sublist_append_left _ _
      · rw [if_pos (hrnd.trans hr), hpars]
        exact sublist_append_right _ _
      · rw [if_pos (hrnd.trans hr), if_pos (hsame.trans hr), hpars]
    · rw [filter_cons_of_neg (by simpa using hr)]
      apply append_right
      rcases hcas with ⟨rfl, -⟩ | ⟨-, -, hrnd, -⟩ | ⟨-, hrnd, -⟩
      · exact List.Sublist.refl _
      · rw [if_neg (hrnd.trans_ne hr)]
        exact nil_sublist _
      · rw [if_neg (hrnd.trans_ne hr)]
        exact nil_sublist _

theorem Flows.advance (h : Flows cfg events s) {q : Proposer} (hadv : s.proposer.Advances q)
    (hend : q.ended = none) : Flows cfg events { s with proposer := q } := by
  have hkept : ∀ r, Opened cfg.committee s.proposer r → Opened cfg.committee q r :=
    fun r hr => hr.advance hadv hend
  refine h.move (fun r => Or.imp_left (hkept r)) h.nodup (h.order.mono hkept) ?_ ?_
  · rcases (hadv hend).2 with ⟨hrnd, hpars⟩ | ⟨-, hpars⟩
    · rw [hrnd, hpars]
      exact h.parents
    · intro _ hne
      exact absurd hpars hne
  · intro r _
    apply append_right
    apply append_right
    rcases (hadv hend).2 with ⟨hrnd, hpars⟩ | ⟨-, hpars⟩
    · rw [hrnd, hpars]
    · rw [hpars]
      split
      · exact nil_sublist _
      · exact nil_sublist _

def GoodParents (cfg : ProposerConfig) (events : List ParentEvent) (r : Nat)
    (parents : List Certificate) : Prop :=
  1 ≤ r → Quorate cfg.committee parents ∧ (∀ c ∈ parents, c.round = r ∧ .accept c ∈ events) ∧
    (¬ Repeats cfg.gcDepth r events → (parents.map Certificate.origin).Nodup)

def GoodHeader (cfg : ProposerConfig) (row : Option Header) (events : List ParentEvent)
    (header : Header) : Prop :=
  row = some header ∨ ∃ r parents, header.round = r + 1 ∧ GoodParents cfg events r parents ∧
    ∀ digest, digest ∈ header.parents ↔ ∃ c ∈ parents, c.digest = digest

theorem GoodParents.append {parents : List Certificate} (h : GoodParents cfg events r parents)
    (later : List ParentEvent) : GoodParents cfg (events ++ later) r parents := by
  intro hr
  obtain ⟨hqrt, hpars, hnd⟩ := h hr
  refine ⟨hqrt, ?_, ?_⟩
  · intro c hc
    obtain ⟨hrnd, hacc⟩ := hpars c hc
    exact ⟨hrnd, mem_append_left _ hacc⟩
  · intro hrpt
    exact hnd fun hr => hrpt (hr.append later)

theorem GoodHeader.append {row : Option Header} {header : Header}
    (h : GoodHeader cfg row events header) (later : List ParentEvent) :
    GoodHeader cfg row (events ++ later) header := by
  rcases h with h | ⟨r, ps, hrnd, hgood, hdigs⟩
  · exact .inl h
  · exact .inr ⟨r, ps, hrnd, hgood.append later, hdigs⟩

theorem goodHeader_newHeader (row : Option Header) (r : Nat) (ps : List Certificate)
    (digs : List ProposerDigest) (createdAt dig : Nat) (h : GoodParents cfg events r ps) :
    GoodHeader cfg row events (newHeader cfg (r + 1) ps digs createdAt dig) := by
  refine .inr ⟨r, ps, rfl, h, ?_⟩
  intro dig'
  unfold newHeader
  rw [mem_dedup, mem_insertionSort, mem_map]

theorem Flows.goodParents (h : Flows cfg events s) (hne : s.proposer.lastParents ≠ []) :
    GoodParents cfg events s.proposer.round s.proposer.lastParents := by
  intro hr
  have hheld : s.proposer.lastParents.Sublist (s.held s.proposer.round) := by
    unfold held
    rw [if_pos rfl, append_assoc]
    exact sublist_append_left _ _
  refine ⟨h.parents hr hne, ?_, ?_⟩
  · intro c hc
    obtain ⟨hrnd, earlier, later, rfl, -⟩ := h.known _ hr c (hheld.subset hc)
    exact ⟨hrnd, mem_append_right _ mem_cons_self⟩
  · intro hrpt
    exact (hheld.map _).nodup (h.distinct _ hr hrpt)

structure Sound (cfg : ProposerConfig) (row : Option Header) (events : List ParentEvent)
    (fx : List ProposerEffect) (s : ParentFlow) : Prop where
  uses : s.proposer.Uses (GoodParents cfg events) (GoodHeader cfg row events) fx
  flows : s.proposer.ended = none → Flows cfg events s

variable {row : Option Header} {fx : List ProposerEffect}

section
variable (h : Sound cfg row events fx s)
include h

theorem Sound.uses_later (ev : ParentEvent) : s.proposer.Uses (GoodParents cfg (events ++ [ev]))
      (GoodHeader cfg row (events ++ [ev])) fx :=
  h.uses.mono (fun _ _ hgood => hgood.append [ev]) fun _ hgood => hgood.append [ev]

theorem Sound.beside (ev : ParentEvent) {t : ParentFlow} (hproposer : t.proposer = s.proposer)
    (hflows : Flows cfg events s → Flows cfg (events ++ [ev]) t) :
    Sound cfg row (events ++ [ev]) (fx ++ []) t := by
  rw [append_nil]
  refine ⟨?_, ?_⟩
  · rw [hproposer]
    exact h.uses_later ev
  · rw [hproposer]
    exact fun hend => hflows (h.flows hend)

theorem Sound.deliver (env : LoopEnv) {cs : List Certificate} {round : Nat}
    {channel : List (List Certificate × Nat)} (hchan : s.channel = (cs, round) :: channel) :
    Sound cfg row (events ++ [.deliver env])
      (fx ++ (s.proposer.step cfg (.select (.parents cs round) env)).1) { s with
        channel
        proposer := (s.proposer.step cfg (.select (.parents cs round) env)).2 } := by
  have huses := h.uses_later (.deliver env)
  cases hend : s.proposer.ended with
  | some e =>
    have hidle : s.proposer.step cfg (.select (.parents cs round) env) = ([], s.proposer) := by
      unfold Proposer.step
      rw [hend]
      rfl
    rw [hidle, append_nil]
    refine ⟨huses, ?_⟩
    intro hnone
    rw [hend] at hnone
    cases hnone
  | none =>
    have htk := ((h.flows hend).idle (.deliver env)).take hchan
    have huses := huses.takeParents cs round fun hne => htk.goodParents hne
    have hsame := same_processParents s.proposer cfg env.leader cs round
    have hopen := ended_processParents s.proposer cfg env.leader cs round
    -- nothing after the parents are taken brings others
    have hchgs := (Proposer.Change.quiet hsame).then (changes_afterSelect cfg .dropped
      s.proposer (hopen.trans hend) env)
    obtain ⟨huses, hadv⟩ := huses.changes hchgs rfl (goodHeader_newHeader row)
    rw [step_select cfg hend (.parents cs round) env (hopen.trans hend)]
    exact ⟨append_nil fx ▸ huses, htk.advance hadv⟩

theorem Sound.propose {ev : ProposerEvent} (hev : bringsNoParents ev = true) :
    Sound cfg row (events ++ [.propose ev]) (fx ++ (s.proposer.step cfg ev).1)
      { s with proposer := (s.proposer.step cfg ev).2 } := by
  have huses := h.uses_later (.propose ev)
  obtain ⟨haft, hadv⟩ :=
    huses.changes (changes_step _ cfg ev) hev (goodHeader_newHeader row)
  refine ⟨haft, ?_⟩
  intro hend
  exact ((h.flows (hadv hend).1).idle _).advance hadv hend

theorem Sound.step (ev : ParentEvent) :
    Sound cfg row (events ++ [ev]) (fx ++ (s.step cfg ev).1) (s.step cfg ev).2 := by
  cases ev with
  | accept cert => exact h.beside _ rfl fun hflows => (hflows.proactiveGc cert).append
  | collect gcRound => exact h.beside _ rfl fun hflows => hflows.collect gcRound
  | announce round => exact h.beside _ rfl fun hflows => (hflows.idle _).announce round
  | deliver env =>
    unfold ParentFlow.step
    dsimp only
    split
    · exact h.beside _ rfl fun hflows => hflows.idle _
    · next hchan => exact h.deliver env hchan
  | propose ev =>
    unfold ParentFlow.step
    dsimp only
    split
    · next hev => exact h.propose hev
    · exact h.beside _ rfl fun hflows => hflows.idle _

end

theorem sound_start (cfg : ProposerConfig) (committedRound : Nat) (row : Option Header) :
    Sound cfg row [] [] (start cfg committedRound row) := by
  -- only the genesis certificates are there at the start, in round zero
  have hpars : 1 ≤ (start cfg committedRound row).proposer.round →
      (start cfg committedRound row).proposer.lastParents = [] := fun hpos => if_pos hpos
  have hheld : ∀ r, 1 ≤ r → (start cfg committedRound row).held r = [] := by
    intro r hr
    unfold held
    split
    · next hrnd =>
      rw [← hrnd] at hr
      rw [hpars hr]
      rfl
    · rfl
  refine ⟨⟨?_, nofun, fun h hrow => .inl hrow, nofun⟩, fun _ => ?_⟩
  · intro _ hne hr
    exact absurd (hpars hr) hne
  · refine ⟨rfl, ?_, ?_, nofun, trivial, ?_, ?_, ?_⟩
    · intro r agg hagg
      cases hagg
    · intro r hr
      exact absurd hr (Nat.not_succ_le_zero _)
    · intro hr hne
      exact absurd (hpars hr) hne
    · intro r hr c hc
      rw [hheld r hr] at hc
      cases hc
    · intro r hr _
      rw [hheld r hr]
      exact nodup_nil

/-- A header of round two or later that was not in the store at the start has a quorum of parents
of the round before, accepted certificates of members, in every interleaving. Their authors are
different unless an author has two certificates of that round accepted with the aggregator of the
round dropped between them. -/
theorem new_header_quorum_parents (cfg : ProposerConfig) (committedRound : Nat)
    (row : Option Header) (events : List ParentEvent)
    (hmembers : ∀ cert, .accept cert ∈ events → cfg.committee.IsAuthority cert.origin)
    {header : Header}
    (hsent : header ∈ sentHeaders ((start cfg committedRound row).run cfg events).1)
    (hnew : row ≠ some header) (hround : 2 ≤ header.round) :
    ∃ parents : List Certificate,
      (∀ digest, digest ∈ header.parents ↔ ∃ c ∈ parents, c.digest = digest) ∧
      (∀ c ∈ parents, c.round + 1 = header.round ∧ .accept c ∈ events ∧
        cfg.committee.IsAuthority c.origin) ∧
      cfg.committee.quorumThreshold ≤ ∑ id ∈ (parents.map Certificate.origin).toFinset,
        cfg.committee.votingPowerById id ∧
      (¬ Repeats cfg.gcDepth (header.round - 1) events →
        (parents.map Certificate.origin).Nodup) := by
  have hsound : Sound cfg row ([] ++ events)
      ([] ++ ((start cfg committedRound row).run cfg events).1)
      ((start cfg committedRound row).run cfg events).2 :=
    Reactor.run_inputs (f := step cfg) (P := Sound cfg row) (fun _ _ _ event h => h.step event)
      (sound_start cfg committedRound row) events
  rcases hsound.uses.sent header hsent with hrow | ⟨r, parents, hr, hgood, hdigests⟩
  · exact absurd hrow hnew
  · obtain ⟨hquorate, haccepted, hnodup⟩ := hgood (by omega)
    refine ⟨parents, hdigests, ?_, hquorate, ?_⟩
    · intro c hc
      obtain ⟨hc, haccept⟩ := haccepted c hc
      exact ⟨by omega, haccept, hmembers c haccept⟩
    · rw [show header.round - 1 = r by omega]
      exact hnodup

/-- The quorum of round one and the certificate after it. -/
theorem new_header_quorum_parents_extra :
    let cfg := firstProposer
    let events := (proposal 101).map ParentEvent.propose ++
      (certsOf 1).map .accept ++ [.deliver calm, .deliver calm] ++
      (proposal 102).map .propose
    ∃ header ∈ sentHeaders ((start cfg 0 none).run cfg events).1,
      header.round = 2 ∧ header.parents = [11, 12, 13, 14] ∧ ∃ parents : List Certificate,
        (∀ digest, digest ∈ header.parents ↔ ∃ c ∈ parents, c.digest = digest) ∧
        (∀ c ∈ parents, c.round + 1 = header.round) ∧
        3 ≤ ∑ id ∈ (parents.map Certificate.origin).toFinset,
          cfg.committee.votingPowerById id ∧
        (parents.map Certificate.origin).Nodup := by
  intro cfg events
  have hsent : (sentHeaders ((start cfg 0 none).run cfg events).1).map
      (fun header => (header.round, header.parents)) =
        [(1, [1, 2, 3, 4]), (2, [11, 12, 13, 14])] := by
    decide +kernel
  obtain ⟨first, rest, hsplit, -, hrest⟩ := map_eq_cons_iff.mp hsent
  obtain ⟨header, tail, rfl, hheader, -⟩ := map_eq_cons_iff.mp hrest
  obtain ⟨hround, hparents⟩ := Prod.mk.inj hheader
  have hmem : header ∈ sentHeaders ((start cfg 0 none).run cfg events).1 := by
    rw [hsplit]
    exact mem_cons_of_mem _ mem_cons_self
  have hmembers : ∀ cert, .accept cert ∈ events → cfg.committee.IsAuthority cert.origin := by
    intro cert hcert
    have hcert : cert ∈ certsOf 1 := by
      simpa [events, proposal] using hcert
    have hall : ∀ cert ∈ certsOf 1, cfg.committee.IsAuthority cert.origin := by decide
    exact hall cert hcert
  have hquiet : ∀ event ∈ events, event.evicts cfg.gcDepth 1 = false := by
    decide
  obtain ⟨parents, hdigests, hc, hquorum, hnodup⟩ := new_header_quorum_parents cfg 0 none events
    hmembers hmem nofun (by omega)
  rw [show cfg.committee.quorumThreshold = 3 by decide] at hquorum
  refine ⟨header, hmem, hround, hparents, parents, hdigests, fun c hcm => (hc c hcm).1, hquorum, ?_⟩
  apply hnodup
  rw [hround]
  exact not_repeats hquiet

/-- A certificate far ahead drops the aggregator of round five after its quorum, and a second quorum
of certificates, with two authors of the first, joins the parents. -/
theorem author_twice_after_eviction :
    let cert := fun author round digest => (⟨⟨author, round, 1, 0, [], [], digest⟩⟩ : Certificate)
    let first := [cert 1 5 51, cert 2 5 52, cert 3 5 53]
    let second := [cert 4 5 54, cert 1 5 151, cert 2 5 152]
    let cfg := firstProposer
    let events := first.map ParentEvent.accept ++
      [.deliver calm, .accept (cert 1 55 551)] ++ second.map .accept ++
      [.deliver calm] ++ (proposal 101).map .propose
    ((first ++ second).map Certificate.digest).Nodup ∧
      ∃ header ∈ sentHeaders ((start cfg 5 none).run cfg events).1, header.round = 6 ∧
        ∃ c ∈ first, ∃ d ∈ second, c.digest ∈ header.parents ∧ d.digest ∈ header.parents ∧
          c.origin = d.origin := by
  decide +kernel

end ParentFlow

end Axyl
