import Axyl.StateSync.CatchUp

/-! What holds of the forward streamer over any run in which no attempt ends early behind a header
that is not of the chain: its last header is of the chain, and everything up to it was sent. -/

namespace Axyl
open List HashFunction Function
open Std (ExtTreeMap)

theorem number_of_requestConsensus {number : Nat} {answers : List PeerAnswer} {x : ConsensusHeader}
    (h : requestConsensus number answers = some x) : x.number = number := by
  unfold requestConsensus at h
  generalize answers.take 3 = asked at h
  induction asked with
  | nil => cases h
  | cons a as ih =>
    cases a with
    | failed => cases h
    | other => exact ih h
    | header y =>
      unfold firstOfNumber at h
      split at h
      · next heq =>
        cases h
        exact heq
      · exact ih h

namespace CatchUpNode

def goal (s : Streamer) : Nat :=
  match s.catchUp, s.pendingCatchUpTarget with
  | some c, _ => c.maxConsensus.number
  | none, some target => target.number
  | none, none => s.lastConsensusHeader.number

theorem goal_some {s : Streamer} {c : CatchUp} (h : s.catchUp = some c) :
    goal s = c.maxConsensus.number := by
  simp only [goal, h]

theorem goal_none {s : Streamer} (h : s.catchUp = none) :
    goal s = (s.pendingCatchUpTarget.map ConsensusHeader.number).getD s.lastConsensusHeader.number := by
  cases hpend : s.pendingCatchUpTarget <;> simp only [goal, h, hpend] <;> rfl

def sentHeaders (effects : List CatchUpEffect) : List ConsensusHeader :=
  effects.filterMap fun
    | .streamed header => some header
    | .output _ => none

theorem mem_sentHeaders {effects : List CatchUpEffect} {x : ConsensusHeader} :
    x ∈ sentHeaders effects ↔ CatchUpEffect.streamed x ∈ effects := by
  rw [sentHeaders, mem_filterMap]
  constructor
  · rintro ⟨e, he, hx⟩
    cases e with
    | streamed y =>
      cases hx
      exact he
    | output => cases hx
  · intro hx
    exact ⟨_, hx, rfl⟩

theorem latest_saveAll (n : CatchUpNode) (es : List SubscriberEffect) :
    (es.foldl save n).latest = n.latest := by
  induction es generalizing n with
  | nil => rfl
  | cons e es ih =>
    rw [foldl_cons, ih]
    cases e <;> rfl

section
variable [HashFunction]

section
variable (cfg : SubscriberConfig) (anchor : ConsensusHeader) (subDags : List CommittedSubDag)

/-- Targets and commits are of the chain, and an attempt that ends early, because no peer answers or
a header is of a closed epoch, ends behind a header of the chain. -/
def Sound (n : CatchUpNode) : CatchUpEvent → Prop
  | .publish header => header ∈ chainFrom anchor subDags
  | .reply answers =>
    ∀ c ∈ n.streamer.catchUp, c.stage = .request → requestConsensus c.number answers = none →
      OnChain anchor subDags c.resultHeader
  | .forward _ =>
    ∀ c ∈ n.streamer.catchUp, ∀ header ∈ c.stage.held,
      header.subDag.leaderEpoch < cfg.epoch → OnChain anchor subDags c.resultHeader
  | .deliver sends =>
    ∀ f ∈ n.follower, ∀ e ∈ (f.deliver cfg sends).1, e.header ∈ chainFrom anchor subDags
  | _ => True

instance decidableSound (n : CatchUpNode) :
    (event : CatchUpEvent) → Decidable (Sound cfg anchor subDags n event)
  | .publish _ => inferInstanceAs (Decidable (_ ∈ _))
  | .reply _ => inferInstanceAs (Decidable (∀ _ ∈ _, _ → _ → _))
  | .forward _ | .deliver _ => inferInstanceAs (Decidable (∀ _ ∈ _, ∀ _ ∈ _, _))
  | .walk _ | .changed | .retry | .lookup | .receive _ => isTrue trivial

/-- An attempt: the headers sent so far link, and up to the last one that is of the chain all are. -/
structure Attempting (sent : List ConsensusHeader) (last : ConsensusHeader) (c : CatchUp) : Prop where
  height_eq : c.lastConsensusHeight = last.number
  max_mem : c.maxConsensus ∈ chainFrom anchor subDags
  lt : last.number < c.number
  le : c.number ≤ c.maxConsensus.number
  result_number : c.resultHeader.number + 1 = c.number
  lastParent_eq : c.lastParent = c.resultHeader.digest
  lt_result : ¬ OnChain anchor subDags c.resultHeader → last.number < c.resultHeader.number
  sent_result : OnChain anchor subDags c.resultHeader → ∀ g ∈ chainFrom anchor subDags,
    g.number ≤ c.resultHeader.number → ∃ x ∈ sent, x.digest = g.digest
  request : c.stage = .request → c.number < c.maxConsensus.number
  check : ∀ x gap, c.stage = .check x gap → x.number = c.number ∧
    (gap = true → c.number < c.maxConsensus.number) ∧
    (c.number = c.maxConsensus.number → x = c.maxConsensus)

structure Tracked (before : Nat) (sent : List ConsensusHeader) (n : CatchUpNode) : Prop where
  blocks : ∀ (k : Nat) (x : ConsensusHeader), anchor.number < k → n.blocks[k]? = some x →
    x ∈ chainFrom anchor subDags ∧ x.number = k
  cache : n.cache.Keyed
  latest : n.changed = true → n.latest ∈ chainFrom anchor subDags
  pending : ∀ target ∈ n.streamer.pendingCatchUpTarget, target ∈ chainFrom anchor subDags
  last : OnChain anchor subDags n.streamer.lastConsensusHeader
  sent_last : ∀ g ∈ chainFrom anchor subDags, g.number ≤ n.streamer.lastConsensusHeader.number →
    ∃ x ∈ sent, x.digest = g.digest
  catchUp : ∀ c ∈ n.streamer.catchUp,
    Attempting anchor subDags sent n.streamer.lastConsensusHeader c
  aimed : before < n.latest.number → n.changed = true ∨
    n.latest.number ≤ max (goal n.streamer) n.streamer.lastConsensusHeader.number

end

section
variable {cfg : SubscriberConfig} {anc : ConsensusHeader} {dags : List CommittedSubDag}
  {bef : Nat} {sent : List ConsensusHeader} {n : CatchUpNode} {c : CatchUp}
  {x last : ConsensusHeader}

section
variable (h : Attempting anc dags sent last c)
include h

theorem Attempting.mono (more : List ConsensusHeader) :
    Attempting anc dags (sent ++ more) last c := by
  refine { h with sent_result := fun hres g hg hle => ?_ }
  obtain ⟨y, hy, hdig⟩ := h.sent_result hres g hg hle
  exact ⟨y, mem_append_left more hy, hdig⟩

omit h in
theorem links_of_expectedDigest (hhash : Injective hash)
    (h : expectedDigest c x = x.digest) : x.parentHash = c.lastParent ∧ x.number = c.number := by
  obtain ⟨hpar, -, hnum⟩ := ConsensusHeader.eq_of_digest_eq hhash h
  exact ⟨hpar.symm, hnum.symm⟩

omit h in
theorem expectedDigest_of_links (hpar : x.parentHash = c.lastParent)
    (hnum : x.number = c.number) : expectedDigest c x = x.digest := by
  rw [expectedDigest, ← hpar, ← hnum]

theorem Attempting.sent_pass (hhash : Injective hash) (hlast : OnChain anc dags last)
    (hlnk : expectedDigest c x = x.digest) (hx : OnChain anc dags x) :
    ∀ g ∈ chainFrom anc dags, g.number ≤ x.number → ∃ y ∈ sent ++ [x], y.digest = g.digest := by
  intro g hg hle
  obtain ⟨hpar, hnum⟩ := links_of_expectedDigest hhash hlnk
  have hlt : anc.number < x.number := by
    have := hlast.base_le hhash
    have := h.lt
    omega
  have hres : OnChain anc dags c.resultHeader :=
    hx.of_parentHash hhash hlt (hpar.trans h.lastParent_eq)
  rcases lt_or_ge c.resultHeader.number g.number with hgt | hle'
  · have hsame : x.number = g.number := by
      have := h.result_number
      omega
    exact ⟨x, mem_append_right sent mem_cons_self, hx.digest_eq hhash (onChain_of_mem hg) hsame⟩
  · obtain ⟨y, hy, hdig⟩ := h.sent_result hres g hg hle'
    exact ⟨y, mem_append_left _ hy, hdig⟩

theorem Attempting.pass (hhash : Injective hash) (hlast : OnChain anc dags last)
    (hlnk : expectedDigest c x = x.digest) (hlt : c.number < c.maxConsensus.number) :
    Attempting anc dags (sent ++ [x]) last
      { c with
        number := c.number + 1, lastParent := x.digest, resultHeader := x, stage := .lookup } := by
  have hnum := (links_of_expectedDigest hhash hlnk).2
  exact { h with
    lt := Nat.lt_succ_of_lt h.lt
    le := hlt
    result_number := congrArg Nat.succ hnum
    lastParent_eq := rfl
    lt_result := fun _ => Nat.lt_of_lt_of_eq h.lt hnum.symm
    sent_result := h.sent_pass hhash hlast hlnk
    request := nofun
    check := nofun }

omit h in
theorem attempting_attempt {s : Streamer} {target : ConsensusHeader}
    (htgt : target ∈ chainFrom anc dags) (hlt : s.lastConsensusHeader.number < target.number)
    (hlast : OnChain anc dags s.lastConsensusHeader)
    (hsent : ∀ g ∈ chainFrom anc dags, g.number ≤ s.lastConsensusHeader.number →
      ∃ x ∈ sent, x.digest = g.digest) :
    ∀ c ∈ (s.attempt target).catchUp, Attempting anc dags sent s.lastConsensusHeader c := by
  rintro _ ⟨⟩
  exact {
    height_eq := rfl
    max_mem := htgt
    lt := Nat.lt_succ_self _
    le := hlt
    result_number := rfl
    lastParent_eq := rfl
    lt_result := fun hnot => absurd hlast hnot
    sent_result := fun _ => hsent
    request := nofun
    check := nofun }

theorem Attempting.withStage {stage : CatchUpStage}
    (hreq : stage = .request → c.number < c.maxConsensus.number)
    (hchk : ∀ x gap, stage = .check x gap → x.number = c.number ∧
      (gap = true → c.number < c.maxConsensus.number) ∧
      (c.number = c.maxConsensus.number → x = c.maxConsensus)) :
    Attempting anc dags sent last { c with stage } :=
  { h with request := hreq, check := hchk }

end

namespace Tracked

theorem withStage (h : Tracked anc dags bef sent n) (hc : c ∈ n.streamer.catchUp)
    {stage : CatchUpStage} (hstg : Attempting anc dags sent n.streamer.lastConsensusHeader
      { c with stage }) : Tracked anc dags bef sent (n.withStage c stage) := by
  refine { h with catchUp := ?_, aimed := fun hlt => ?_ }
  · rintro _ ⟨⟩
    exact hstg
  · have haimed := h.aimed hlt
    rw [goal_some hc] at haimed
    exact haimed

theorem number_of_row (h : Tracked anc dags bef sent n) {k : Nat} (hk : anc.number < k)
    (hrow : n.row k = some x) : x.number = k := by
  unfold row getConsensusByNumber at hrow
  cases hblk : n.blocks[k]? with
  | some y =>
    rw [hblk] at hrow
    cases hrow
    exact (h.blocks k x hk hblk).2
  | none =>
    rw [hblk] at hrow
    exact h.cache k x hrow

theorem anchor_lt (hhash : Injective hash)
    (h : Tracked anc dags bef sent n) (hc : c ∈ n.streamer.catchUp) : anc.number < c.number := by
  have := h.last.base_le hhash
  have := (h.catchUp c hc).lt
  omega

section
variable (h : Tracked anc dags bef sent n)
include h

section
variable (hc : c ∈ n.streamer.catchUp)
include hc

theorem early (hres : OnChain anc dags c.resultHeader) : Tracked anc dags bef sent
      { n with streamer := .caughtUp c.maxConsensus c.resultHeader } := by
  have hatt := h.catchUp c hc
  have hlt : c.resultHeader.number < c.maxConsensus.number := by
    have := hatt.result_number
    have := hatt.le
    omega
  refine ⟨h.blocks, h.cache, h.latest, ?_, hres, hatt.sent_result hres, nofun, fun hlst => ?_⟩
  · dsimp only [Streamer.caughtUp]
    rw [if_pos hlt]
    rintro _ ⟨⟩
    exact hatt.max_mem
  · have haimed := h.aimed hlst
    have hle := hatt.lt
    have hnum := hatt.result_number
    rw [goal_some hc] at haimed
    refine haimed.imp_right fun hlst => ?_
    rw [goal_none rfl]
    dsimp only [Streamer.caughtUp]
    rw [if_pos hlt]
    dsimp only [Option.map_some, Option.getD_some]
    omega

theorem failed {cache : ConsensusBlocks} (hcache : cache.Keyed) : Tracked anc dags bef sent
      { n with cache, streamer := n.streamer.failed c.maxConsensus } := by
  refine ⟨h.blocks, hcache, h.latest, ?_, h.last, h.sent_last, nofun, fun hlst => ?_⟩
  · rintro _ ⟨⟩
    exact (h.catchUp c hc).max_mem
  · have haimed := h.aimed hlst
    rw [goal_some hc] at haimed
    exact haimed

end

theorem append (more : List ConsensusHeader) : Tracked anc dags bef (sent ++ more) n := by
  refine { h with sent_last := fun g hg hle => ?_, catchUp := fun c hc => (h.catchUp c hc).mono more }
  obtain ⟨y, hy, hdig⟩ := h.sent_last g hg hle
  exact ⟨y, mem_append_left more hy, hdig⟩

theorem attempt (hx : x ∈ chainFrom anc dags)
    (hlt : n.streamer.lastConsensusHeader.number < x.number) (changed : Bool)
    (hchd : changed = true → n.changed = true)
    (haimed : bef < n.latest.number → changed = true ∨ n.latest.number ≤ x.number) :
    Tracked anc dags bef sent { n with changed, streamer := n.streamer.attempt x } := by
  refine { h with
    latest := fun hc => h.latest (hchd hc)
    catchUp := attempting_attempt hx hlt h.last h.sent_last
    aimed := fun hlst => ?_ }
  exact (haimed hlst).imp_right fun hle => le_trans hle (le_max_left _ _)

theorem save {e : SubscriberEffect} (he : e.header ∈ chainFrom anc dags) :
    Tracked anc dags bef sent (n.save e) := by
  cases e with
  | sent => exact h
  | saved x =>
    refine { h with blocks := fun k y hk hy => ?_, cache := h.cache.erase x.number }
    change (n.blocks.insert x.number x)[k]? = some y at hy
    rw [ExtTreeMap.getElem?_insert] at hy
    split at hy
    · next heq =>
      cases hy
      exact ⟨he, Nat.compare_eq_eq.mp heq⟩
    · exact h.blocks k y hk hy

theorem saveAll {es : List SubscriberEffect} (hes : ∀ e ∈ es, e.header ∈ chainFrom anc dags) :
    Tracked anc dags bef sent (es.foldl CatchUpNode.save n) := by
  exact foldlRecOn _ _ h fun n h e he => h.save (hes e he)

end

section
variable (hhash : Injective hash)
  (h : Tracked anc dags bef sent n)
include hhash h

theorem change {ev : CatchUpEvent} {fx : List CatchUpEffect} {n' : CatchUpNode}
    (hchg : Change cfg n ev fx n') (hev : Sound cfg anc dags n ev) :
    Tracked anc dags bef (sent ++ sentHeaders fx) n' := by
  have hpassed {x : ConsensusHeader} {gap : Bool} :
      ConsensusBlocks.Keyed (if gap then n.cache.insert x.number x else n.cache) := by
    split
    · exact h.cache.insert x
    · exact h.cache
  have still {n' : CatchUpNode} (h : Tracked anc dags bef sent n') :
      Tracked anc dags bef (sent ++ sentHeaders []) n' := h.append _
  cases hchg with
  | quiet => exact still h
  | published hlt =>
    exact still { h with latest := fun _ => hev, aimed := fun _ => .inl rfl }
  | walked x =>
    exact still { h with cache := h.cache.insert x }
  | seen hle =>
    refine still { h with latest := nofun, aimed := fun _ => ?_ }
    exact .inr (le_trans hle (le_max_right _ _))
  | dropped hidle htgt hle =>
    refine still { h with pending := nofun, aimed := fun hlst => ?_ }
    refine (h.aimed hlst).imp_right fun hlst => ?_
    rw [goal_none hidle, htgt, Option.map_some, Option.getD_some] at hlst
    dsimp only
    omega
  | noticed hidle hchd hlt =>
    refine still (h.attempt (h.latest hchd) hlt false nofun fun _ => ?_)
    omega
  | retried hidle htgt hlt =>
    refine still (h.attempt (h.pending _ htgt) hlt n.changed id fun hlst => ?_)
    refine (h.aimed hlst).imp_right fun hle => ?_
    rw [goal_none hidle, htgt, Option.map_some, Option.getD_some] at hle
    omega
  | aimed hc hstg hend =>
    refine still (h.withStage hc ((h.catchUp _ hc).withStage nofun ?_))
    rintro _ _ ⟨⟩
    exact ⟨hend.symm, nofun, fun _ => rfl⟩
  | found hc hstg hend hx =>
    refine still (h.withStage hc ((h.catchUp _ hc).withStage nofun ?_))
    rintro _ _ ⟨⟩
    exact ⟨h.number_of_row (h.anchor_lt hhash hc) hx, nofun, fun heq => absurd heq hend⟩
  | missing hc hstg hend =>
    refine still (h.withStage hc ((h.catchUp _ hc).withStage (fun _ => ?_) nofun))
    exact lt_of_le_of_ne (h.catchUp _ hc).le hend
  | answered hc hstg hx =>
    have hlt := (h.catchUp _ hc).request hstg
    refine still (h.withStage hc ((h.catchUp _ hc).withStage nofun ?_))
    rintro _ _ ⟨⟩
    exact ⟨number_of_requestConsensus hx, fun _ => hlt, fun heq => absurd heq (ne_of_lt hlt)⟩
  | unanswered hc hstg hnone => exact still (h.early hc (hev _ hc hstg hnone))
  | closed exec hc hstg hcls =>
    refine still (h.early hc (hev _ hc _ ?_ hcls))
    rw [hstg]
    rfl
  | mismatched exec hc =>
    refine still (h.failed hc ?_)
    split
    · exact h.cache.erase _
    · exact h.cache
  | late hc => exact still (h.failed hc hpassed)
  | @reached c x gap hc hstg hlnk hend =>
    have hatt := h.catchUp c hc
    obtain rfl := (hatt.check x gap hstg).2.2 hend
    have hx := onChain_of_mem hatt.max_mem
    refine ⟨h.blocks, hpassed, h.latest, ?_, hx,
      hatt.sent_pass hhash h.last hlnk hx, nofun, fun hlst => ?_⟩
    · dsimp only [Streamer.caughtUp]
      rw [if_neg (lt_irrefl _)]
      nofun
    · have haimed := h.aimed hlst
      have hlt := hatt.lt
      rw [goal_some hc] at haimed
      refine haimed.imp_right fun hlst => ?_
      dsimp only [Streamer.caughtUp]
      omega
  | @passed c x gap hc hstg hlnk hend =>
    have hatt := h.catchUp c hc
    refine ⟨h.blocks, hpassed, h.latest, h.pending, h.last, (h.append _).sent_last, ?_,
      fun hlst => ?_⟩
    · rintro _ ⟨⟩
      exact hatt.pass hhash h.last hlnk (lt_of_le_of_ne hatt.le hend)
    · have haimed := h.aimed hlst
      rw [goal_some hc] at haimed
      exact haimed
  | received keys hf hchan =>
    exact still { h with }
  | @delivered f sends hf =>
    have hall := (h.saveAll (hev f hf)).append (sentHeaders ((f.deliver cfg sends).1.map .output))
    exact { hall with }

theorem run {evs : List CatchUpEvent}
    (hevs : Reactor.Always (CatchUpNode.step cfg) (Sound cfg anc dags) n evs) :
    Tracked anc dags bef (sent ++ sentHeaders (n.run cfg evs).1) (n.run cfg evs).2 := by
  refine Reactor.run_history_of (Q := fun fx n => Tracked anc dags bef (sent ++ sentHeaders fx) n)
    (fun fx n ev h hev => ?_) (h.append (sentHeaders [])) hevs
  rw [sentHeaders, filterMap_append, ← append_assoc]
  exact h.change hhash (change_step cfg n ev) hev

end

theorem start {bs cache : ConsensusBlocks} {latest : ConsensusHeader}
    (hbs : ∀ (k : Nat) (x : ConsensusHeader), anc.number < k → bs[k]? = some x →
      x ∈ chainFrom anc dags ∧ x.number = k) (hcache : cache.Keyed) :
    Tracked anc dags latest.number [] (CatchUpNode.start cfg bs cache latest anc) := by
  refine ⟨hbs, hcache, nofun, nofun, onChain_base, fun g hg hle => ?_, nofun,
    fun hlt => absurd hlt (lt_irrefl _)⟩
  obtain ⟨i, hi⟩ := mem_iff_getElem?.mp hg
  have hnum : g.number = anc.number + (i + 1) := number_chainFrom (k := i + 1) hi
  have hle : g.number ≤ anc.number := hle
  omega

end Tracked

end

section
variable (cfg : SubscriberConfig) (n : CatchUpNode)

theorem latest_le_step (ev : CatchUpEvent) : n.latest.number ≤ (n.step cfg ev).2.latest.number := by
  have hchg := change_step cfg n ev
  generalize n.step cfg ev = res at hchg ⊢
  obtain ⟨fx, n'⟩ := res
  cases hchg with
  | published hlt => exact le_of_lt hlt
  | delivered sends hf =>
    rw [latest_saveAll]
  | _ => exact le_refl _

theorem latest_le_run (evs : List CatchUpEvent) :
    n.latest.number ≤ (n.run cfg evs).2.latest.number := by
  induction evs generalizing n with
  | nil => exact le_refl _
  | cons ev evs ih => exact le_trans (latest_le_step cfg n ev) (ih _)

theorem number_le_latest {evs : List CatchUpEvent} {x : ConsensusHeader}
    (hx : CatchUpEvent.publish x ∈ evs) : x.number ≤ (n.run cfg evs).2.latest.number := by
  induction evs generalizing n with
  | nil => cases hx
  | cons ev evs ih =>
    rcases mem_cons.mp hx with rfl | hx
    · refine le_trans ?_ (latest_le_run cfg (n.step cfg (.publish x)).2 evs)
      dsimp only [step]
      split
      · exact le_refl _
      · next hle => exact Nat.le_of_not_lt hle
    · exact ih _ hx

end

end

end CatchUpNode

end Axyl
