import Axyl.StateSync.CatchUp

/-! What a node commits when it follows the chain. The streamer sends a header before anything above
it is known, so the checks of the subscriber decide: they let a header pass that carries a later
sub-dag of the chain, and nothing else but the header of the chain itself. -/

namespace Axyl
open List CatchUpEffect
open Std (ExtTreeMap)

namespace CatchUpNode

section
variable [HashFunction]

section
variable (cfg : SubscriberConfig) (anchor : ConsensusHeader) (subDags : List CommittedSubDag)
  (first : Nat)

/-- The position behind which the subscriber takes the header of the number: that of the header of
the chain below it, or of the executed anchor for the first header. -/
def positionBelow (number : Nat) : Position :=
  if number = first + 1 then anchor.position
  else ((anchor :: chainFrom anchor subDags)[number - 1 - anchor.number]?.getD anchor).position

def PassesChecks (header : ConsensusHeader) : Prop :=
  header.subDag.leaderEpoch = cfg.epoch ∧ first < header.number ∧ cfg.verifies header = true ∧
    positionBelow anchor subDags first header.number < header.position

instance decidablePassesChecks (header : ConsensusHeader) :
    Decidable (PassesChecks cfg anchor subDags first header) :=
  inferInstanceAs (Decidable (_ ∧ _ ∧ _ ∧ _))

/-- A header that is not of the chain links to what the streamer has sent and passes the checks. -/
def Misplaced (c : CatchUp) (header : ConsensusHeader) : Prop :=
  expectedDigest c header = header.digest ∧ PassesChecks cfg anchor subDags first header ∧
    header ∉ chainFrom anchor subDags

instance decidableMisplaced (c : CatchUp) (header : ConsensusHeader) :
    Decidable (Misplaced cfg anchor subDags first c header) :=
  inferInstanceAs (Decidable (_ ∧ _ ∧ _))

/-- The target is a header of the chain, and no row of the cache and no answer of a peer that the
streamer takes is misplaced. -/
def WellPlaced (n : CatchUpNode) : CatchUpEvent → Prop
  | .publish header => header ∈ chainFrom anchor subDags
  | .lookup =>
    ∀ c ∈ n.streamer.catchUp, c.stage = .lookup → ∀ header ∈ n.cache[c.number]?,
      n.blocks[c.number]? = none → ¬ Misplaced cfg anchor subDags first c header
  | .reply answers =>
    ∀ c ∈ n.streamer.catchUp, c.stage = .request → ∀ header ∈ requestConsensus c.number answers,
      ¬ Misplaced cfg anchor subDags first c header
  | _ => True

instance decidableWellPlaced (n : CatchUpNode) :
    (event : CatchUpEvent) → Decidable (WellPlaced cfg anchor subDags first n event)
  | .publish _ => inferInstanceAs (Decidable (_ ∈ _))
  | .lookup | .reply _ => inferInstanceAs (Decidable (∀ _ ∈ n.streamer.catchUp, _ → ∀ _ ∈ _, _))
  | .walk _ | .changed | .retry | .forward _ | .receive _ | .deliver _ => isTrue trivial

structure SafeCatchUp (c : CatchUp) : Prop where
  max_mem : c.maxConsensus ∈ chainFrom anchor subDags
  check : ∀ header gap, c.stage = .check header gap →
    ¬ Misplaced cfg anchor subDags first c header

structure SafeFollower (f : Follower) : Prop where
  first_le : first ≤ f.lastProcessedNumber
  position_eq : f.acceptedPosition = positionBelow anchor subDags first (f.lastProcessedNumber + 1)
  waiting_mem : ∀ x ∈ f.waiting, x ∈ chainFrom anchor subDags

structure Safe (n : CatchUpNode) : Prop where
  blocks : ∀ (k : Nat) (x : ConsensusHeader), n.blocks[k]? = some x →
    x.number ≤ first ∨ x ∈ chainFrom anchor subDags
  latest : n.changed = true → n.latest ∈ chainFrom anchor subDags
  pending : ∀ target ∈ n.streamer.pendingCatchUpTarget, target ∈ chainFrom anchor subDags
  catchUp : ∀ c ∈ n.streamer.catchUp, SafeCatchUp cfg anchor subDags first c
  channel : ∀ x ∈ n.channel, PassesChecks cfg anchor subDags first x → x ∈ chainFrom anchor subDags
  follower : ∀ f ∈ n.follower, SafeFollower anchor subDags first f

end

section
variable {cfg : SubscriberConfig} {anc : ConsensusHeader} {subDags : List CommittedSubDag}
  {first : Nat} {n : CatchUpNode} {c : CatchUp}
  {x : ConsensusHeader} {f : Follower}

theorem not_misplaced_of_mem (h : x.number ≤ first ∨ x ∈ chainFrom anc subDags) :
    ¬ Misplaced cfg anc subDags first c x := by
  rintro ⟨-, ⟨-, hlt, -⟩, hnot⟩
  rcases h with h | h
  · omega
  · exact hnot h

theorem positionBelow_succ (hx : x ∈ chainFrom anc subDags) (hfst : first < x.number) :
    positionBelow anc subDags first (x.number + 1) = x.position := by
  obtain ⟨i, hi⟩ := mem_iff_getElem?.mp hx
  have hnum : x.number = anc.number + (i + 1) := number_chainFrom (k := i + 1) hi
  have hidx : x.number + 1 - 1 - anc.number = i + 1 := by omega
  rw [positionBelow, if_neg (by omega), hidx, List.getElem?_cons_succ, hi]
  rfl

theorem SafeFollower.receive (h : SafeFollower anc subDags first f)
    (hx : PassesChecks cfg anc subDags first x → x ∈ chainFrom anc subDags) (keys : Bool) :
    SafeFollower anc subDags first (f.receive cfg keys x) := by
  rcases f.receive_cases cfg keys x with hsame | ⟨hep, hnum, hverifies, hlt, htk⟩
  · rw [hsame]
    exact h
  · have hfst : first < x.number := by
      have := h.first_le
      omega
    rw [h.position_eq, ← hnum] at hlt
    have hmem := hx ⟨hep, hfst, hverifies, hlt⟩
    rw [htk]
    refine ⟨le_of_lt hfst, (positionBelow_succ hmem hfst).symm, ?_⟩
    exact forall_mem_append.mpr ⟨h.waiting_mem, forall_mem_singleton.mpr hmem⟩

theorem SafeFollower.deliver (h : SafeFollower anc subDags first f) (sends : Bool) :
    SafeFollower anc subDags first (f.deliver cfg sends).2 := by
  obtain ⟨-, hwait, hnum, hpos⟩ := f.deliver_cases cfg sends
  refine ⟨?_, ?_, fun y hy => h.waiting_mem y (hwait y hy)⟩
  · rw [hnum]
    exact h.first_le
  · rw [hnum, hpos]
    exact h.position_eq

namespace Safe

section
variable (h : Safe cfg anc subDags first n)
include h

theorem withStage {stage : CatchUpStage} (hc : SafeCatchUp cfg anc subDags first { c with stage }) :
    Safe cfg anc subDags first (n.withStage c stage) := by
  refine { h with catchUp := ?_ }
  rintro _ ⟨⟩
  exact hc

section
variable (hc : SafeCatchUp cfg anc subDags first c)
include hc

theorem caughtUp (res : ConsensusHeader) :
    Safe cfg anc subDags first { n with streamer := .caughtUp c.maxConsensus res } := by
  refine { h with pending := fun target htgt => ?_, catchUp := nofun }
  dsimp only [Streamer.caughtUp] at htgt
  split at htgt
  · cases htgt
    exact hc.max_mem
  · cases htgt

theorem failed (cache : ConsensusBlocks) : Safe cfg anc subDags first
      { n with cache, streamer := n.streamer.failed c.maxConsensus } := by
  refine { h with pending := fun target htgt => ?_, catchUp := nofun }
  cases htgt
  exact hc.max_mem

end

theorem attempt (hx : x ∈ chainFrom anc subDags) (changed : Bool)
    (hchd : changed = true → n.changed = true) :
    Safe cfg anc subDags first { n with changed, streamer := n.streamer.attempt x } := by
  refine { h with latest := fun hc => h.latest (hchd hc), catchUp := ?_ }
  rintro _ ⟨⟩
  exact ⟨hx, nofun⟩

theorem save {e : SubscriberEffect} (he : e.header ∈ chainFrom anc subDags) :
    Safe cfg anc subDags first (n.save e) := by
  cases e with
  | sent => exact h
  | saved x =>
    refine { h with blocks := fun k y hy => ?_ }
    change (n.blocks.insert x.number x)[k]? = some y at hy
    rw [ExtTreeMap.getElem?_insert] at hy
    split at hy
    · cases hy
      exact .inr he
    · exact h.blocks k y hy

theorem saveAll {es : List SubscriberEffect} (hes : ∀ e ∈ es, e.header ∈ chainFrom anc subDags) :
    Safe cfg anc subDags first (es.foldl CatchUpNode.save n) := by
  exact foldlRecOn _ _ h fun n h e he => h.save (hes e he)

theorem change {ev : CatchUpEvent} {fx : List CatchUpEffect} {n' : CatchUpNode}
    (hchg : Change cfg n ev fx n') (hev : WellPlaced cfg anc subDags first n ev) :
    Safe cfg anc subDags first n' ∧ ∀ e, output e ∈ fx → e.header ∈ chainFrom anc subDags := by
  have hsent {c : CatchUp} {x : ConsensusHeader} {gap : Bool} (hc : n.streamer.catchUp = some c)
      (hstg : c.stage = .check x gap) (hlnk : expectedDigest c x = x.digest)
      (cache : ConsensusBlocks) :
      Safe cfg anc subDags first { n with cache, channel := n.channel ++ [x] } := by
    refine { h with channel := fun y hy hchecks => ?_ }
    rcases mem_append.mp hy with hy | hy
    · exact h.channel y hy hchecks
    · cases mem_singleton.mp hy
      by_contra hnot
      exact (h.catchUp c hc).check x gap hstg ⟨hlnk, hchecks, hnot⟩
  cases hchg with
  | quiet => exact ⟨h, nofun⟩
  | published =>
    exact ⟨{ h with latest := fun _ => hev }, nofun⟩
  | walked => exact ⟨{ h with }, nofun⟩
  | seen => exact ⟨{ h with latest := nofun }, nofun⟩
  | dropped => exact ⟨{ h with pending := nofun }, nofun⟩
  | noticed hidle hchd => exact ⟨h.attempt (h.latest hchd) false nofun, nofun⟩
  | retried hidle htgt => exact ⟨h.attempt (h.pending _ htgt) n.changed id, nofun⟩
  | aimed hc =>
    have hmax := (h.catchUp _ hc).max_mem
    refine ⟨h.withStage ⟨hmax, ?_⟩, nofun⟩
    rintro _ _ ⟨⟩
    exact not_misplaced_of_mem (.inr hmax)
  | @found c x hc hstg hend hx =>
    refine ⟨h.withStage ⟨(h.catchUp _ hc).max_mem, ?_⟩, nofun⟩
    rintro _ _ ⟨⟩
    unfold row getConsensusByNumber at hx
    cases hblk : n.blocks[c.number]? with
    | some y =>
      rw [hblk] at hx
      cases hx
      exact not_misplaced_of_mem (h.blocks _ x hblk)
    | none =>
      rw [hblk] at hx
      exact hev c hc hstg x hx hblk
  | missing hc => exact ⟨h.withStage ⟨(h.catchUp _ hc).max_mem, nofun⟩, nofun⟩
  | answered hc hstg hx =>
    refine ⟨h.withStage ⟨(h.catchUp _ hc).max_mem, ?_⟩, nofun⟩
    rintro _ _ ⟨⟩
    exact hev _ hc hstg _ hx
  | unanswered hc | closed _ hc => exact ⟨h.caughtUp (h.catchUp _ hc) _, nofun⟩
  | mismatched _ hc | late hc => exact ⟨h.failed (h.catchUp _ hc) _, nofun⟩
  | reached hc hstg hlnk =>
    exact ⟨(hsent hc hstg hlnk _).caughtUp (h.catchUp _ hc) _, by simp⟩
  | passed hc hstg hlnk =>
    refine ⟨(hsent hc hstg hlnk _).withStage ⟨(h.catchUp _ hc).max_mem, ?_⟩, by simp⟩
    rintro _ _ ⟨⟩
  | received keys hf hchan =>
    have hall := h.channel
    rw [hchan] at hall
    obtain ⟨hx, hrest⟩ := forall_mem_cons.mp hall
    refine ⟨{ h with channel := hrest, follower := ?_ }, nofun⟩
    rintro _ ⟨⟩
    exact (h.follower _ hf).receive hx keys
  | @delivered f sends hf =>
    have hfollower := h.follower f hf
    have heffs : ∀ e ∈ (f.deliver cfg sends).1, e.header ∈ chainFrom anc subDags := by
      intro e he
      exact hfollower.waiting_mem _ ((f.deliver_cases cfg sends).1 e he)
    have hsv := h.saveAll heffs
    refine ⟨{ hsv with follower := ?_ }, ?_⟩
    · intro f' hf'
      split at hf'
      · cases hf'
      · cases hf'
        exact hfollower.deliver sends
    · intro e he
      obtain ⟨e', he', heq⟩ := mem_map.mp he
      cases heq
      exact heffs e he'

end

theorem start {bs cache : ConsensusBlocks} {latest : ConsensusHeader}
    (hbs : ∀ (k : Nat) (x : ConsensusHeader), bs[k]? = some x →
      x.number ≤ anc.number ∨ x ∈ chainFrom anc subDags)
    (hmiss : ∀ x ∈ getMissingConsensus bs cache cfg.epoch anc, x ∈ chainFrom anc subDags) :
    Safe cfg anc subDags (Follower.start cfg bs cache anc).lastProcessedNumber
      (CatchUpNode.start cfg bs cache latest anc) := by
  have hfst : anc.number ≤ (Follower.start cfg bs cache anc).lastProcessedNumber := by
    dsimp only [Follower.start]
    split
    · next hzero =>
      rw [hzero]
      omega
    · omega
  refine ⟨fun k x hx => ?_, nofun, nofun, nofun, fun x hx _ => hmiss x hx, ?_⟩
  · rcases hbs k x hx with hle | hmem
    · omega
    · exact .inr hmem
  · rintro _ ⟨⟩
    refine ⟨le_refl _, ?_, nofun⟩
    rw [positionBelow, if_pos rfl]
    rfl

end Safe

end

/-- Every output that a following node saves or sends to the engine is that of the chain. -/
theorem committed_mem_chain (cfg : SubscriberConfig) (anchor latest : ConsensusHeader)
    (subDags : List CommittedSubDag) (blocks cache : ConsensusBlocks) (events : List CatchUpEvent)
    (hblocks : ∀ (k : Nat) (x : ConsensusHeader), blocks[k]? = some x →
      x.number ≤ anchor.number ∨ x ∈ chainFrom anchor subDags)
    (hmissing : ∀ x ∈ getMissingConsensus blocks cache cfg.epoch anchor,
      x ∈ chainFrom anchor subDags) (hevents : Reactor.Always (step cfg)
      (WellPlaced cfg anchor subDags (Follower.start cfg blocks cache anchor).lastProcessedNumber)
      (start cfg blocks cache latest anchor) events) :
    ∀ e, output e ∈ (run cfg (start cfg blocks cache latest anchor) events).1 →
      e.header ∈ chainFrom anchor subDags := by
  generalize hfirst : (Follower.start cfg blocks cache anchor).lastProcessedNumber = first at hevents
  intro e he
  refine Reactor.run_effects_of (I := Safe cfg anchor subDags first)
    (R := fun x => ∀ e, x = output e → e.header ∈ chainFrom anchor subDags)
    (fun n event h hevent => ?_) (hfirst ▸ Safe.start hblocks hmissing) hevents _ he e rfl
  obtain ⟨hsafe, heffects⟩ := h.change (change_step cfg n event) hevent
  exact ⟨hsafe, fun x hx e heq => heffects e (heq ▸ hx)⟩

end

section
variable [HashFunction]

def replaysExecuted : List CatchUpEvent :=
  [.publish (ahead 2), .changed, .lookup,
    .reply [.other, .header ⟨executedFive.digest, ofRound 2, 6⟩], .forward true, .receive true,
    .lookup, .reply [.header (ahead 1)], .forward true,
    .retry, .lookup, .reply [.header (ahead 0)], .forward true, .receive true, .deliver true]

def movesSeven : List CatchUpEvent :=
  [.publish (ahead 2), .changed, .lookup,
    .reply [.header ⟨executedFive.digest, ofRound 6, 6⟩], .forward true, .receive true, .deliver true]

end

/-- The sub-dag of the anchor comes again under the next number; the subscriber drops it. -/
theorem committed_mem_chain_replayed :
    letI : HashFunction := .polynomial
    let effects := (run epochOne (start epochOne ∅ ∅ .default executedFive) replaysExecuted).1
    output (.sent (ahead 0)) ∈ effects ∧
      ∀ e, output e ∈ effects → e.header ∈ chainFrom executedFive threeAhead :=
  ⟨by decide +kernel, @committed_mem_chain .polynomial epochOne executedFive .default threeAhead ∅ ∅ _
    (fun _ _ hx => nomatch ExtTreeMap.getElem?_empty.symm.trans hx) (by decide +kernel)
    (by decide +kernel)⟩

theorem moved_header_committed :
    letI : HashFunction := .polynomial
    let moved : ConsensusHeader := ⟨executedFive.digest, ofRound 6, 6⟩
    let effects := (run epochOne (start epochOne ∅ ∅ .default executedFive) movesSeven).1
    moved ∉ chainFrom executedFive threeAhead ∧
      output (.saved moved) ∈ effects ∧
      output (.sent moved) ∈ effects := by
  decide +kernel

end CatchUpNode

end Axyl
