import Axyl.Subscriber.Live
import Mathlib.Data.List.TakeDrop

/-! The cut of an epoch over the lifetimes of its subscribers: what is saved of the epoch is the
chain up to the first output that reaches the boundary. -/

namespace Axyl
open List EpochNode SubscriberEffect
open Std (ExtTreeMap)

def upToBoundary (epochBoundary : Nat) : List ConsensusHeader → List ConsensusHeader
  | [] => []
  | header :: headers =>
    if header.subDag.reachesEpochBoundary epochBoundary then [header]
    else header :: upToBoundary epochBoundary headers

def Below (epochBoundary : Nat) (headers : List ConsensusHeader) : Prop :=
  ∀ x ∈ headers, x.subDag.reachesEpochBoundary epochBoundary = false

section
variable {b c m next : Nat} {l l' waiting : List ConsensusHeader} {header : ConsensusHeader}
  {cut : EpochCut}

theorem upToBoundary_append (h : Below b l) : upToBoundary b (l ++ l') = l ++ upToBoundary b l' := by
  induction l with
  | nil => rfl
  | cons x l ih =>
    obtain ⟨hx, hl⟩ := forall_mem_cons.mp h
    rw [cons_append, upToBoundary, if_neg (Bool.eq_false_iff.mp hx), ih hl, cons_append]

theorem upToBoundary_initial (b : Nat) (l : List ConsensusHeader) : upToBoundary b l <+: l := by
  induction l with
  | nil => exact prefix_rfl
  | cons x l ih =>
    unfold upToBoundary
    split
    · exact ⟨l, rfl⟩
    · exact cons_prefix_cons.mpr ⟨rfl, ih⟩

theorem lt_length_upToBoundary (h : Below b (l.take c)) (hc : l[c]? = some header) :
    c < (upToBoundary b l).length := by
  have hlen := (List.getElem?_eq_some_iff.mp hc).1
  have hspl : l = l.take c ++ header :: l.drop (c + 1) := by
    rw [← (List.getElem?_eq_some_iff.mp hc).2, ← drop_eq_getElem_cons hlen, take_append_drop]
  have hcut : upToBoundary b l = l.take c ++ upToBoundary b (header :: l.drop (c + 1)) := by
    conv_lhs => rw [hspl]
    exact upToBoundary_append h
  rw [hcut, length_append, length_take, Nat.min_eq_left (by omega), upToBoundary]
  split
  · simp
  · simp

theorem length_upToBoundary_le (hmem : header ∈ (upToBoundary b l).take m)
    (hrchs : header.subDag.reachesEpochBoundary b = true) : (upToBoundary b l).length ≤ m := by
  induction l generalizing m with
  | nil => exact Nat.zero_le m
  | cons x l ih =>
    cases m with
    | zero => cases hmem
    | succ m =>
      unfold upToBoundary at hmem ⊢
      split at hmem
      · next hx =>
        rw [if_pos hx]
        exact Nat.succ_le_succ (Nat.zero_le m)
      · next hx =>
        rw [if_neg hx]
        rcases mem_cons.mp hmem with rfl | hmem
        · exact absurd hrchs hx
        · exact Nat.succ_le_succ (ih hmem)

/-- A subscriber behind `m` saved headers of the chain `l`: it has handled the first `c` and taken
the first `next`. -/
structure Committing (b : Nat) (l : List ConsensusHeader) (m c next : Nat)
    (waiting : List ConsensusHeader) (cut : EpochCut) : Prop where
  waiting_eq : waiting = (l.take next).drop c
  le : c ≤ next
  opened : cut.crossed = false → c ≤ m ∧ Below b (l.take c)

theorem Committing.getElem? (h : Committing b l m c next (header :: waiting) cut) :
    l[c]? = some header ∧ waiting = (l.take next).drop (c + 1) ∧ c < next := by
  have hfst : ((l.take next).drop c)[0]? = some header := by rw [← h.waiting_eq]; rfl
  have hrest : waiting = ((l.take next).drop c).tail := by rw [← h.waiting_eq]; rfl
  rw [List.getElem?_drop, List.getElem?_take] at hfst
  split at hfst
  · next hlt => exact ⟨hfst, by rw [hrest, tail_drop], hlt⟩
  · cases hfst

theorem Committing.commit (h : Committing b l m c next (header :: waiting) cut) (sends : Bool) :
    let r := cut.commit b sends header
    (r.1 = [] ∧ Committing b l m (c + 1) next waiting r.2) ∨
      (r.1 = .saved header :: (if sends then [.sent header] else []) ∧ c ≤ m ∧
        c < (upToBoundary b l).length ∧ Committing b l (max m (c + 1)) (c + 1) next waiting r.2) := by
  obtain ⟨hget, hwait, hlt⟩ := h.getElem?
  intro r
  have hr : r = cut.commit b sends header := rfl
  unfold EpochCut.commit EpochCut.classify at hr
  cases hcros : cut.crossed with
  | true =>
    simp only [hcros, if_true] at hr
    rw [hr]
    refine .inl ⟨rfl, hwait, hlt, fun hopen => ?_⟩
    exact absurd (hcros.symm.trans hopen) nofun
  | false =>
    obtain ⟨hcm, hbel⟩ := h.opened hcros
    have hcut := lt_length_upToBoundary hbel hget
    cases hrchs : header.subDag.reachesEpochBoundary b with
    | true =>
      simp only [hcros, hrchs, if_true, Bool.false_eq_true, if_false] at hr
      rw [hr]
      exact .inr ⟨rfl, hcm, hcut, hwait, hlt, nofun⟩
    | false =>
      simp only [hcros, hrchs, Bool.false_eq_true, if_false] at hr
      rw [hr]
      refine .inr ⟨rfl, hcm, hcut, hwait, hlt, fun _ => ⟨le_max_right _ _, fun x hx => ?_⟩⟩
      rw [take_add_one, hget, mem_append] at hx
      rcases hx with hx | hx
      · exact hbel x hx
      · rw [mem_singleton.mp hx]
        exact hrchs

theorem Committing.take (h : Committing b l m c next waiting cut) (hget : l[next]? = some header) :
    Committing b l m c (next + 1) (waiting ++ [header]) cut := by
  have hlen := (List.getElem?_eq_some_iff.mp hget).1
  refine ⟨?_, Nat.le_succ_of_le h.le, h.opened⟩
  rw [take_add_one, hget, h.waiting_eq, drop_append_of_le_length]
  · rfl
  · rw [length_take, Nat.min_eq_left (by omega)]
    exact h.le

theorem committing_nil (hc : c ≤ m) (hbel : Below b (l.take c)) :
    Committing b l m c c [] .default := by
  refine ⟨?_, le_refl c, fun _ => ⟨hc, hbel⟩⟩
  rw [drop_eq_nil_of_le]
  rw [length_take]
  omega

end

structure EpochStart (cfg : SubscriberConfig) (history : EpochHistory) (blocks : ConsensusBlocks) :
    Prop where
  keyed : blocks.Keyed
  base_eq : history.base = blocks.headers.getLast?.getD .default
  older : ∀ x ∈ blocks.headers, x.subDag.leaderEpoch < cfg.epoch
  epoch_eq : ∀ d ∈ history.subDags, d.leaderEpoch = cfg.epoch
  checkpoint : ∀ checkpoint, cfg.certifiedCheckpoint = some checkpoint →
    history.base.number ≤ checkpoint

theorem EpochStart.number_le {cfg : SubscriberConfig} {history : EpochHistory}
    {blocks : ConsensusBlocks} {x : ConsensusHeader} (h : EpochStart cfg history blocks)
    (hx : x ∈ blocks.headers) : x.number ≤ history.base.number := by
  have hpair := h.keyed.pairwise_headers
  rw [h.base_eq]
  rcases eq_nil_or_concat blocks.headers with hnil | ⟨init, last, hlast⟩
  · rw [hnil] at hx
    cases hx
  · rw [hlast, concat_eq_append] at hpair hx ⊢
    rw [List.getLast?_concat, Option.getD_some]
    rcases mem_append.mp hx with hx | hx
    · exact le_of_lt ((pairwise_append.mp hpair).2.2 x hx last mem_cons_self)
    · rw [mem_singleton.mp hx]

theorem EpochNode.save_saved (n : EpochNode) (sends : Bool) (header : ConsensusHeader) :
    n.save (.saved header :: if sends then [.sent header] else []) =
      n.blocks.insert header.number header := by
  cases sends <;> rfl

section
variable [HashFunction]

namespace EpochNode

variable (cfg : SubscriberConfig) (history : EpochHistory)

/-- A subscriber that starts when an output of the epoch that reaches the boundary is saved will
take that output again. -/
def MeetsBoundaryAgain (n : EpochNode) : EpochEvent → Prop
  | .start follow executedNumber =>
    ∀ x ∈ n.blocks.headers, x.subDag.leaderEpoch = cfg.epoch →
      x.subDag.reachesEpochBoundary cfg.epochBoundary = true →
      follow = true ∧ (n.executedAnchor history executedNumber).number ≠ 0 ∧
        (n.executedAnchor history executedNumber).number < x.number
  | _ => True

instance decidableMeetsBoundaryAgain (n : EpochNode) :
    (event : EpochEvent) → Decidable (MeetsBoundaryAgain cfg history n event)
  | .start _ _ => inferInstanceAs (Decidable (∀ _ ∈ n.blocks.headers, _ → _ → _))
  | .replay | .subDag | .header _ _ | .deliver _ | .drain | .stop => isTrue trivial

def kept : List ConsensusHeader := upToBoundary cfg.epochBoundary history.chain

def Follows (m : Nat) : Subscriber → Prop
  | .stopped => True
  | .replaying missing =>
    Below cfg.epochBoundary (history.chain.take m) ∧ ∀ x ∈ missing, x ∈ history.chain.take m
  | .live l =>
    ∃ c prev, Committing cfg.epochBoundary history.chain m c l.sequenced l.waiting l.epochCut ∧
      (history.base :: history.chain)[l.sequenced]? = some prev ∧
      l.lastParent = prev.digest ∧ l.lastNumber = prev.number
  | .following f =>
    ∃ c p, Committing cfg.epochBoundary history.chain m c p f.waiting f.epochCut ∧
      f.lastProcessedNumber = history.base.number + p

/-- The first `m` headers of the epoch are saved behind the older ones. -/
structure Holds (cfg : SubscriberConfig) (history : EpochHistory) (old : List ConsensusHeader)
    (m : Nat) (blocks : ConsensusBlocks) : Prop where
  keyed : blocks.Keyed
  headers_eq : blocks.headers = old ++ history.chain.take m
  le : m ≤ (kept cfg history).length

structure Cut (cfg : SubscriberConfig) (history : EpochHistory) (old : List ConsensusHeader)
    (effects : List SubscriberEffect) (n : EpochNode) : Prop where
  holds : ∃ m, Holds cfg history old m n.blocks ∧ Follows cfg history m n.subscriber
  effects_mem : ∀ e ∈ effects, e.header ∈ kept cfg history

section
variable {cfg : SubscriberConfig} {history : EpochHistory} {old : List ConsensusHeader} {a c m : Nat}
  {blocks : ConsensusBlocks} {header x : ConsensusHeader}

theorem number_of_getElem? (h : history.chain[c]? = some x) :
    x.number = history.base.number + (c + 1) :=
  number_chainFrom (k := c + 1) h

theorem number_of_mem_drop (h : x ∈ (history.chain.take m).drop a) :
    history.base.number + a < x.number ∧ x.number ≤ history.base.number + m := by
  obtain ⟨i, hi⟩ := mem_iff_getElem?.mp h
  rw [List.getElem?_drop, List.getElem?_take] at hi
  split at hi
  · have := number_of_getElem? hi
    omega
  · cases hi

theorem number_of_mem_take (h : x ∈ history.chain.take m) :
    history.base.number < x.number ∧ x.number ≤ history.base.number + m :=
  number_of_mem_drop (a := 0) h

theorem take_chain (h : m ≤ (kept cfg history).length) :
    history.chain.take m = (kept cfg history).take m := by
  obtain ⟨rest, hrest⟩ := upToBoundary_initial cfg.epochBoundary history.chain
  rw [← hrest]
  exact take_append_of_le_length h

theorem mem_kept_of_getElem? (hc : c < (kept cfg history).length)
    (hget : history.chain[c]? = some x) : x ∈ kept cfg history := by
  obtain ⟨rest, hrest⟩ := upToBoundary_initial cfg.epochBoundary history.chain
  rw [← hrest] at hget
  exact mem_of_getElem? ((List.getElem?_append_left hc).symm.trans hget)

namespace Holds

section
variable (h : Holds cfg history old m blocks)
include h

theorem mem_kept (hx : x ∈ history.chain.take m) : x ∈ kept cfg history := by
  rw [take_chain h.le] at hx
  exact mem_of_mem_take hx

section
variable (hold : ∀ x ∈ old, x.number ≤ history.base.number)
include hold

theorem insert (hcm : c ≤ m)
    (hc : c < (kept cfg history).length) (hget : history.chain[c]? = some header) :
    Holds cfg history old (max m (c + 1)) (blocks.insert header.number header) := by
  refine ⟨h.keyed.insert header, ?_, Nat.max_le.mpr ⟨h.le, hc⟩⟩
  rcases Nat.lt_or_eq_of_le hcm with hlt | rfl
  · have hmem : header ∈ blocks.headers := by
      rw [h.headers_eq, mem_append]
      exact .inr (mem_of_getElem? ((List.getElem?_take_of_lt hlt).trans hget))
    have hsame : blocks.insert header.number header = blocks := by
      apply ExtTreeMap.ext_getElem?
      intro n
      rw [ExtTreeMap.getElem?_insert]
      split
      · next heq =>
        rw [← Nat.compare_eq_eq.mp heq, h.keyed.mem_headers.mp hmem]
      · rfl
    rw [hsame, Nat.max_eq_left hlt, h.headers_eq]
  · rw [h.keyed.headers_insert, h.headers_eq, Nat.max_eq_right (Nat.le_succ c),
      take_add_one, hget, append_assoc]
    · rfl
    · intro x hx
      have hnum := number_of_getElem? hget
      rw [h.headers_eq, mem_append] at hx
      rcases hx with hx | hx
      · have := hold x hx
        omega
      · have := (number_of_mem_take hx).2
        omega

theorem exists_anchor (s : Subscriber) (num : Nat) :
    ∃ a ≤ m, (executedAnchor history ⟨blocks, s⟩ num).number = history.base.number + a := by
  unfold executedAnchor
  split
  · exact ⟨0, Nat.zero_le m, rfl⟩
  · next hlt =>
    cases hget : blocks[num]? with
    | none => exact ⟨0, Nat.zero_le m, rfl⟩
    | some x =>
      obtain ⟨hmem, rfl⟩ := h.keyed.getElem?_eq_some.mp hget
      rw [h.headers_eq, mem_append] at hmem
      rcases hmem with hmem | hmem
      · exact absurd (hold x hmem) hlt
      · have hnum := number_of_mem_take hmem
        refine ⟨x.number - history.base.number, by omega, ?_⟩
        rw [Option.getD_some]
        omega

section
variable (hep : ∀ d ∈ history.subDags, d.leaderEpoch = cfg.epoch)
include hep

theorem getMissingConsensus_eq (ha : header.number = history.base.number + a) :
    getMissingConsensus blocks ∅ cfg.epoch header = (history.chain.take m).drop a := by
  have hhs : blocks.headers =
      (old ++ (history.chain.take m).take a) ++ (history.chain.take m).drop a := by
    rw [h.headers_eq, append_assoc, take_append_drop]
  apply Axyl.getMissingConsensus_eq h.keyed hhs
  · intro x hx
    rcases mem_append.mp hx with hx | hx
    · have := hold x hx
      omega
    · rw [take_take] at hx
      have := (number_of_mem_take hx).2
      omega
  · intro x hx
    rw [ha]
    exact (number_of_mem_drop hx).1
  · intro x hx
    have hmem := mem_of_mem_take (mem_of_mem_drop hx)
    rw [hep x.subDag (subDag_mem_of_mem_chainFrom hmem)]

theorem lastStreamedNumber_eq (ham : a ≤ m) (ha : header.number = history.base.number + a) :
    lastStreamedNumber blocks ∅ cfg.epoch header = history.base.number + m := by
  have hlen := le_trans h.le (upToBoundary_initial _ history.chain).length_le
  rw [lastStreamedNumber, h.getMissingConsensus_eq hold hep ha, List.getLast?_eq_getElem?,
    length_drop, length_take, Nat.min_eq_left hlen, List.getElem?_drop]
  rcases Nat.eq_or_lt_of_le ham with rfl | hlt
  · rw [List.getElem?_eq_none]
    · exact ha
    · rw [length_take]
      omega
  · have hlast : a + (m - a - 1) = m - 1 := by omega
    have hget : history.chain[m - 1]? = some (history.chain[m - 1]) := List.getElem?_eq_getElem _
    rw [hlast, List.getElem?_take_of_lt (by omega), hget, Option.map_some, Option.getD_some,
      number_of_getElem? hget]
    omega

end

end

end

theorem consensusChainTip_eq {blocks₀ : ConsensusBlocks} (hst : EpochStart cfg history blocks₀)
    (h : Holds cfg history blocks₀.headers m blocks) : (history.base :: history.chain)[m]? =
      some ((consensusChainTip blocks cfg.epoch cfg.certifiedCheckpoint).getD .default) := by
  rw [consensusChainTip, h.headers_eq]
  cases m with
  | zero =>
    rw [take_zero, append_nil, List.getElem?_cons_zero, hst.base_eq]
    cases hlast : blocks₀.headers.getLast? with
    | none => rfl
    | some tip =>
      have hbase := hst.base_eq
      rw [hlast] at hbase
      have hep := hst.older tip (mem_of_getLast? hlast)
      have hpoint : (cfg.certifiedCheckpoint.filter fun checkpoint => checkpoint < tip.number) =
          none := by
        rw [Option.filter_eq_none_iff]
        intro checkpoint hcheckpoint hlt
        have := hst.checkpoint checkpoint hcheckpoint
        rw [hbase] at this
        exact absurd (of_decide_eq_true hlt) (Nat.not_lt_of_ge this)
      dsimp only
      rw [if_neg (by omega), hpoint]
  | succ m =>
    have hlen := lt_of_lt_of_le h.le (upToBoundary_initial _ history.chain).length_le
    have hget := List.getElem?_eq_getElem hlen
    generalize history.chain[m] = tip at hget
    have hmem : tip ∈ history.chain := mem_of_getElem? hget
    have hep := hst.epoch_eq tip.subDag (subDag_mem_of_mem_chainFrom hmem)
    rw [take_add_one, hget, Option.toList_some, ← append_assoc, List.getLast?_concat,
      List.getElem?_cons_succ, hget]
    dsimp only
    rw [if_pos (by omega)]
    rfl

end Holds

variable {n : EpochNode} {next : Nat} {wait : List ConsensusHeader} {cut : EpochCut}
  {blocks₀ : ConsensusBlocks} {fx : List SubscriberEffect}

theorem Holds.commit (h : Holds cfg history old m n.blocks)
    (hold : ∀ x ∈ old, x.number ≤ history.base.number)
    (hcmt : Committing cfg.epochBoundary history.chain m c next (header :: wait) cut)
    (sends : Bool) :
    (∃ m', Holds cfg history old m' (n.save (cut.commit cfg.epochBoundary sends header).1) ∧
      Committing cfg.epochBoundary history.chain m' (c + 1) next wait
        (cut.commit cfg.epochBoundary sends header).2) ∧
      ∀ e ∈ (cut.commit cfg.epochBoundary sends header).1, e.header ∈ kept cfg history := by
  have hget := hcmt.getElem?.1
  rcases hcmt.commit sends with ⟨hr, hnext⟩ | ⟨hr, hcm, hcut, hnext⟩
  · rw [hr]
    exact ⟨⟨m, h, hnext⟩, nofun⟩
  · refine ⟨⟨max m (c + 1), ?_, hnext⟩, fun e he => ?_⟩
    · rw [hr, save_saved]
      exact h.insert hold hcm hcut hget
    · rw [cut.header_of_mem_commit he]
      exact mem_kept_of_getElem? hcut hget

theorem Holds.follows_startLive (hst : EpochStart cfg history blocks₀)
    (h : Holds cfg history blocks₀.headers m n.blocks)
    (hbel : Below cfg.epochBoundary (history.chain.take m)) :
    Follows cfg history m (n.startLive cfg history) := by
  have htip := h.consensusChainTip_eq hst
  have hnum := number_chainFrom htip
  unfold startLive
  generalize (consensusChainTip n.blocks cfg.epoch cfg.certifiedCheckpoint).getD .default = tip
    at htip hnum
  have hsequenced : tip.number - history.base.number = m := by omega
  dsimp only
  rw [hsequenced]
  exact ⟨m, tip, committing_nil (le_refl m) hbel, htip, rfl, rfl⟩

theorem Holds.follows_start (hst : EpochStart cfg history blocks₀)
    (h : Holds cfg history blocks₀.headers m n.blocks) {follow : Bool} {num : Nat}
    (hev : MeetsBoundaryAgain cfg history n (.start follow num)) :
    Follows cfg history m (n.step cfg history (.start follow num)).2.subscriber := by
  have hold : ∀ x ∈ blocks₀.headers, x.number ≤ history.base.number := fun _ => hst.number_le
  have hsv : ∀ x ∈ history.chain.take m, x ∈ n.blocks.headers ∧ x.subDag.leaderEpoch = cfg.epoch := by
    intro x hx
    rw [h.headers_eq, mem_append]
    have hmem := mem_of_mem_take hx
    exact ⟨.inr hx, hst.epoch_eq x.subDag (subDag_mem_of_mem_chainFrom hmem)⟩
  obtain ⟨a, ham, ha⟩ := h.exists_anchor hold n.subscriber num
  have hmiss := h.getMissingConsensus_eq hold hst.epoch_eq ha
  have hbel : ∀ k ≤ m, (follow = true → history.base.number + a ≠ 0 → k ≤ a) →
      Below cfg.epochBoundary (history.chain.take k) := by
    intro k hk hka x hx
    by_contra hrchs
    have hx' : x ∈ history.chain.take m := by
      rw [← Nat.min_eq_left hk, ← take_take] at hx
      exact mem_of_mem_take hx
    obtain ⟨hmem, hep⟩ := hsv x hx'
    obtain ⟨hfollow, hne, hlt⟩ := hev x hmem hep (Bool.eq_true_of_not_eq_false hrchs)
    rw [ha] at hne hlt
    have := hka hfollow hne
    have := (number_of_mem_take hx).2
    omega
  cases follow with
  | false =>
    refine ⟨hbel m (le_refl m) nofun, fun x hx => ?_⟩
    rw [hmiss] at hx
    exact mem_of_mem_drop hx
  | true =>
    -- An anchor of number zero is passed for the last saved header.
    by_cases hzero : history.base.number + a = 0
    · refine ⟨m, m, committing_nil (le_refl m) (hbel m (le_refl m) ?_), ?_⟩
      · intro _ hne
        exact absurd hzero hne
      · change (if _ then _ else _) = _
        rw [if_pos (ha.trans hzero)]
        exact h.lastStreamedNumber_eq hold hst.epoch_eq ham ha
    · refine ⟨a, a, committing_nil ham (hbel a ham fun _ _ => le_refl a), ?_⟩
      change (if _ then _ else _) = _
      rw [if_neg fun h => hzero (ha.symm.trans h)]
      exact ha

variable {l : LiveSubscriber}

theorem Follows.receive_subDag {d : CommittedSubDag}
    (h : Follows cfg history m (.live l)) (hd : history.subDags[l.sequenced]? = some d) :
    Follows cfg history m (.live (l.receive d)) := by
  obtain ⟨c, prev, hcmt, hprev, hpar, hnum⟩ := h
  have hget : history.chain[l.sequenced]? = some ⟨l.lastParent, d, l.lastNumber + 1⟩ := by
    rw [EpochHistory.chain, getElem?_chainFrom hprev, hd, Option.map_some, hpar, hnum]
  exact ⟨c, _, hcmt.take hget, hget, rfl, rfl⟩

theorem Follows.receive_header {f : Follower} (h : Follows cfg history m (.following f))
    (hx : x ∈ history.chain) (keys : Bool) :
    Follows cfg history m (.following (f.receive cfg keys x)) := by
  obtain ⟨c, p, hcmt, hlast⟩ := h
  rcases f.receive_cases cfg keys x with hsame | ⟨-, hnext, -, -, htk⟩
  · rw [hsame]
    exact ⟨c, p, hcmt, hlast⟩
  · obtain ⟨i, hi⟩ := mem_iff_getElem?.mp hx
    have hnum := number_of_getElem? hi
    obtain rfl : i = p := by omega
    rw [htk]
    exact ⟨c, i + 1, hcmt.take hi, hnum⟩

theorem Follows.receive (h : Follows cfg history m n.subscriber) (ev : EpochEvent) :
    Follows cfg history m (n.receive cfg history ev) := by
  obtain ⟨blocks, s⟩ := n
  cases ev with
  | start | replay | deliver | stop => exact h
  | subDag =>
    cases s with
    | stopped | replaying | following => exact h
    | live l =>
      dsimp only [receive]
      split
      · exact h
      · split
        · next hd => exact h.receive_subDag hd
        · exact h
  | header num keys =>
    cases s with
    | stopped | replaying | live => exact h
    | following f =>
      dsimp only [receive]
      split
      · exact h
      · split
        · next hfind => exact h.receive_header (mem_of_find?_eq_some hfind) keys
        · exact h
  | drain =>
    cases s with
    | stopped | replaying | following => exact h
    | live l =>
      dsimp only [receive]
      split
      · exact trivial
      · exact h

/-- The effects are of headers that are kept, and the subscriber follows what is then saved. -/
def Saves (cfg : SubscriberConfig) (history : EpochHistory) (old : List ConsensusHeader)
    (fx : List SubscriberEffect) (n : EpochNode) : Prop :=
  (∃ m, Holds cfg history old m n.blocks ∧ Follows cfg history m n.subscriber) ∧
    ∀ e ∈ fx, e.header ∈ kept cfg history

theorem Saves.stopped_or {p : Prop} [Decidable p] {s : Subscriber}
    (h : Saves cfg history old fx ⟨blocks, s⟩) :
    Saves cfg history old fx ⟨blocks, if p then .stopped else s⟩ := by
  obtain ⟨⟨m, hhold, hfol⟩, heffs⟩ := h
  refine ⟨⟨m, hhold, ?_⟩, heffs⟩
  dsimp only
  split
  · exact trivial
  · exact hfol

theorem Cut.append (h : Cut cfg history old fx n) {r : List SubscriberEffect × EpochNode}
    (hr : Saves cfg history old r.1 r.2) : Cut cfg history old (fx ++ r.1) r.2 := by
  refine ⟨hr.1, fun e he => ?_⟩
  rcases mem_append.mp he with he | he
  · exact h.effects_mem e he
  · exact hr.2 e he

section
variable (h : Holds cfg history old m n.blocks)
  (hold : ∀ x ∈ old, x.number ≤ history.base.number)
include h hold

theorem Holds.deliver_live (hfol : Follows cfg history m (.live l)) (sends : Bool) :
    Saves cfg history old (l.deliver cfg sends).1
      ⟨n.save (l.deliver cfg sends).1, .live (l.deliver cfg sends).2⟩ := by
  obtain ⟨c, prev, hcmt, hprev⟩ := hfol
  unfold LiveSubscriber.deliver
  split
  · exact ⟨⟨m, h, c, prev, hcmt, hprev⟩, nofun⟩
  · next header wait hwait =>
    rw [hwait] at hcmt
    obtain ⟨⟨m', hhold, hcmt'⟩, heffs⟩ := h.commit hold hcmt sends
    exact ⟨⟨m', hhold, c + 1, prev, hcmt', hprev⟩, heffs⟩

theorem Holds.deliver_following {f : Follower} (hfol : Follows cfg history m (.following f))
    (sends : Bool) : Saves cfg history old (f.deliver cfg sends).1
      ⟨n.save (f.deliver cfg sends).1, .following (f.deliver cfg sends).2⟩ := by
  obtain ⟨c, p, hcmt, hlast⟩ := hfol
  unfold Follower.deliver
  split
  · exact ⟨⟨m, h, c, p, hcmt, hlast⟩, nofun⟩
  · next header wait hwait =>
    rw [hwait] at hcmt
    obtain ⟨⟨m', hhold, hcmt'⟩, heffs⟩ := h.commit hold hcmt sends
    exact ⟨⟨m', hhold, c + 1, p, hcmt', hlast⟩, heffs⟩

end

theorem Cut.deliver (h : Cut cfg history old fx n)
    (hold : ∀ x ∈ old, x.number ≤ history.base.number) (sends : Bool) :
    Cut cfg history old (fx ++ (n.deliver cfg sends).1) (n.deliver cfg sends).2 := by
  obtain ⟨m, hhold, hfol⟩ := h.holds
  obtain ⟨blocks, s⟩ := n
  cases s with
  | stopped | replaying => exact h.append ⟨⟨m, hhold, hfol⟩, nofun⟩
  | live l => exact h.append (hhold.deliver_live hold hfol sends).stopped_or
  | following f => exact h.append (hhold.deliver_following hold hfol sends).stopped_or

section
variable (hst : EpochStart cfg history blocks₀)
include hst

theorem Cut.replay (h : Cut cfg history blocks₀.headers fx n) :
    Cut cfg history blocks₀.headers (fx ++ (n.replay cfg history).1) (n.replay cfg history).2 := by
  obtain ⟨m, hhold, hfol⟩ := h.holds
  obtain ⟨blocks, s⟩ := n
  cases s with
  | stopped | live | following => exact h.append ⟨⟨m, hhold, hfol⟩, nofun⟩
  | replaying miss =>
    obtain ⟨hbel, hmiss⟩ := hfol
    have hlive : Follows cfg history m (startLive cfg history ⟨blocks, .replaying miss⟩) :=
      hhold.follows_startLive hst hbel
    cases miss with
    | nil => exact h.append ⟨⟨m, hhold, hlive⟩, nofun⟩
    | cons header miss =>
      obtain ⟨hhdr, hrest⟩ := forall_mem_cons.mp hmiss
      have heffs : ∀ e ∈ [sent header], e.header ∈ kept cfg history := by
        intro e he
        rw [mem_singleton.mp he]
        exact hhold.mem_kept hhdr
      dsimp only [replay]
      split
      · exact h.append ⟨⟨m, hhold, hlive⟩, heffs⟩
      · exact h.append ⟨⟨m, hhold, hbel, hrest⟩, heffs⟩

theorem Cut.step (h : Cut cfg history blocks₀.headers fx n) {ev : EpochEvent}
    (hev : MeetsBoundaryAgain cfg history n ev) :
    Cut cfg history blocks₀.headers (fx ++ (n.step cfg history ev).1)
      (n.step cfg history ev).2 := by
  obtain ⟨m, hhold, hfol⟩ := h.holds
  cases ev with
  | start follow num => exact h.append ⟨⟨m, hhold, hhold.follows_start hst hev⟩, nofun⟩
  | replay => exact h.replay hst
  | deliver sends => exact h.deliver (fun _ => hst.number_le) sends
  | stop => exact h.append ⟨⟨m, hhold, trivial⟩, nofun⟩
  | subDag => exact h.append ⟨⟨m, hhold, hfol.receive .subDag⟩, nofun⟩
  | header num keys => exact h.append ⟨⟨m, hhold, hfol.receive (.header num keys)⟩, nofun⟩
  | drain => exact h.append ⟨⟨m, hhold, hfol.receive .drain⟩, nofun⟩

theorem cut_run {evs : List EpochEvent}
    (hevs : Reactor.Always (step cfg history) (MeetsBoundaryAgain cfg history)
      ⟨blocks₀, .stopped⟩ evs) :
    Cut cfg history blocks₀.headers (run cfg history ⟨blocks₀, .stopped⟩ evs).1
      (run cfg history ⟨blocks₀, .stopped⟩ evs).2 := by
  have hinit : Cut cfg history blocks₀.headers [] ⟨blocks₀, .stopped⟩ := by
    refine ⟨⟨0, ⟨hst.keyed, ?_, Nat.zero_le _⟩, trivial⟩, nofun⟩
    rw [take_zero, append_nil]
  exact Reactor.run_history_of (fun _ _ _ h hev => h.step hst hev) hinit hevs

end

end

/-- What is saved of the epoch is the chain up to the first output that reaches the boundary,
nothing behind it is saved or sent, and with an output that reaches the boundary it is complete. -/
theorem persisted_upToBoundary (cfg : SubscriberConfig) (history : EpochHistory)
    (blocks : ConsensusBlocks) (events : List EpochEvent) (hstart : EpochStart cfg history blocks)
    (hevents : Reactor.Always (step cfg history) (MeetsBoundaryAgain cfg history)
      ⟨blocks, .stopped⟩ events) :
    ∃ saved, (run cfg history ⟨blocks, .stopped⟩ events).2.blocks.headers = blocks.headers ++ saved ∧
      saved <+: upToBoundary cfg.epochBoundary history.chain ∧
      ((∃ x ∈ saved, x.subDag.reachesEpochBoundary cfg.epochBoundary = true) →
        saved = upToBoundary cfg.epochBoundary history.chain) ∧
      ∀ e ∈ (run cfg history ⟨blocks, .stopped⟩ events).1,
        e.header ∈ upToBoundary cfg.epochBoundary history.chain := by
  have h := cut_run hstart hevents
  obtain ⟨m, hholds, -⟩ := h.holds
  refine ⟨history.chain.take m, hholds.headers_eq, ?_, ?_, h.effects_mem⟩
  · rw [take_chain hholds.le]
    exact take_prefix m _
  · rintro ⟨x, hx, hreaches⟩
    rw [take_chain hholds.le] at hx ⊢
    exact take_of_length_le (length_upToBoundary_le hx hreaches)

end EpochNode

end

namespace EpochNode

def threeOutputs : EpochHistory where
  base := ⟨0, .new [] ⟨⟨0, 2, 0, 5, [], [], 0⟩⟩ .default none, 5⟩
  subDags := [(2, 10), (4, 20), (6, 30)].map fun (round, createdAt) =>
    .new [] ⟨⟨0, round, 1, createdAt, [], [], 0⟩⟩ .default none

def boundaryAtTwenty : SubscriberConfig where
  epoch := 1
  epochBoundary := 20
  verifies := fun _ => true
  certifiedCheckpoint := some 5

def baseSaved : ConsensusBlocks := (∅ : ConsensusBlocks).insert 5 threeOutputs.base

def closesEpoch : List EpochEvent :=
  [.start false 5, .replay, .subDag, .subDag, .deliver true, .deliver true, .stop]

theorem epochStart_threeOutputs : EpochStart boundaryAtTwenty threeOutputs baseSaved where
  keyed := by
    intro n header hget
    rw [baseSaved, ExtTreeMap.getElem?_insert] at hget
    split at hget
    · next heq =>
      cases hget
      exact Nat.compare_eq_eq.mp heq
    · cases ExtTreeMap.getElem?_empty.symm.trans hget
  base_eq := by decide +kernel
  older := by decide +kernel
  epoch_eq := by decide +kernel
  checkpoint := by
    rintro _ ⟨⟩
    exact le_refl 5

def followedAgain : List EpochEvent :=
  closesEpoch ++ [.start true 6, .header 7 true, .header 8 true, .deliver true, .deliver true]

/-- A follower whose anchor is behind the boundary closes the epoch once more. -/
theorem persisted_upToBoundary_followed :
    letI : HashFunction := .polynomial
    ∃ saved, (run boundaryAtTwenty threeOutputs ⟨baseSaved, .stopped⟩ followedAgain).2.blocks.headers =
        baseSaved.headers ++ saved ∧
      saved <+: upToBoundary boundaryAtTwenty.epochBoundary threeOutputs.chain ∧
      ((∃ x ∈ saved, x.subDag.reachesEpochBoundary boundaryAtTwenty.epochBoundary = true) →
        saved = upToBoundary boundaryAtTwenty.epochBoundary threeOutputs.chain) ∧
      ∀ e ∈ (run boundaryAtTwenty threeOutputs ⟨baseSaved, .stopped⟩ followedAgain).1,
        e.header ∈ upToBoundary boundaryAtTwenty.epochBoundary threeOutputs.chain :=
  @persisted_upToBoundary .polynomial boundaryAtTwenty threeOutputs baseSaved followedAgain
    epochStart_threeOutputs (by decide +kernel)

/-- The output at the boundary is saved but not yet executed when the live subscriber starts again:
its new cut takes the next output for the one at the boundary. -/
theorem later_output_persisted :
    letI : HashFunction := .polynomial
    let r := run boundaryAtTwenty threeOutputs ⟨baseSaved, .stopped⟩
      (closesEpoch ++ [.start false 6, .replay, .replay, .subDag, .deliver true])
    (upToBoundary boundaryAtTwenty.epochBoundary threeOutputs.chain).map ConsensusHeader.number =
        [6, 7] ∧
      r.2.blocks.headers.map ConsensusHeader.number = [5, 6, 7, 8] ∧
      ∃ header ∈ threeOutputs.chain, header.number = 8 ∧
        saved header ∈ r.1 ∧ sent header ∈ r.1 := by
  decide +kernel

end EpochNode

end Axyl
