import Axyl.Storage.ConsensusStore
import Mathlib.Data.List.TakeWhile

/-! What a subscriber reads from the saved chain when it starts: the headers that were not executed,
and the tip that its numbers continue. -/

namespace Axyl
open List
open Std ExtTreeMap

def collectReplayableHeaders (blocks cache : ConsensusBlocks) (epoch anchorNumber toNumber : Nat) :
    List ConsensusHeader :=
  ((List.range' (anchorNumber + 1) (toNumber - anchorNumber)).filterMap
    (getConsensusByNumber blocks cache)).takeWhile fun header => epoch ≤ header.subDag.leaderEpoch

def getMissingConsensus (blocks cache : ConsensusBlocks) (epoch : Nat)
    (lastExecutedBlock : ConsensusHeader) : List ConsensusHeader :=
  let lastDbBlock := blocks.headers.getLast?.getD lastExecutedBlock
  if lastExecutedBlock.number < lastDbBlock.number then
    collectReplayableHeaders blocks cache epoch lastExecutedBlock.number lastDbBlock.number
  else []

section
variable {bs : ConsensusBlocks} {bef after : List ConsensusHeader}
  {anc : ConsensusHeader} {epoch : Nat}

theorem ConsensusBlocks.Keyed.filterMap_range' (h : bs.Keyed) (start length : Nat) :
    (List.range' start length).filterMap (getConsensusByNumber bs ∅) =
      bs.headers.filter fun x => start ≤ x.number ∧ x.number < start + length := by
  have hbs : getConsensusByNumber bs ∅ = fun n => bs[n]? := by
    funext n
    rw [getConsensusByNumber, getElem?_empty, Option.or_none]
  rw [hbs]
  have hleft : ((List.range' start length).filterMap fun n => bs[n]?).Pairwise
      fun x y => x.number < y.number := by
    refine List.Pairwise.filterMap _ (fun n n' hlt x hx y hy => ?_) (pairwise_lt_range' 1)
    obtain rfl := h n x hx
    obtain rfl := h n' y hy
    exact hlt
  refine eq_of_increasing hleft (h.pairwise_headers.filter _) fun x => ?_
  simp only [mem_filterMap, mem_range'_1, h.getElem?_eq_some, mem_filter, decide_eq_true_eq]
  constructor
  · rintro ⟨n, hn, hx, rfl⟩
    exact ⟨hx, hn⟩
  · rintro ⟨hx, hn⟩
    exact ⟨x.number, hn, hx, rfl⟩

theorem getMissingConsensus_eq (h : bs.Keyed) (hhs : bs.headers = bef ++ after)
    (hbef : ∀ x ∈ bef, x.number ≤ anc.number) (haft : ∀ x ∈ after, anc.number < x.number)
    (hep : ∀ x ∈ after, epoch ≤ x.subDag.leaderEpoch) :
    getMissingConsensus bs ∅ epoch anc = after := by
  rw [getMissingConsensus]
  rcases eq_nil_or_concat after with rfl | ⟨init, last, rfl⟩
  · rw [hhs, append_nil, if_neg]
    cases hlast : bef.getLast? with
    | none => exact Nat.lt_irrefl _
    | some last => exact Nat.not_lt_of_ge (hbef last (mem_of_getLast? hlast))
  · rw [concat_eq_append] at hhs haft hep ⊢
    have hlast : bs.headers.getLast? = some last := by
      rw [hhs, ← append_assoc, List.getLast?_concat]
    have hmax : ∀ x ∈ init ++ [last], x.number ≤ last.number := by
      intro x hx
      exact h.le_getLast? hlast x (hhs ▸ mem_append_right _ hx)
    have hlt := haft last (mem_append_right _ mem_cons_self)
    rw [hlast, Option.getD_some, if_pos hlt,
      collectReplayableHeaders, h.filterMap_range', hhs, filter_append,
      filter_eq_nil_iff.mpr, filter_eq_self.mpr]
    · apply takeWhile_eq_self_iff.mpr
      intro x hx
      exact decide_eq_true (hep x hx)
    · intro x hx
      have h₁ := haft x hx
      have h₂ := hmax x hx
      exact decide_eq_true ⟨h₁, by omega⟩
    · intro x hx hrange
      have h₁ := hbef x hx
      have h₂ := (of_decide_eq_true hrange).1
      omega

end

/-- The next header to be replayed behind another: no number between them has a row. -/
def NextRow (row : Nat → Option ConsensusHeader) (epoch : Nat) (x y : ConsensusHeader) : Prop :=
  x.number < y.number ∧ (∀ n, x.number < n → n < y.number → row n = none) ∧
    row y.number = some y ∧ epoch ≤ y.subDag.leaderEpoch

theorem isChain_nextRow {row : Nat → Option ConsensusHeader}
    (hrow : ∀ n x, row n = some x → x.number = n) (epoch length : Nat) {start : Nat}
    {x : ConsensusHeader} (hlt : x.number < start)
    (hnone : ∀ n, x.number < n → n < start → row n = none) :
    (x :: ((List.range' start length).filterMap row).takeWhile
      fun y => epoch ≤ y.subDag.leaderEpoch).IsChain (NextRow row epoch) := by
  induction length generalizing start x with
  | zero => exact .singleton x
  | succ length ih =>
    rw [range'_succ]
    cases hget : row start with
    | none =>
      rw [filterMap_cons_none hget]
      refine ih (by omega) fun n hn hle => ?_
      rcases Nat.eq_or_lt_of_le (Nat.le_of_lt_succ hle) with rfl | hn'
      · exact hget
      · exact hnone n hn hn'
    | some y =>
      obtain rfl := hrow start y hget
      rw [filterMap_cons_some hget, takeWhile_cons]
      split
      · rename_i hep
        exact .cons_cons ⟨hlt, hnone, hget, of_decide_eq_true hep⟩
          (ih (by omega) fun n hn hle => by omega)
      · exact .singleton x

/-- The headers returned are saved or cached rows of the epoch or later, in the order of their
numbers, and only numbers without a row are passed over. -/
theorem collectReplayableHeaders_isChain {blocks cache : ConsensusBlocks} (hblocks : blocks.Keyed)
    (hcache : cache.Keyed) (epoch : Nat) (anchor : ConsensusHeader) (toNumber : Nat) :
    (anchor :: collectReplayableHeaders blocks cache epoch anchor.number toNumber).IsChain
      (NextRow (getConsensusByNumber blocks cache) epoch) := by
  refine isChain_nextRow (fun n x hx => ?_) epoch _ (by omega) fun n hn hle => by omega
  rcases Option.or_eq_some_iff.mp hx with hx | ⟨-, hx⟩
  · exact hblocks n x hx
  · exact hcache n x hx

def headerOf (parentHash epoch number : Nat) : ConsensusHeader :=
  ⟨parentHash, .new [] ⟨⟨0, number, epoch, 0, [], [], number⟩⟩ .default none, number⟩

theorem keyed_empty : ConsensusBlocks.Keyed ∅ :=
  fun _ _ hx => nomatch getElem?_empty.symm.trans hx

/-- Header seven is only in the cache and header eight is of a closed epoch. -/
theorem collectReplayableHeaders_isChain_cached :
    let blocks : ConsensusBlocks := (insert ∅ 6 (headerOf 0 1 6)).insert 8 (headerOf 0 0 8)
    let cache : ConsensusBlocks := insert ∅ 7 (headerOf 0 1 7)
    collectReplayableHeaders blocks cache 1 5 8 = [headerOf 0 1 6, headerOf 0 1 7] ∧
      (headerOf 0 0 5 :: collectReplayableHeaders blocks cache 1 5 8).IsChain
        (NextRow (getConsensusByNumber blocks cache) 1) :=
  ⟨by decide +kernel, collectReplayableHeaders_isChain
    ((keyed_empty.insert (headerOf 0 1 6)).insert (headerOf 0 0 8))
    (keyed_empty.insert (headerOf 0 1 7)) 1 (headerOf 0 0 5) 8⟩

/-- Number seven has no row; header seven does not link onto header six. -/
theorem collectReplayableHeaders_not_chain :
    letI := HashFunction.polynomial
    let six := headerOf (headerOf 0 1 5).digest 1 6
    let seven := headerOf 0 1 7
    let eight := headerOf seven.digest 1 8
    collectReplayableHeaders (.ofList [(6, six), (8, eight)]) ∅ 1 5 8 = [six, eight] ∧
      collectReplayableHeaders (.ofList [(6, six), (7, seven)]) ∅ 1 5 8 = [six, seven] ∧
      seven.parentHash ≠ six.digest := by
  decide +kernel

/-- The number of the last header that `stream_missing_consensus` sends; the headers are those of
`getMissingConsensus`. -/
def lastStreamedNumber (blocks cache : ConsensusBlocks) (epoch : Nat)
    (lastExecutedBlock : ConsensusHeader) : Nat :=
  ((getMissingConsensus blocks cache epoch lastExecutedBlock).getLast?.map
    ConsensusHeader.number).getD lastExecutedBlock.number

def consensusChainTip (blocks : ConsensusBlocks) (epoch : Nat) (certifiedCheckpoint : Option Nat) :
    Option ConsensusHeader :=
  match blocks.headers.getLast? with
  | none => none
  | some tip =>
    if epoch ≤ tip.subDag.leaderEpoch then some tip
    else
      match certifiedCheckpoint.filter fun checkpoint => checkpoint < tip.number with
      | some checkpoint => blocks[checkpoint]?
      | none => some tip

/-- Behind the checkpoint lie `saved` rows of the new epoch and then rows of older ones. The tip is
the last of the new epoch, or the checkpoint if there is none, exactly if no old row is left above
the new ones. -/
theorem consensusChainTip_iff {blocks : ConsensusBlocks} (h : blocks.Keyed)
    {checkpoint : ConsensusHeader} (hrow : blocks[checkpoint.number]? = some checkpoint)
    {epoch saved : Nat} (hsaved : ∀ i < saved, (blocks[checkpoint.number + (i + 1)]?).any
      fun x => x.subDag.leaderEpoch = epoch)
    (hleaked : ∀ x ∈ blocks.headers, checkpoint.number + saved < x.number →
      x.subDag.leaderEpoch < epoch) :
    consensusChainTip blocks epoch (some checkpoint.number) = blocks[checkpoint.number + saved]? ↔
      saved = 0 ∨ ∀ x ∈ blocks.headers, x.number ≤ checkpoint.number + saved := by
  obtain ⟨last, hlast, hepoch⟩ : ∃ last, blocks[checkpoint.number + saved]? = some last ∧
      (0 < saved → last.subDag.leaderEpoch = epoch) := by
    cases saved with
    | zero => exact ⟨checkpoint, hrow, nofun⟩
    | succ i =>
      have hi := hsaved i (by omega)
      cases hget : blocks[checkpoint.number + (i + 1)]? with
      | none =>
        rw [hget] at hi
        cases hi
      | some x =>
        rw [hget] at hi
        exact ⟨x, rfl, fun _ => of_decide_eq_true hi⟩
  have hnumber := h _ _ hlast
  have hmem := h.mem_headers.mpr (hnumber ▸ hlast)
  obtain ⟨tip, htip⟩ := Option.isSome_iff_exists.mp (List.getLast?_isSome.mpr (ne_nil_of_mem hmem))
  have hmax := h.le_getLast? htip
  have hle := hmax last hmem
  rw [consensusChainTip, htip, hlast]
  dsimp only
  rcases Nat.eq_or_lt_of_le hle with heq | hlt
  · -- the row of the tip is the last one of the new epoch, or the checkpoint
    have hget := h.mem_headers.mp (mem_of_getLast? htip)
    rw [← heq, hnumber, hlast] at hget
    cases hget
    refine iff_of_true ?_ (.inr fun x hx => hnumber ▸ hmax x hx)
    split
    · rfl
    · rename_i hne
      obtain rfl : saved = 0 := Nat.eq_zero_of_not_pos fun hpos => hne (by omega)
      rw [Option.filter_some, if_neg (by simp [hnumber])]
  · -- an old row lies above
    have htipOld := hleaked tip (mem_of_getLast? htip) (hnumber ▸ hlt)
    rw [if_neg (by omega), Option.filter_some, if_pos (decide_eq_true (by omega))]
    dsimp only
    rw [hrow]
    constructor
    · intro heq
      cases heq
      omega
    · rintro (rfl | hall)
      · exact hrow.symm.trans hlast
      · have := hall tip (mem_of_getLast? htip)
        omega

/-- Both old rows have been overwritten. -/
theorem consensusChainTip_iff_overwritten :
    let blocks : ConsensusBlocks :=
      ((insert ∅ 5 (headerOf 0 0 5)).insert 6 (headerOf 1 1 6)).insert 7 (headerOf 2 1 7)
    consensusChainTip blocks 1 (some 5) = some (headerOf 2 1 7) := by
  intro blocks
  have hkeyed : blocks.Keyed :=
    ((keyed_empty.insert (headerOf 0 0 5)).insert (headerOf 1 1 6)).insert (headerOf 2 1 7)
  have hsaved : ∀ i < 2, (blocks[(headerOf 0 0 5).number + (i + 1)]?).any
      fun x => x.subDag.leaderEpoch = 1 := by decide +kernel
  exact (consensusChainTip_iff hkeyed rfl hsaved (by decide +kernel)).mpr (.inr (by decide +kernel))

/-- An old row is left above the one header of the new epoch: the tip is the checkpoint, and the
number of that header is given to the next one. -/
theorem consensusChainTip_reused :
    consensusChainTip (.ofList [(5, headerOf 0 0 5), (6, headerOf 1 1 6), (7, headerOf 0 0 7)]) 1
      (some 5) = some (headerOf 0 0 5) := by
  decide +kernel

end Axyl
