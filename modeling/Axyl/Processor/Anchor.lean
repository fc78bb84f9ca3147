import Axyl.Processor.Drain
import Axyl.Processor.Rebuild

/-! The executed anchor after a restart. A block carries the nonce and the digest of the output
its batch came with, so that the last block may point to an earlier output; the block with the
highest nonce of the last two hundred points to the last one that was executed. -/

namespace Axyl
open List AuthoritySeqState CollectState ConsensusOutput
open Std (ExtTreeMap)

def lastExecutedScanDepth : Nat := 200

def highestNonce : List ExecHeader → Option ExecHeader
  | [] => none
  | header :: headers =>
    match highestNonce headers with
    | none => some header
    | some best => some (if best.nonce < header.nonce then header else best)

def highestExecutedAnchor (headers : List ExecHeader) : Option Nat :=
  (highestNonce headers).map ExecHeader.parentBeaconBlockRoot

def headerByNumber (chain : ExtTreeMap Nat ExecutedBlock) (n : Nat) : Option ExecHeader :=
  if n = 0 then some .genesis else (chain[n]?).map ExecutedBlock.header

def blocksForRange (chain : ExtTreeMap Nat ExecutedBlock) (start tip : Nat) : List ExecHeader :=
  (List.range' start (tip + 1 - start)).filterMap (headerByNumber chain)

def savedBlocks (outputs : List ConsensusOutput) : ConsensusBlocks :=
  outputs.foldl (fun blocks o => blocks.insert o.number o.consensusHeader) ∅

variable {outputs : List ConsensusOutput}

section
variable (h : (outputs.map number).Pairwise (· < ·))
include h

variable {header : ConsensusHeader}

theorem getElem?_savedBlocks {n : Nat} : (savedBlocks outputs)[n]? = some header ↔
      ∃ o ∈ outputs, o.number = n ∧ o.consensusHeader = header := by
  induction outputs using List.reverseRecOn with
  | nil => simp [savedBlocks]
  | append_singleton outputs o ih =>
    rw [map_append, pairwise_append] at h
    obtain ⟨hinit, -, hlast⟩ := h
    rw [savedBlocks, foldl_append, foldl_cons, foldl_nil, ExtTreeMap.getElem?_insert]
    simp only [mem_append, mem_singleton, or_and_right, exists_or, exists_eq_left]
    by_cases hn : o.number = n
    · rw [if_pos (Nat.compare_eq_eq.mpr hn), Option.some_inj]
      refine ⟨fun heq => .inr ⟨hn, heq⟩, ?_⟩
      rintro (⟨o', ho', hn', -⟩ | ⟨-, heq⟩)
      · have hlt := hlast _ (mem_map_of_mem ho') o.number mem_cons_self
        omega
      · exact heq
    · rw [if_neg (by rwa [Nat.compare_eq_eq]), ← savedBlocks, ih hinit]
      exact ⟨.inl, fun h => h.resolve_right fun h => hn h.1⟩

theorem keyed_savedBlocks : (savedBlocks outputs).Keyed := by
  intro n hdr hhdr
  obtain ⟨o, -, rfl, rfl⟩ := (getElem?_savedBlocks h).mp hhdr
  rfl

theorem mem_headers_savedBlocks :
    header ∈ (savedBlocks outputs).headers ↔ ∃ o ∈ outputs, o.consensusHeader = header := by
  rw [(keyed_savedBlocks h).mem_headers, getElem?_savedBlocks h]
  constructor
  · rintro ⟨o, ho, -, heq⟩
    exact ⟨o, ho, heq⟩
  · rintro ⟨o, ho, rfl⟩
    exact ⟨o, ho, rfl, rfl⟩

end

section
variable [HashFunction]

def ConsensusBlocks.getCanonicalConsensusByHash (blocks : ConsensusBlocks) (hash : Nat) :
    Option ConsensusHeader :=
  blocks.headers.find? fun header => header.digest == hash

def lastExecutedConsensusFromAnchor (anchor : Option Nat) (blocks : ConsensusBlocks) :
    Option ConsensusHeader :=
  match anchor.filter (· ≠ 0) with
  | none => none
  | some hash => blocks.getCanonicalConsensusByHash hash

def recoverExecutedAnchor (chain : ExtTreeMap Nat ExecutedBlock) (tip : ExecHeader)
    (blocks : ConsensusBlocks) : Option ConsensusHeader :=
  let window := blocksForRange chain (tip.number - lastExecutedScanDepth) tip.number
  lastExecutedConsensusFromAnchor
    ((highestExecutedAnchor window).or (some tip.parentBeaconBlockRoot)) blocks

end

theorem mem_of_highestNonce {headers : List ExecHeader} {best : ExecHeader}
    (h : highestNonce headers = some best) : best ∈ headers := by
  induction headers generalizing best with
  | nil => cases h
  | cons x headers ih =>
    rw [highestNonce] at h
    split at h
    · cases h
      exact mem_cons_self
    · rename_i rest hrest
      cases h
      split
      · exact mem_cons_self
      · exact mem_cons_of_mem x (ih hrest)

theorem getCanonicalConsensusByHash_savedBlocks [HashFunction]
    (hnums : (outputs.map number).Pairwise (· < ·))
    (hdigs : (outputs.map digest).Nodup) {o : ConsensusOutput} (ho : o ∈ outputs) :
    (savedBlocks outputs).getCanonicalConsensusByHash o.digest = some o.consensusHeader := by
  unfold ConsensusBlocks.getCanonicalConsensusByHash
  cases hfind : (savedBlocks outputs).headers.find? fun hdr => hdr.digest == o.digest with
  | none =>
    have hmem := (mem_headers_savedBlocks hnums).mpr ⟨o, ho, rfl⟩
    exact absurd (beq_self_eq_true o.digest) (List.find?_eq_none.mp hfind _ hmem)
  | some hdr =>
    obtain ⟨o', ho', rfl⟩ := (mem_headers_savedBlocks hnums).mp (mem_of_find?_eq_some hfind)
    have heq : o'.digest = o.digest := beq_iff_eq.mp (List.find?_some hfind :)
    rw [inj_on_of_nodup_map hdigs ho' ho heq]

theorem highestNonce_append {pre after : List ExecHeader} {hdr : ExecHeader}
    (hbef : ∀ x ∈ pre, x.nonce ≤ hdr.nonce) (haft : ∀ x ∈ after, x.nonce ≤ hdr.nonce) :
    ∃ best ∈ hdr :: after, highestNonce (pre ++ hdr :: after) = some best ∧
      best.nonce = hdr.nonce := by
  induction pre with
  | nil =>
    rw [nil_append, highestNonce]
    split
    · exact ⟨hdr, mem_cons_self, rfl, rfl⟩
    · rename_i best hmax
      have hmem := mem_of_highestNonce hmax
      by_cases hlt : best.nonce < hdr.nonce
      · rw [if_pos hlt]
        exact ⟨hdr, mem_cons_self, rfl, rfl⟩
      · rw [if_neg hlt]
        exact ⟨best, mem_cons_of_mem hdr hmem, rfl, le_antisymm (haft best hmem) (by omega)⟩
  | cons x pre ih =>
    obtain ⟨hx, hrest⟩ := forall_mem_cons.mp hbef
    obtain ⟨best, hmem, hmax, hnonce⟩ := ih hrest
    refine ⟨best, hmem, ?_, hnonce⟩
    rw [cons_append, highestNonce, hmax]
    dsimp only
    rw [if_neg (by omega)]

theorem range'_split {s m t : Nat} (hs : s ≤ m) (ht : m ≤ t) :
    List.range' s (t + 1 - s) = List.range' s (m - s) ++ m :: List.range' (m + 1) (t - m) := by
  have happ := List.range'_append_1 (s := s) (m := m - s) (n := t - m + 1)
  have hmiddle : s + (m - s) = m := by omega
  have hlen : m - s + (t - m + 1) = t + 1 - s := by omega
  rw [hmiddle, hlen] at happ
  exact happ.symm

theorem blocksForRange_split {pre after : List ExecutedBlock} {b : ExecutedBlock}
    (h : Numbered 0 (pre ++ b :: after)) (haft : after.length ≤ lastExecutedScanDepth) :
    let bs := pre ++ b :: after
    ∃ older newer, blocksForRange (extendChain ∅ bs) (bs.length - lastExecutedScanDepth)
        bs.length = older ++ b.header :: newer ∧
      (∀ x ∈ older, x = .genesis ∨ ∃ c ∈ bs, x = c.header) ∧
      ∀ x ∈ newer, ∃ c ∈ bs, x = c.header := by
  intro bs
  have hlen : bs.length = pre.length + 1 + after.length := by
    rw [length_append, length_cons]
    omega
  have hrange := range'_split (s := bs.length - lastExecutedScanDepth) (m := pre.length + 1)
    (t := bs.length) (by omega) (by omega)
  have hlook : ∀ n, headerByNumber (extendChain ∅ bs) (n + 1) =
      (bs[n]?).map ExecutedBlock.header := by
    intro n
    rw [headerByNumber, if_neg (by omega), getElem?_extendChain h]
  have hown : headerByNumber (extendChain ∅ bs) (pre.length + 1) = some b.header := by
    rw [hlook, List.getElem?_append_right (le_refl _), Nat.sub_self]
    rfl
  have hmem : ∀ n x, headerByNumber (extendChain ∅ bs) (n + 1) = some x →
      ∃ c ∈ bs, x = c.header := by
    intro n x hx
    rw [hlook] at hx
    obtain ⟨c, hc, rfl⟩ := Option.map_eq_some_iff.mp hx
    exact ⟨c, mem_of_getElem? hc, rfl⟩
  rw [blocksForRange, hrange, filterMap_append, filterMap_cons, hown]
  refine ⟨_, _, rfl, ?_, ?_⟩
  · intro x hx
    obtain ⟨n, -, hn⟩ := mem_filterMap.mp hx
    cases n with
    | zero => exact .inl (Option.some.inj hn).symm
    | succ n => exact .inr (hmem n x hn)
  · intro x hx
    obtain ⟨n, hrange, hn⟩ := mem_filterMap.mp hx
    cases n with
    | zero => exact absurd (mem_range'_1.mp hrange).1 (by omega)
    | succ n => exact hmem n x hn

def BatchOrderingState.Bounded (o : BatchOrderingState) : Prop :=
  ∀ a, (o.parked a).size ≤ maxParkedPerAuthority

theorem kept_size (p : PreparedBatch) (n : Bool) :
    Kept (fun auth => auth.parked.size ≤ maxParkedPerAuthority) (fun _ => True) p n where
  accept auth h := by
    refine (tryAccept_spec auth p.batch.seq p n).mono (fun r hr => ?_) fun _ _ => trivial
    generalize r.1 = res, r.2 = auth' at hr
    cases hr with
    | inOrder => exact h
    | parked hparks =>
      have hroom : auth.parked.size < maxParkedPerAuthority := by
        unfold parks at hparks
        split at hparks
        · cases hparks
        · exact of_decide_eq_true (Bool.and_eq_true_iff.mp hparks).2
      exact ExtTreeMap.size_insert_le.trans (by omega)
    | forced =>
      cases n with
      | true => exact ExtTreeMap.size_filter_le_size.trans h
      | false => exact h
  drain auth last h _ := (Fallible.Spec.of_error fun _ _ => trivial).mono
    (fun _ _ _ => ExtTreeMap.size_erase_le.trans h) fun _ he => he

theorem BatchOrderingState.Bounded.drainEpoch {o : BatchOrderingState} (h : o.Bounded)
    (ep : Nat) : (o.drainEpoch ep).2.Bounded :=
  (Within.drainEpoch (I := fun auth => auth.parked.size ≤ maxParkedPerAuthority) h
    (Nat.zero_le _) ep).2

variable {s s' : CollectState}

theorem BatchOrderingState.Bounded.collect {p : PreparedBatch} {c : Collected}
    (h : s.ordering.Bounded) (hcoll : s.collect true true p = .ok (c, s')) : s'.ordering.Bounded :=
  ((within_collect (kept_size p true) ⟨rfl, h⟩ true).ok hcoll).2

theorem ExecutedBatchRegistry.unregistered_sublist (reg : ExecutedBatchRegistry)
    (qs : List PreparedBatch) : (reg.unregistered qs).Sublist qs := by
  induction qs generalizing reg with
  | nil => exact List.Sublist.refl []
  | cons q qs ih =>
    rw [unregistered]
    split
    · exact (ih reg).cons q
    · exact (ih _).cons_cons q

theorem length_behind_le (auth : AuthoritySeqState) : auth.behind.length ≤ auth.parked.size := by
  unfold behind
  split
  · exact Nat.zero_le _
  · exact length_follows_le _ _ _

theorem length_unlocks_le (h : s.ordering.Bounded)
    (q : PreparedBatch) : (s.unlocks q).length ≤ maxParkedPerAuthority := by
  unfold unlocks
  split
  · exact Nat.zero_le _
  · refine (ExecutedBatchRegistry.unregistered_sublist _ _).length_le.trans ?_
    split
    · exact (length_behind_le _).trans (h q.beneficiary)
    · exact (length_behind_le _).trans (h q.beneficiary)

theorem exists_own_collected {ps : List PreparedBatch} {outs : List Collected}
    (h : Machine.run (CollectState.collect true true) s ps = .ok (outs, s'))
    (hs : s.ordering.Bounded) : s'.ordering.Bounded ∧ (outs.flatMap Collected.batches = [] ∨
      ∃ pre q after, outs.flatMap Collected.batches = pre ++ q :: after ∧ q ∈ ps ∧
        after.length ≤ maxParkedPerAuthority) := by
  induction ps generalizing s outs with
  | nil =>
    cases h
    exact ⟨hs, .inl rfl⟩
  | cons p ps ih =>
    obtain ⟨c, s₁, rest, hstep, hrest, rfl⟩ := Machine.run_cons_eq_ok.mp h
    obtain ⟨hs', hown⟩ := ih hrest (hs.collect hstep)
    refine ⟨hs', ?_⟩
    rw [flatMap_cons]
    rcases hown with hnil | ⟨pre, q, after, heq, hq, hlen⟩
    · rw [hnil, append_nil, collect_batches hstep]
      split
      · exact .inl rfl
      · refine .inr ⟨[], p, _, rfl, mem_cons_self, ?_⟩
        rw [length_map]
        exact length_unlocks_le hs p
    · refine .inr ⟨c.batches ++ pre, q, after, ?_, mem_cons_of_mem p hq, hlen⟩
      rw [heq, append_assoc]

def ExecHeader.stamp (h : ExecHeader) : Nat × Nat := (h.nonce, h.parentBeaconBlockRoot)

def PreparedBatch.stamp (q : PreparedBatch) : Nat × Nat := (q.outputNonce, q.outputDigest)

section
variable {σ : Type} [Evm σ] [HashFunction] {cfg : ProcessorConfig} {p p' : Processor σ}
  {o : ConsensusOutput} {r : OutputResult}

def ConsensusOutput.stamp (o : ConsensusOutput) : Nat × Nat := (o.nonce, o.digest)

namespace Processor

theorem Phases.Valid.map_stamp_blocks {φ : Phases cfg p o} (h : φ.Valid)
    (hspec : cfg.spec.AllActive) :
    φ.result.blocks.map (fun b => b.header.stamp) =
      φ.collected.map PreparedBatch.stamp ++ if φ.empty then [o.stamp] else [] := by
  have hbs := h.map_header_blocks (v := o.stamp) hspec ExecHeader.stamp
    (PreparedBatch.stamp ∘ Prod.fst) (fun _ _ _ _ _ => rfl)
    fun _ _ _ hp => Prod.ext hp.nonce hp.consensusHeaderDigest
  rw [hbs, ← map_map, map_fst_withCloseEpoch]

theorem exists_own_block (hspec : cfg.spec.AllActive) (hp : p.ordering.Bounded)
    (h : p.executeConsensusOutput cfg o = .ok (r, p')) :
    p'.ordering.Bounded ∧ ∃ pre b after, r.blocks = pre ++ b :: after ∧
      b.header.stamp = o.stamp ∧ after.length ≤ maxParkedPerAuthority := by
  obtain ⟨φ, hφ, rfl, rfl⟩ := phases_of_executeConsensusOutput h
  obtain ⟨hbdd, hown⟩ := exists_own_collected (hφ.collect_of_allActive hspec)
    (hp.drainEpoch o.epoch)
  refine ⟨hbdd, ?_⟩
  have hstms := hφ.map_stamp_blocks hspec
  suffices hspl : ∃ pre after, φ.result.blocks.map (fun b => b.header.stamp) =
      pre ++ o.stamp :: after ∧ after.length ≤ maxParkedPerAuthority by
    obtain ⟨pre, after, heq, hlen⟩ := hspl
    obtain ⟨bs, rest, hbs, -, hrest⟩ := map_eq_append_iff.mp heq
    obtain ⟨b, bs', rfl, hb, haft⟩ := map_eq_cons_iff.mp hrest
    exact ⟨bs, b, bs', hbs, hb, by rwa [← haft, length_map] at hlen⟩
  rw [hstms]
  cases hemp : φ.empty with
  | true => exact ⟨φ.collected.map PreparedBatch.stamp, [], rfl, Nat.zero_le _⟩
  | false =>
    rw [if_neg Bool.false_ne_true, append_nil]
    rcases hown with hnil | ⟨pre, q, after, heq, hq, hlen⟩
    · have hcol : φ.collected = [] := hnil
      rw [Phases.empty, produceEmpty, if_pos (hspec.emptyOutputBlock _), hcol] at hemp
      cases hemp
    · obtain ⟨b, -, idx, rfl⟩ := mem_preparedBatches hq
      refine ⟨pre.map PreparedBatch.stamp, after.map PreparedBatch.stamp, ?_, ?_⟩
      · have hcol : φ.collected = pre ++ prepare cfg o b idx :: after := heq
        rw [hcol, map_append]
        rfl
      · rwa [length_map]

variable {results : List OutputResult}

theorem run_bounded (hspec : cfg.spec.AllActive) (h : p.run cfg outputs = .ok (results, p'))
    (hp : p.ordering.Bounded) : p'.ordering.Bounded := by
  induction outputs generalizing p results with
  | nil =>
    cases h
    exact hp
  | cons o outputs ih =>
    obtain ⟨r, p₁, rest, hstep, hrest, rfl⟩ := Machine.run_cons_eq_ok.mp h
    exact ih hrest (exists_own_block hspec hp hstep).1

theorem Sourced.stamps {G : PreparedBatch → Prop} (hp : Sourced G p) (hspec : cfg.spec.AllActive)
    (h : p.executeConsensusOutput cfg o = .ok (r, p'))
    (hnew : ∀ b ∈ o.outputBatches, ∀ idx, G (prepare cfg o b idx)) :
    ∀ b ∈ r.blocks, b.header.stamp = o.stamp ∨ ∃ q, G q ∧ b.header.stamp = q.stamp := by
  obtain ⟨φ, hφ, rfl, rfl⟩ := phases_of_executeConsensusOutput h
  have hcol := (hp.collected hspec hφ hnew).1
  intro b hb
  have hstm : b.header.stamp ∈ φ.result.blocks.map (fun b => b.header.stamp) := mem_map_of_mem hb
  rw [hφ.map_stamp_blocks hspec] at hstm
  rcases mem_append.mp hstm with hstm | hstm
  · obtain ⟨q, hq, heq⟩ := mem_map.mp hstm
    exact .inr ⟨q, hcol q hq, heq.symm⟩
  · split at hstm
    · exact .inl (mem_singleton.mp hstm)
    · exact absurd hstm not_mem_nil

theorem run_stamps (hspec : cfg.spec.AllActive) (h : p.run cfg outputs = .ok (results, p'))
    {all : List ConsensusOutput} (hp : Sourced (fun q => ∃ o ∈ all, q.stamp = o.stamp) p)
    (hall : outputs ⊆ all) :
    ∀ b ∈ results.flatMap OutputResult.blocks, ∃ o ∈ all, b.header.stamp = o.stamp := by
  induction outputs generalizing p results with
  | nil =>
    cases h
    exact nofun
  | cons o outputs ih =>
    obtain ⟨r, p₁, rest, hstep, hrest, rfl⟩ := Machine.run_cons_eq_ok.mp h
    obtain ⟨ho, hos⟩ := cons_subset.mp hall
    have hnew : ∀ b ∈ o.outputBatches, ∀ idx,
        ∃ o' ∈ all, (prepare cfg o b idx).stamp = o'.stamp := fun b _ _ => ⟨o, ho, rfl⟩
    rw [flatMap_cons, forall_mem_append]
    refine ⟨fun b hb => ?_, ih hrest (hp.output hspec hstep hnew).2 hos⟩
    rcases hp.stamps hspec hstep hnew b hb with heq | ⟨q, ⟨o', ho', hq⟩, heq⟩
    · exact ⟨o, ho, heq⟩
    · exact ⟨o', ho', heq.trans hq⟩

omit [Evm σ] [HashFunction] in
theorem Fresh.bounded (hp : p.Fresh) : p.ordering.Bounded := by
  intro a
  simp [BatchOrderingState.parked, BatchOrderingState.get, hp.authorities, AuthoritySeqState.default]

variable {init : List ConsensusOutput}

omit [Evm σ] in
/-- Of outputs with increasing nonces, the last one has the highest. -/
theorem nonce_le_last (hnons : ((init ++ [o]).map nonce).Pairwise (· < ·)) {hdr : ExecHeader}
    (h : ∃ o' ∈ init ++ [o], hdr.stamp = o'.stamp) :
    hdr.nonce ≤ o.nonce ∧ (hdr.nonce = o.nonce → hdr.parentBeaconBlockRoot = o.digest) := by
  obtain ⟨o', ho', hstm⟩ := h
  obtain ⟨hnonce, hroot⟩ := Prod.mk.inj hstm
  rw [hnonce, hroot]
  rw [map_append, pairwise_append] at hnons
  rcases mem_append.mp ho' with ho' | ho'
  · have hlt := hnons.2.2 _ (mem_map_of_mem ho') o.nonce mem_cons_self
    omega
  · rw [mem_singleton.mp ho']
    omega

omit [Evm σ] in
/-- The scan finds the last output if one of its own blocks is in the window. -/
theorem highestExecutedAnchor_eq (hnons : ((init ++ [o]).map nonce).Pairwise (· < ·))
    {pre after : List ExecutedBlock} {b : ExecutedBlock}
    (hnumbered : Numbered 0 (pre ++ b :: after))
    (hstms : ∀ c ∈ pre ++ b :: after, ∃ o' ∈ init ++ [o], c.header.stamp = o'.stamp)
    (hb : b.header.stamp = o.stamp) (haft : after.length ≤ lastExecutedScanDepth) :
    let bs := pre ++ b :: after
    highestExecutedAnchor (blocksForRange (extendChain ∅ bs)
      (bs.length - lastExecutedScanDepth) bs.length) = some o.digest := by
  intro bs
  obtain ⟨hnonce, hroot⟩ := Prod.mk.inj hb
  obtain ⟨older, newer, hwindow, holder, hnewer⟩ := blocksForRange_split hnumbered haft
  have hch : ∀ x, (∃ c ∈ bs, x = c.header) → x.nonce ≤ b.header.nonce ∧
      (x.nonce = b.header.nonce → x.parentBeaconBlockRoot = o.digest) := by
    rintro x ⟨c, hc, rfl⟩
    rw [hnonce]
    exact nonce_le_last hnons (hstms c hc)
  have hold : ∀ x ∈ older, x.nonce ≤ b.header.nonce := by
    intro x hx
    rcases holder x hx with rfl | hc
    · exact Nat.zero_le _
    · exact (hch x hc).1
  obtain ⟨best, hmem, hbest, heq⟩ := highestNonce_append hold fun x hx => (hch x (hnewer x hx)).1
  rw [hwindow, highestExecutedAnchor, hbest]
  rcases mem_cons.mp hmem with rfl | hmem
  · exact congrArg some hroot
  · exact congrArg some ((hch best (hnewer best hmem)).2 heq)

theorem recoverExecutedAnchor_eq (hspec : cfg.spec.AllActive) (hp : p.Fresh)
    (h : p.run cfg outputs = .ok (results, p'))
    (hnons : (outputs.map nonce).Pairwise (· < ·)) {saved : List ConsensusOutput}
    (hsv : outputs ⊆ saved) (hnums : (saved.map number).Pairwise (· < ·))
    (hdigs : (saved.map digest).Nodup) (hnonzero : ∀ o ∈ saved, o.digest ≠ 0) :
    recoverExecutedAnchor p'.chain p'.head (savedBlocks saved) =
      outputs.getLast?.map consensusHeader := by
  have htrue : Sourced (fun _ => True) p := ⟨fun _ _ => trivial, fun _ _ _ _ => trivial⟩
  have hrun := run_blocks hspec htrue h fun _ _ _ _ _ => trivial
  have hnumbered := hrun.numbered
  have hhead := hrun.head
  rw [hp.number] at hnumbered hhead
  rw [zero_add] at hhead
  rw [recoverExecutedAnchor, hrun.chain, hp.chain, hhead]
  rcases eq_nil_or_concat outputs with rfl | ⟨init, o, rfl⟩
  · cases h
    rfl
  · rw [concat_eq_append] at h hnons hsv ⊢
    obtain ⟨rs, p₁, last, hinit, hlast, rfl⟩ := Machine.run_append_eq_ok.mp h
    obtain ⟨r, p₂, rest, hstep, hrest, rfl⟩ := Machine.run_cons_eq_ok.mp hlast
    obtain ⟨rfl, rfl⟩ := Prod.mk.inj (Except.ok.inj hrest)
    obtain ⟨-, pre, b, after, hbs, hb, hlen⟩ :=
      exists_own_block hspec (run_bounded hspec hinit hp.bounded) hstep
    have hall : (rs ++ [r]).flatMap OutputResult.blocks =
        (rs.flatMap OutputResult.blocks ++ pre) ++ b :: after := by
      rw [flatMap_append, flatMap_singleton, hbs, append_assoc]
    have hstms := run_stamps hspec h (hp.sourced fun _ hq => hq) (List.Subset.refl _)
    rw [hall] at hnumbered hstms ⊢
    have ho : o ∈ saved := hsv (mem_append_right _ mem_cons_self)
    rw [highestExecutedAnchor_eq hnons hnumbered hstms hb (hlen.trans (by decide)),
      Option.some_or, List.getLast?_concat, lastExecutedConsensusFromAnchor]
    simp only [ne_eq, Option.filter_some, hnonzero o ho, not_false_eq_true, decide_true, if_true]
    exact getCanonicalConsensusByHash_savedBlocks hnums hdigs ho

omit [Evm σ] [HashFunction] in
theorem nonce_lt {o' : ConsensusOutput} (hrnd : o.leader.round < 4294967296)
    (hrnd' : o'.leader.round < 4294967296) (h : o.subDag.position < o'.subDag.position) :
    o.nonce < o'.nonce := by
  change packNonce o.epoch o.leader.round < packNonce o'.epoch o'.leader.round
  rw [packNonce_eq hrnd, packNonce_eq hrnd']
  have : o.epoch < o'.epoch ∨ o.epoch = o'.epoch ∧ o.leader.round < o'.leader.round :=
    Prod.Lex.toLex_lt_toLex.mp h
  omega

/-- A restart between two outputs finds the header of the last one that was executed. -/
theorem restart_anchor_exact (hspec : cfg.spec.AllActive) (hp : p.Fresh)
    (h : p.run cfg outputs = .ok (results, p')) {later : List ConsensusOutput}
    (hpositions : ((outputs ++ later).map fun o => o.subDag.position).Pairwise (· < ·))
    (hrounds : ∀ o ∈ outputs ++ later, o.leader.round < 4294967296)
    (hnumbers : ((outputs ++ later).map number).Pairwise (· < ·))
    (hhash : Function.Injective HashFunction.hash) (hnonzero : ∀ o ∈ outputs ++ later, o.digest ≠ 0) :
    recoverExecutedAnchor p'.chain p'.head (savedBlocks (outputs ++ later)) =
      outputs.getLast?.map consensusHeader := by
  refine recoverExecutedAnchor_eq hspec hp h ?_ (subset_append_left _ _) hnumbers ?_ hnonzero
  · rw [map_append, pairwise_append, pairwise_map] at hpositions
    refine pairwise_map.mpr (hpositions.1.imp_of_mem fun ho ho' hlt => ?_)
    exact nonce_lt (hrounds _ (mem_append_left _ ho)) (hrounds _ (mem_append_left _ ho')) hlt
  · rw [pairwise_map] at hnumbers
    refine pairwise_map.mpr (hnumbers.imp fun hlt heq => ?_)
    exact ne_of_lt hlt (ConsensusHeader.eq_of_digest_eq hhash heq).2.2

end Processor

end

/-- The tip is the block of a drained batch and carries the nonce of the first output. -/
theorem Processor.restart_anchor_exact_drained :
    letI := HashFunction.encode
    let first := ofBatches 1 2 [numbered 1 11, numbered 3 13]
    let second := ofBatches 1 4 [numbered 2 12]
    let third := ofBatches 1 6 [numbered 4 14]
    ∃ results p', initial.run .allActive [first, second] = .ok (results, p') ∧
      p'.head.nonce = first.nonce ∧
      recoverExecutedAnchor p'.chain p'.head (savedBlocks [first, second, third]) =
        some second.consensusHeader := by
  let _ := HashFunction.encode
  intro first second third
  obtain ⟨results, p', hok, hnonce⟩ : ∃ results p',
      initial.run .allActive [first, second] = .ok (results, p') ∧
        p'.head.nonce = first.nonce := by
    decide +kernel
  have hpositions : (([first, second] ++ [third]).map fun o => o.subDag.position).Pairwise (· < ·) := by
    decide +kernel
  exact ⟨results, p', hok, hnonce, restart_anchor_exact ChainSpec.allActive_spec
    ⟨rfl, rfl, rfl, rfl⟩ hok hpositions (by decide +kernel) (by decide +kernel)
    Encodable.encode_injective (by decide +kernel)⟩

end Axyl
