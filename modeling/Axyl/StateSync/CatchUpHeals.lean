import Axyl.StateSync.Attempt
import Mathlib.Data.Finset.Card
import Mathlib.Order.Interval.Finset.Nat

/-! The forward streamer recovers once peers answer with the chain. Every attempt then reaches its
target or clears a header that is not of the chain, so a potential bounds the steps it takes. -/

namespace Axyl
open Finset Reactor HashFunction
open Std (ExtTreeMap)
open Std.ExtTreeMap

namespace CatchUpNode

def stepsLeft : CatchUpStage → Nat
  | .lookup => 3
  | .request => 2
  | .check _ _ => 1

theorem not_acts_of_done {n : CatchUpNode} (hcatchUp : n.streamer.catchUp = none)
    (hpend : n.streamer.pendingCatchUpTarget = none) (hchd : n.changed = false) :
    ∀ event, ¬ n.Acts event := by
  intro event hacts
  cases event with
  | changed => exact absurd (hchd.symm.trans hacts.2.1) nofun
  | retry =>
    obtain ⟨-, target, htgt, -⟩ := hacts
    cases hpend.symm.trans htgt
  | lookup | reply | forward =>
    obtain ⟨c, hc, -⟩ := hacts
    cases hcatchUp.symm.trans hc
  | publish | walk | receive | deliver => exact hacts

section
variable {n : CatchUpNode} {k : Nat} {g x : ConsensusHeader}

theorem mem_row_insert (hg : g ∈ row { n with cache := n.cache.insert x.number x } k) :
    g ∈ n.row k ∨ (k = x.number ∧ g = x) := by
  unfold row getConsensusByNumber at hg ⊢
  cases hblk : n.blocks[k]? with
  | some y =>
    rw [hblk] at hg
    exact .inl hg
  | none =>
    rw [hblk, getElem?_insert] at hg
    split at hg
    · next heq =>
      cases hg
      exact .inr ⟨(Nat.compare_eq_eq.mp heq).symm, rfl⟩
    · exact .inl hg

theorem mem_row_pass {n' : CatchUpNode} (gap : Bool) (hg : g ∈ n'.row k)
    (hbs : n'.blocks = n.blocks)
    (hcache : n'.cache = if gap then n.cache.insert x.number x else n.cache) :
    g ∈ n.row k ∨ (gap = true ∧ k = x.number ∧ g = x) := by
  have hg : g ∈ row { n with cache := n'.cache } k := by
    unfold row at hg ⊢
    rw [hbs] at hg
    exact hg
  rw [hcache] at hg
  cases gap with
  | false => exact .inl hg
  | true => exact (mem_row_insert hg).imp_right fun h => ⟨rfl, h⟩

theorem mem_row_erase {j : Nat}
    (hg : g ∈ row { n with cache := n.cache.erase j } k) : g ∈ n.row k := by
  unfold row getConsensusByNumber at hg ⊢
  cases hblk : n.blocks[k]? with
  | some y =>
    rw [hblk] at hg
    exact hg
  | none =>
    rw [hblk, getElem?_erase] at hg
    split at hg
    · cases hg
    · exact hg

theorem mem_row_save {e : SubscriberEffect}
    (hg : g ∈ (n.save e).row k) : g ∈ n.row k ∨ g = e.header := by
  cases e with
  | sent => exact .inl hg
  | saved x =>
    change g ∈ ((n.blocks.insert x.number x)[k]?).or (n.cache.erase x.number)[k]? at hg
    rw [getElem?_insert, getElem?_erase] at hg
    split at hg
    · cases hg
      exact .inr rfl
    · exact .inl hg

end

section
variable [HashFunction]

section
variable (cfg : SubscriberConfig) (anchor : ConsensusHeader) (subDags : List CommittedSubDag)
  (n : CatchUpNode)

/-- The row links to the header of the chain below it, or to the row below it if the attempt has
passed that one. -/
def Supported (c : CatchUp) (header : ConsensusHeader) : Prop :=
  (∃ g ∈ anchor :: chainFrom anchor subDags, g.number + 1 = c.number ∧
    header.parentHash = g.digest) ∨
  (c.lastConsensusHeight + 1 < c.number ∧ ∃ g ∈ n.row (c.number - 1), header.parentHash = g.digest)

instance decidableSupported (c : CatchUp) (header : ConsensusHeader) :
    Decidable (Supported anchor subDags n c header) :=
  inferInstanceAs (Decidable (_ ∨ _))

/-- The walk and the peers deliver headers of the chain and execution keeps up. A row that is
checked is not of a closed epoch, and it is supported if it is not of the chain. -/
def Healthy : CatchUpEvent → Prop
  | .walk header => header ∈ chainFrom anchor subDags
  | .reply answers =>
    ∀ c ∈ n.streamer.catchUp, c.stage = .request →
      ∃ header ∈ chainFrom anchor subDags, requestConsensus c.number answers = some header
  | .forward executed =>
    executed = true ∧ ∀ c ∈ n.streamer.catchUp, ∀ header ∈ c.stage.held,
      c.stage = .check header false → cfg.epoch ≤ header.subDag.leaderEpoch ∧
        (¬ OnChain anchor subDags header → Supported anchor subDags n c header)
  | _ => True

instance decidableHealthy :
    (event : CatchUpEvent) → Decidable (Healthy cfg anchor subDags n event)
  | .walk _ => inferInstanceAs (Decidable (_ ∈ _))
  | .reply _ => inferInstanceAs (Decidable (∀ _ ∈ n.streamer.catchUp, _ → ∃ _ ∈ _, _))
  | .forward _ => inferInstanceAs (Decidable (_ ∧ ∀ _ ∈ n.streamer.catchUp, ∀ _ ∈ _, _))
  | .publish _ | .changed | .retry | .lookup | .receive _ | .deliver _ => isTrue trivial

/-- A number whose row is not of the chain, or whose header the streamer holds or has just sent is
not. -/
def Poisoned (k : Nat) : Prop :=
  (∃ g ∈ n.row k, ¬ OnChain anchor subDags g) ∨ ∃ c ∈ n.streamer.catchUp,
    (c.resultHeader.number = k ∧ ¬ OnChain anchor subDags c.resultHeader) ∨
      (c.number = k ∧ ∃ x ∈ c.stage.held, ¬ OnChain anchor subDags x)

instance decidablePoisoned (k : Nat) : Decidable (Poisoned anchor subDags n k) :=
  inferInstanceAs (Decidable (_ ∨ _))

def poisoned : Finset Nat :=
  (Finset.Ioc n.streamer.lastConsensusHeader.number (anchor.number + subDags.length)).filter
    (Poisoned anchor subDags n)

/-- The attempt agrees with the rows: one that is not of the chain is the header that the attempt
holds or has just sent, and what it holds from a peer is no row. -/
structure Settled (c : CatchUp) : Prop where
  result : n.streamer.lastConsensusHeader.number < c.resultHeader.number →
    ∀ g ∈ n.row c.resultHeader.number, ¬ OnChain anchor subDags g → g = c.resultHeader
  request : c.stage = .request → ∀ g ∈ n.row c.number, OnChain anchor subDags g
  gap : ∀ x, c.stage = .check x true → (∀ g ∈ n.row c.number, OnChain anchor subDags g) ∧
    (OnChain anchor subDags x → cfg.epoch ≤ x.subDag.leaderEpoch)
  held : ∀ x, c.stage = .check x false → c.number < c.maxConsensus.number →
    ∀ g ∈ n.row c.number, ¬ OnChain anchor subDags g → g = x

open Classical in
noncomputable def unsettled : Nat :=
  if ∀ c ∈ n.streamer.catchUp, Settled cfg anchor subDags n c then 0 else 1

noncomputable def weight : Nat :=
  anchor.number + subDags.length - n.streamer.lastConsensusHeader.number +
    (poisoned anchor subDags n).card + unsettled cfg anchor subDags n

def remaining (s : Streamer) : Nat :=
  (s.catchUp.map fun c =>
    3 * (anchor.number + subDags.length - c.number) + stepsLeft c.stage).getD (3 * subDags.length + 1)

noncomputable def potential : Nat :=
  weight cfg anchor subDags n * (3 * subDags.length + 2) + remaining anchor subDags n.streamer

end

section
variable {cfg : SubscriberConfig} {anc : ConsensusHeader} {dags : List CommittedSubDag}
  {n n' : CatchUpNode} {c : CatchUp} {x : ConsensusHeader} {bef : Nat}
  {sent : List ConsensusHeader}

theorem unsettled_le_one : unsettled cfg anc dags n ≤ 1 := by
  unfold unsettled
  split
  · omega
  · omega

theorem unsettled_of_settled (h : ∀ c ∈ n.streamer.catchUp, Settled cfg anc dags n c) :
    unsettled cfg anc dags n = 0 := if_pos h

theorem unsettled_le (h : (∀ c ∈ n.streamer.catchUp, Settled cfg anc dags n c) →
    ∀ c ∈ n'.streamer.catchUp, Settled cfg anc dags n' c) :
    unsettled cfg anc dags n' ≤ unsettled cfg anc dags n := by
  by_cases hn : ∀ c ∈ n.streamer.catchUp, Settled cfg anc dags n c
  · rw [unsettled_of_settled (h hn)]
    omega
  · exact le_trans unsettled_le_one (le_of_eq (if_neg hn).symm)

section
variable (hlast : n.streamer.lastConsensusHeader.number ≤ n'.streamer.lastConsensusHeader.number)
include hlast

section
variable (h : ∀ k, Poisoned anc dags n' k → Poisoned anc dags n k)
include h

theorem poisoned_subset : poisoned anc dags n' ⊆ poisoned anc dags n := by
  intro k hk
  obtain ⟨hmem, hpois⟩ := mem_filter.mp hk
  obtain ⟨hlt, hle⟩ := mem_Ioc.mp hmem
  exact mem_filter.mpr ⟨mem_Ioc.mpr ⟨lt_of_le_of_lt hlast hlt, hle⟩, h k hpois⟩

theorem card_poisoned_lt {k : Nat} (hlt : n.streamer.lastConsensusHeader.number < k)
    (hle : k ≤ anc.number + dags.length) (hbef : Poisoned anc dags n k)
    (haft : ¬ Poisoned anc dags n' k) :
    (poisoned anc dags n').card < (poisoned anc dags n).card := by
  apply Finset.card_lt_card
  refine Finset.ssubset_iff_subset_ne.mpr ⟨poisoned_subset hlast h, fun heq => haft ?_⟩
  have hmem : k ∈ poisoned anc dags n := Finset.mem_filter.mpr ⟨Finset.mem_Ioc.mpr ⟨hlt, hle⟩, hbef⟩
  rw [← heq] at hmem
  exact (Finset.mem_filter.mp hmem).2

theorem weight_le (hset : (∀ c ∈ n.streamer.catchUp, Settled cfg anc dags n c) →
      ∀ c ∈ n'.streamer.catchUp, Settled cfg anc dags n' c) :
    weight cfg anc dags n' ≤ weight cfg anc dags n := by
  have hcard := card_le_card (poisoned_subset hlast h)
  have hunsettled := unsettled_le hset
  unfold weight
  omega

end

end

theorem potential_of_step (hwt : weight cfg anc dags n' ≤ weight cfg anc dags n)
    (hrem : remaining anc dags n'.streamer < remaining anc dags n.streamer) :
    potential cfg anc dags n' + 1 ≤ potential cfg anc dags n := by
  have hmul := Nat.mul_le_mul_right (3 * dags.length + 2) hwt
  unfold potential
  omega

theorem potential_of_end (hwt : weight cfg anc dags n' < weight cfg anc dags n)
    (hidle : n'.streamer.catchUp = none) :
    potential cfg anc dags n' + 1 ≤ potential cfg anc dags n := by
  have hmul := Nat.mul_le_mul_right (3 * dags.length + 2) hwt
  have hrem : remaining anc dags n'.streamer = 3 * dags.length + 1 := by
    rw [remaining, hidle]
    rfl
  rw [Nat.succ_eq_add_one, Nat.add_mul] at hmul
  unfold potential
  omega

section
variable (hlast : n'.streamer.lastConsensusHeader = n.streamer.lastConsensusHeader)
  (hcatchUp : n'.streamer.catchUp = n.streamer.catchUp)
  (hrows : ∀ k, ∀ g ∈ n'.row k, ¬ OnChain anc dags g → g ∈ n.row k)
include hlast hcatchUp hrows

theorem weight_of_rows : weight cfg anc dags n' ≤ weight cfg anc dags n := by
  have honly : ∀ k, (∀ g ∈ n.row k, OnChain anc dags g) →
      ∀ g ∈ n'.row k, OnChain anc dags g := by
    intro k hk g hg
    by_contra hnot
    exact hnot (hk g (hrows k g hg hnot))
  apply weight_le
  · rw [hlast]
  · rintro k (⟨g, hg, hnot⟩ | hatt)
    · exact .inl ⟨g, hrows k g hg hnot, hnot⟩
    · rw [hcatchUp] at hatt
      exact .inr hatt
  · intro hset c hc
    rw [hcatchUp] at hc
    obtain ⟨hres, hreq, hgap, hheld⟩ := hset c hc
    refine ⟨fun hlt g hg hnot => ?_, fun hstg => honly _ (hreq hstg), fun x hstg => ?_,
      fun x hstg hlt g hg hnot => ?_⟩
    · rw [hlast] at hlt
      exact hres hlt g (hrows _ g hg hnot) hnot
    · exact ⟨honly _ (hgap x hstg).1, (hgap x hstg).2⟩
    · exact hheld x hstg hlt g (hrows _ g hg hnot) hnot

theorem potential_of_rows : potential cfg anc dags n' ≤ potential cfg anc dags n := by
  have hwt : weight cfg anc dags n' ≤ weight cfg anc dags n := weight_of_rows hlast hcatchUp hrows
  unfold potential remaining
  rw [hcatchUp]
  exact Nat.add_le_add_right (Nat.mul_le_mul_right _ hwt) _

end

theorem potential_saveAll {es : List SubscriberEffect}
    (hes : ∀ e ∈ es, e.header ∈ chainFrom anc dags) :
    potential cfg anc dags (es.foldl save n) ≤ potential cfg anc dags n := by
  induction es generalizing n with
  | nil => exact le_refl _
  | cons e es ih =>
    obtain ⟨he, hes⟩ := List.forall_mem_cons.mp hes
    refine le_trans (ih hes) (potential_of_rows ?_ ?_ fun k g hg hnot => ?_)
    · cases e <;> rfl
    · cases e <;> rfl
    · rcases mem_row_save hg with hg | rfl
      · exact hg
      · exact absurd (onChain_of_mem he) hnot

theorem potential_withStage (hc : c ∈ n.streamer.catchUp) {stage : CatchUpStage}
    (hleft : stepsLeft stage < stepsLeft c.stage)
    (hpois : ∀ x ∈ stage.held, ¬ OnChain anc dags x → Poisoned anc dags n c.number)
    (hset : Settled cfg anc dags n c → Settled cfg anc dags n { c with stage }) :
    potential cfg anc dags (n.withStage c stage) + 1 ≤ potential cfg anc dags n := by
  apply potential_of_step
  · apply weight_le
    · exact le_refl _
    · rintro k (hrow | ⟨_, ⟨⟩, hres | ⟨rfl, x, hx, hnot⟩⟩)
      · exact .inl hrow
      · exact .inr ⟨c, hc, .inl hres⟩
      · exact hpois x hx hnot
    · intro hbef
      rintro _ ⟨⟩
      have haft := hset (hbef c hc)
      exact { haft with }
  · have hrem : remaining anc dags n.streamer =
        3 * (anc.number + dags.length - c.number) + stepsLeft c.stage := by
      rw [remaining, hc]
      rfl
    rw [hrem]
    exact Nat.add_lt_add_left hleft _

section
variable (hidle : n'.streamer.catchUp = none)
  (hlast : n.streamer.lastConsensusHeader.number ≤ n'.streamer.lastConsensusHeader.number)
  (hrows : ∀ k, ∀ g ∈ n'.row k, ¬ OnChain anc dags g → g ∈ n.row k)
include hidle

theorem not_poisoned_of_idle {k : Nat} (hclean : ∀ g ∈ n'.row k, OnChain anc dags g) :
    ¬ Poisoned anc dags n' k := by
  rintro (⟨g, hg, hnot⟩ | ⟨c, hc, -⟩)
  · exact hnot (hclean g hg)
  · cases hidle.symm.trans hc

theorem unsettled_of_idle : unsettled cfg anc dags n' = 0 := by
  apply unsettled_of_settled
  intro c hc
  cases hidle.symm.trans hc

include hrows

theorem poisoned_of_idle {k : Nat} (hk : Poisoned anc dags n' k) : Poisoned anc dags n k := by
  rcases hk with ⟨g, hg, hnot⟩ | ⟨c, hc, -⟩
  · exact .inl ⟨g, hrows k g hg hnot, hnot⟩
  · cases hidle.symm.trans hc

include hlast

theorem weight_lt_of_end (h : (∀ c ∈ n.streamer.catchUp, Settled cfg anc dags n c) →
      ∃ k, n.streamer.lastConsensusHeader.number < k ∧ k ≤ anc.number + dags.length ∧
        Poisoned anc dags n k ∧ ∀ g ∈ n'.row k, OnChain anc dags g) :
    weight cfg anc dags n' < weight cfg anc dags n := by
  have hpois := fun k => poisoned_of_idle hidle hrows (k := k)
  have haft : unsettled cfg anc dags n' = 0 := unsettled_of_idle hidle
  by_cases hset : ∀ c ∈ n.streamer.catchUp, Settled cfg anc dags n c
  · obtain ⟨k, hlt, hle, hbef, hclean⟩ := h hset
    have hcard := card_poisoned_lt hlast hpois hlt hle hbef (not_poisoned_of_idle hidle hclean)
    unfold weight
    omega
  · have hcard := card_le_card (poisoned_subset hlast hpois)
    have hbef : unsettled cfg anc dags n = 1 := if_neg hset
    unfold weight
    omega

theorem weight_lt_of_reached
    (hlt : n.streamer.lastConsensusHeader.number < n'.streamer.lastConsensusHeader.number)
    (hle : n'.streamer.lastConsensusHeader.number ≤ anc.number + dags.length) :
    weight cfg anc dags n' < weight cfg anc dags n := by
  have hcard := card_le_card
    (poisoned_subset hlast fun k => poisoned_of_idle hidle hrows (k := k))
  have haft : unsettled cfg anc dags n' = 0 := unsettled_of_idle hidle
  unfold weight
  omega

end

section
variable (hhash : Function.Injective hash)
  (ht : Tracked anc dags bef sent n) (hc : c ∈ n.streamer.catchUp)
include hhash ht hc

theorem number_le_end : c.number ≤ anc.number + dags.length :=
  le_trans (ht.catchUp c hc).le
    ((onChain_of_mem (ht.catchUp c hc).max_mem).le_length hhash)

variable {gap : Bool}

theorem potential_closed (hstg : c.stage = .check x gap) (hcls : x.subDag.leaderEpoch < cfg.epoch)
    (hrow : c.stage = .check x false → cfg.epoch ≤ x.subDag.leaderEpoch) :
    potential cfg anc dags { n with streamer := .caughtUp c.maxConsensus c.resultHeader } + 1 ≤
      potential cfg anc dags n := by
  have hatt := ht.catchUp c hc
  cases gap with
  | false => exact absurd (hrow hstg) (by omega)
  | true =>
    apply potential_of_end _ rfl
    refine weight_lt_of_end rfl ?_ (fun k g hg _ => hg) fun hset => ?_
    · have := hatt.lt
      have := hatt.result_number
      change _ ≤ c.resultHeader.number
      omega
    · obtain ⟨hrows, hopen⟩ := (hset c hc).gap x hstg
      refine ⟨c.number, hatt.lt, number_le_end hhash ht hc, .inr ⟨c, hc, .inr ⟨rfl, x, ?_, ?_⟩⟩,
        hrows⟩
      · rw [hstg]
        rfl
      · intro hx
        exact absurd (hopen hx) (by omega)

theorem row_mismatch (hres : ¬ OnChain anc dags c.resultHeader) :
    ∀ g ∈ (n.mismatch c).row c.resultHeader.number, OnChain anc dags g := by
  have hatt := ht.catchUp c hc
  have hlt := hatt.lt_result hres
  have hanc := ht.last.base_le hhash
  have hnum : c.number - 1 = c.resultHeader.number := by
    have := hatt.result_number
    omega
  have hbs : ∀ y, n.blocks[c.resultHeader.number]? = some y → OnChain anc dags y := by
    intro y hy
    exact onChain_of_mem (ht.blocks _ y (by omega) hy).1
  have hpois : c.lastConsensusHeight < c.resultHeader.number ∧
      n.blocks[c.resultHeader.number]?.map ConsensusHeader.digest ≠ some c.lastParent := by
    refine ⟨hatt.height_eq ▸ hlt, fun heq => ?_⟩
    obtain ⟨y, hy, hdig⟩ := Option.map_eq_some_iff.mp heq
    obtain ⟨g, hg, hsame⟩ := hbs y hy
    exact hres ⟨g, hg, hsame.trans (hdig.trans hatt.lastParent_eq)⟩
  intro g hg
  unfold row mismatch getConsensusByNumber at hg
  dsimp only at hg
  rw [hnum, if_pos hpois, getElem?_erase, if_pos (Nat.compare_eq_eq.mpr rfl),
    Option.or_none] at hg
  exact hbs g hg

theorem links_of_supported (hset : Settled cfg anc dags n c)
    (hres : OnChain anc dags c.resultHeader)
    (hsupported : Supported anc dags n c x) : x.parentHash = c.lastParent := by
  have hatt := ht.catchUp c hc
  have hnum := hatt.result_number
  rw [hatt.lastParent_eq]
  rcases hsupported with ⟨g, hg, hbel, hpar⟩ | ⟨hlt, g, hg, hpar⟩
  · rw [hpar]
    exact OnChain.digest_eq hhash ⟨g, hg, rfl⟩ hres (by omega)
  · have hbel : c.number - 1 = c.resultHeader.number := by omega
    rw [hatt.height_eq] at hlt
    rw [hbel] at hg
    by_cases hon : OnChain anc dags g
    · have hanc := ht.last.base_le hhash
      have hgn : g.number = c.resultHeader.number := ht.number_of_row (by omega) hg
      rw [hpar]
      exact hon.digest_eq hhash hres hgn
    · rw [hpar, hset.result (by omega) g hg hon]

section
variable (hstg : c.stage = .check x gap)
include hstg

theorem potential_mismatch (hlnk : expectedDigest c x ≠ x.digest)
    (hrow : c.stage = .check x false → ¬ OnChain anc dags x → Supported anc dags n c x) :
    potential cfg anc dags (n.mismatch c) + 1 ≤ potential cfg anc dags n := by
  have hatt := ht.catchUp c hc
  have hrows : ∀ k, ∀ g ∈ (n.mismatch c).row k, g ∈ n.row k := by
    intro k g hg
    unfold mismatch at hg
    dsimp only at hg
    split at hg
    · exact mem_row_erase hg
    · exact hg
  apply potential_of_end _ rfl
  refine weight_lt_of_end rfl (le_refl _) (fun k g hg _ => hrows k g hg) fun hset => ?_
  have hend := number_le_end hhash ht hc
  have hnum := hatt.result_number
  by_cases hres : OnChain anc dags c.resultHeader
  · have hoff : ¬ OnChain anc dags x := by
      intro hx
      have hxn := (hatt.check x gap hstg).1
      refine hlnk (expectedDigest_of_links ?_ hxn)
      rw [hatt.lastParent_eq]
      exact hx.parentHash_eq hhash hres (by omega)
    cases gap with
    | false =>
      have hpar := links_of_supported hhash ht hc (hset c hc) hres (hrow hstg hoff)
      exact absurd (expectedDigest_of_links hpar (hatt.check x _ hstg).1) hlnk
    | true =>
      have hclean := ((hset c hc).gap x hstg).1
      refine ⟨c.number, hatt.lt, hend, .inr ⟨c, hc, .inr ⟨rfl, x, ?_, hoff⟩⟩,
        fun g hg => hclean g (hrows _ g hg)⟩
      rw [hstg]
      rfl
  · exact ⟨c.resultHeader.number, hatt.lt_result hres, by omega,
      .inr ⟨c, hc, .inl ⟨rfl, hres⟩⟩, row_mismatch hhash ht hc hres⟩

theorem potential_reached (hend : c.number = c.maxConsensus.number) :
    potential cfg anc dags { n with
      cache := if gap then n.cache.insert x.number x else n.cache
      channel := n.channel ++ [x]
      streamer := .caughtUp c.maxConsensus x } + 1 ≤ potential cfg anc dags n := by
  have hatt := ht.catchUp c hc
  obtain ⟨-, hgap, hmax⟩ := hatt.check x gap hstg
  have hle := number_le_end hhash ht hc
  obtain rfl := hmax hend
  obtain rfl : gap = false := by
    cases gap with
    | false => rfl
    | true => exact absurd hend (ne_of_lt (hgap rfl))
  have hlt : n.streamer.lastConsensusHeader.number < c.maxConsensus.number :=
    lt_of_lt_of_le hatt.lt hatt.le
  apply potential_of_end _ rfl
  exact weight_lt_of_reached rfl (le_of_lt hlt) (fun k g hg _ => hg) hlt (hend ▸ hle)

theorem potential_passed (hend : c.number ≠ c.maxConsensus.number) :
    potential cfg anc dags (withStage { n with
      cache := if gap then n.cache.insert x.number x else n.cache
      channel := n.channel ++ [x] }
      { c with number := c.number + 1, lastParent := x.digest, resultHeader := x } .lookup) + 1 ≤
        potential cfg anc dags n := by
  have hatt := ht.catchUp c hc
  have hxn := (hatt.check x gap hstg).1
  have hlt := lt_of_le_of_ne hatt.le hend
  have hheld : ¬ OnChain anc dags x → Poisoned anc dags n c.number := by
    intro hnot
    refine .inr ⟨c, hc, .inr ⟨rfl, x, ?_, hnot⟩⟩
    rw [hstg]
    rfl
  apply potential_of_step
  · apply weight_le
    · exact le_refl _
    · rintro k (⟨g, hg, hnot⟩ | ⟨_, ⟨⟩, ⟨hk, hnot⟩ | ⟨-, _, ⟨⟩, -⟩⟩)
      · rcases mem_row_pass (n := n) (x := x) gap hg rfl rfl with hg | ⟨-, rfl, rfl⟩
        · exact .inl ⟨g, hg, hnot⟩
        · rw [hxn]
          exact hheld hnot
      · rw [← hk, hxn]
        exact hheld hnot
    · intro hset
      have hbef := hset c hc
      rintro _ ⟨⟩
      refine ⟨fun _ g hg hnot => ?_, nofun, nofun, nofun⟩
      rcases mem_row_pass (n := n) (x := x) gap hg rfl rfl with hrow | ⟨-, -, rfl⟩
      · rw [hxn] at hrow
        cases gap with
        | false => exact hbef.held x hstg hlt g hrow hnot
        | true => exact absurd ((hbef.gap x hstg).1 g hrow) hnot
      · rfl
  · have hmaxend := (onChain_of_mem hatt.max_mem).le_length hhash
    have hbef : remaining anc dags n.streamer =
        3 * (anc.number + dags.length - c.number) + 1 := by
      rw [remaining, hc, Option.map_some, hstg]
      rfl
    change 3 * (anc.number + dags.length - (c.number + 1)) + 3 < _
    omega

end

end

section
variable (hhash : Function.Injective hash)
include hhash

section
variable (ht : Tracked anc dags bef sent n)
include ht

theorem potential_attempt (hidle : n.streamer.catchUp = none) (hx : x ∈ chainFrom anc dags)
    (hlt : n.streamer.lastConsensusHeader.number < x.number) (changed : Bool) :
    potential cfg anc dags { n with changed, streamer := n.streamer.attempt x } + 1 ≤
      potential cfg anc dags n := by
  apply potential_of_step
  · apply weight_le
    · exact le_refl _
    · rintro k (hrow | ⟨_, ⟨⟩, ⟨-, hnot⟩ | ⟨-, _, ⟨⟩, -⟩⟩)
      · exact .inl hrow
      · exact absurd ht.last hnot
    · intro _
      rintro _ ⟨⟩
      exact ⟨fun h => absurd h (lt_irrefl _), nofun, nofun, nofun⟩
  · have hanc := ht.last.base_le hhash
    have hend := (onChain_of_mem hx).le_length hhash
    have hbef : remaining anc dags n.streamer = 3 * dags.length + 1 := by
      rw [remaining, hidle]
      rfl
    change 3 * (anc.number + dags.length - (n.streamer.lastConsensusHeader.number + 1)) + 3 < _
    omega

theorem potential_change (hep : ∀ d ∈ dags, cfg.epoch ≤ d.leaderEpoch) {ev : CatchUpEvent}
    {fx : List CatchUpEffect} (hchg : Change cfg n ev fx n')
    (hsnd : Sound cfg anc dags n ev) (hev : Healthy cfg anc dags n ev) :
    potential cfg anc dags n' + (if n.Acts ev then 1 else 0) ≤ potential cfg anc dags n := by
  have hacts {n' : CatchUpNode} (h : potential cfg anc dags n' + 1 ≤ potential cfg anc dags n) :
      potential cfg anc dags n' + (if n.Acts ev then 1 else 0) ≤
        potential cfg anc dags n := by
    split <;> omega
  have hnot {n' : CatchUpNode} (hqt : ¬ n.Acts ev)
      (h : potential cfg anc dags n' ≤ potential cfg anc dags n) :
      potential cfg anc dags n' + (if n.Acts ev then 1 else 0) ≤
        potential cfg anc dags n := by
    rw [if_neg hqt]
    exact h
  cases hchg with
  | quiet hqt => exact hnot hqt (le_refl _)
  | published => exact hnot id (potential_of_rows rfl rfl fun k g hg _ => hg)
  | walked x =>
    refine hnot id (potential_of_rows rfl rfl fun k g hg hoff => ?_)
    rcases mem_row_insert hg with hg | ⟨-, rfl⟩
    · exact hg
    · exact absurd (onChain_of_mem hev) hoff
  | seen hle =>
    refine hnot (fun h => absurd h.2.2 (Nat.not_lt_of_ge hle)) ?_
    exact potential_of_rows rfl rfl fun k g hg _ => hg
  | dropped hidle htgt hle =>
    refine hnot ?_ (potential_of_rows rfl rfl fun k g hg _ => hg)
    rintro ⟨-, target, htgt', hlt⟩
    cases htgt.symm.trans htgt'
    omega
  | noticed hidle hchd hlt =>
    exact hacts (potential_attempt hhash ht hidle (ht.latest hchd) hlt false)
  | retried hidle htgt hlt =>
    exact hacts (potential_attempt hhash ht hidle (ht.pending _ htgt) hlt n.changed)
  | aimed hc hstg hend =>
    refine hacts (potential_withStage hc (by simp [hstg, stepsLeft]) ?_ fun hset => ?_)
    · rintro _ ⟨⟩ hnot
      exact absurd (onChain_of_mem (ht.catchUp _ hc).max_mem) hnot
    · refine ⟨hset.result, nofun, ?_, fun _ _ hlt => absurd hend (ne_of_lt hlt)⟩
      rintro _ ⟨⟩
  | @found c x hc hstg hend hx =>
    refine hacts (potential_withStage hc (by simp [hstg, stepsLeft]) ?_ fun hset => ?_)
    · rintro _ ⟨⟩ hnot
      exact .inl ⟨x, hx, hnot⟩
    · refine ⟨hset.result, nofun, nofun, ?_⟩
      rintro _ ⟨⟩ _ g hg _
      exact Option.some.inj (hg.symm.trans hx)
  | missing hc hstg hend hnone =>
    refine hacts (potential_withStage hc (by simp [hstg, stepsLeft]) nofun fun hset => ?_)
    refine ⟨hset.result, fun _ g hg => ?_, nofun, nofun⟩
    cases hnone.symm.trans hg
  | answered hc hstg hx =>
    obtain ⟨x', hmem, hx'⟩ := hev _ hc hstg
    cases hx.symm.trans hx'
    refine hacts (potential_withStage hc (by simp [hstg, stepsLeft]) ?_ fun hset => ?_)
    · rintro _ ⟨⟩ hnot
      exact absurd (onChain_of_mem hmem) hnot
    · refine ⟨hset.result, nofun, ?_, nofun⟩
      rintro _ ⟨⟩
      exact ⟨hset.request hstg, fun _ => hep _ (subDag_mem_of_mem_chainFrom hmem)⟩
  | unanswered hc hstg hnone =>
    obtain ⟨x, -, hx⟩ := hev _ hc hstg
    cases hnone.symm.trans hx
  | closed exec hc hstg hcls =>
    refine hacts (potential_closed hhash ht hc hstg hcls fun h => (hev.2 _ hc _ ?_ h).1)
    rw [hstg]
    rfl
  | mismatched exec hc hstg hlnk =>
    refine hacts (potential_mismatch hhash ht hc hstg hlnk fun h => (hev.2 _ hc _ ?_ h).2)
    rw [hstg]
    rfl
  | late => cases hev.1
  | reached hc hstg hlnk hend => exact hacts (potential_reached hhash ht hc hstg hend)
  | passed hc hstg hlnk hend => exact hacts (potential_passed hhash ht hc hstg hend)
  | received => exact hnot id (potential_of_rows rfl rfl fun k g hg _ => hg)
  | @delivered f sends hf =>
    have hsv : potential cfg anc dags ((f.deliver cfg sends).1.foldl save n) ≤
        potential cfg anc dags n := potential_saveAll (hsnd f hf)
    refine hnot id (le_trans ?_ hsv)
    exact potential_of_rows rfl rfl fun k g hg _ => hg

theorem potential_lt :
    potential cfg anc dags n < (2 * dags.length + 2) * (3 * dags.length + 2) := by
  have hanc := ht.last.base_le hhash
  have hcard : (poisoned anc dags n).card ≤
      anc.number + dags.length - n.streamer.lastConsensusHeader.number := by
    rw [← Nat.card_Ioc]
    exact card_le_card (filter_subset _ _)
  have hunsettled : unsettled cfg anc dags n ≤ 1 := unsettled_le_one
  have hwt : weight cfg anc dags n ≤ 2 * dags.length + 1 := by
    unfold weight
    omega
  have hrem : remaining anc dags n.streamer ≤ 3 * dags.length + 1 := by
    unfold remaining
    cases hc : n.streamer.catchUp with
    | none => exact le_refl _
    | some c =>
      have hlt := ht.anchor_lt hhash hc
      have hle := number_le_end hhash ht hc
      have hleft : stepsLeft c.stage ≤ 3 := by
        cases c.stage <;> simp [stepsLeft]
      rw [Option.map_some, Option.getD_some]
      omega
  have hmul := Nat.mul_le_mul_right (3 * dags.length + 2) hwt
  have hspl : (2 * dags.length + 2) * (3 * dags.length + 2) =
      (2 * dags.length + 1) * (3 * dags.length + 2) + (3 * dags.length + 2) :=
    Nat.succ_mul _ _
  unfold potential
  omega

end

theorem count_acts_le (hep : ∀ d ∈ dags, cfg.epoch ≤ d.leaderEpoch)
    (ht : Tracked anc dags bef sent n) {evs : List CatchUpEvent}
    (hsnd : Reactor.Always (step cfg) (Sound cfg anc dags) n evs)
    (hheal : Reactor.Always (step cfg) (Healthy cfg anc dags) n evs) : count (step cfg) Acts n evs +
      potential cfg anc dags (Reactor.run (step cfg) n evs).2 ≤ potential cfg anc dags n := by
  apply count_add_le (Q := fun n => ∃ sent, Tracked anc dags bef sent n) _ _ ⟨sent, ht⟩
    (hsnd.and hheal)
  · intro n ev ⟨sent, hn⟩ h
    exact ⟨_, hn.change hhash (change_step cfg n ev) h.1⟩
  · intro n ev ⟨sent, hn⟩ h
    exact potential_change hhash hn hep (change_step cfg n ev) h.1 h.2

end

theorem latest_le_of_idle (ht : Tracked anc dags bef sent n) (hidle : ∀ ev, ¬ n.Acts ev)
    (hlt : bef < n.latest.number) : n.latest.number ≤ n.streamer.lastConsensusHeader.number := by
  have hnone : n.streamer.catchUp = none := by
    cases hc : n.streamer.catchUp with
    | none => rfl
    | some c =>
      cases hstg : c.stage with
      | lookup => exact absurd ⟨c, hc, hstg⟩ (hidle .lookup)
      | request => exact absurd ⟨c, hc, hstg⟩ (hidle (.reply []))
      | check x gap =>
        refine absurd ⟨c, hc, ?_⟩ (hidle (.forward true))
        rw [hstg]
        exact nofun
  have hpend : ∀ target ∈ n.streamer.pendingCatchUpTarget,
      target.number ≤ n.streamer.lastConsensusHeader.number := by
    intro target htgt
    by_contra hle
    exact hidle .retry ⟨hnone, target, htgt, Nat.lt_of_not_le hle⟩
  rcases ht.aimed hlt with hchd | hgoal
  · by_contra hle
    exact hidle .changed ⟨hnone, hchd, Nat.lt_of_not_le hle⟩
  · rw [goal_none hnone] at hgoal
    cases htgt : n.streamer.pendingCatchUpTarget with
    | none =>
      rw [htgt] at hgoal
      exact le_trans hgoal (Nat.max_le.mpr ⟨le_refl _, le_refl _⟩)
    | some target =>
      rw [htgt] at hgoal
      exact le_trans hgoal (Nat.max_le.mpr ⟨hpend target htgt, le_refl _⟩)

end

theorem run_replicate {cfg : SubscriberConfig} {n : CatchUpNode} {before again : List CatchUpEvent}
    (h : run cfg (run cfg n before).2 again = ([], (run cfg n before).2)) (k : Nat) :
    run cfg n (before ++ (List.replicate k again).flatten) = run cfg n before := by
  unfold run at h ⊢
  rw [Reactor.run_append, Reactor.run_replicate h, List.append_nil]

/-- Once the peers and the walk deliver the chain and execution keeps up, the streamer takes a
bounded number of steps, and when it has nothing left to do it has sent every header of the chain up
to every target. Its last header is always one of the chain. -/
theorem catch_up_heals (hhash : Function.Injective hash) (cfg : SubscriberConfig)
    (anchor latest : ConsensusHeader) (subDags : List CommittedSubDag)
    (blocks cache : ConsensusBlocks) (before after : List CatchUpEvent)
    (hepoch : ∀ d ∈ subDags, cfg.epoch ≤ d.leaderEpoch)
    (hblocks : ∀ (k : Nat) (x : ConsensusHeader), anchor.number < k → blocks[k]? = some x →
      x ∈ chainFrom anchor subDags ∧ x.number = k) (hcache : cache.Keyed)
    (hsound : Reactor.Always (step cfg) (Sound cfg anchor subDags)
      (start cfg blocks cache latest anchor) (before ++ after))
    (hhealthy : Reactor.Always (step cfg) (Healthy cfg anchor subDags)
      (run cfg (start cfg blocks cache latest anchor) before).2 after) :
    let first := start cfg blocks cache latest anchor
    let final := run cfg first (before ++ after)
    count (step cfg) Acts (run cfg first before).2 after <
        (2 * subDags.length + 2) * (3 * subDags.length + 2) ∧
      OnChain anchor subDags final.2.streamer.lastConsensusHeader ∧
      ((∀ event, ¬ final.2.Acts event) →
        ∀ target, CatchUpEvent.publish target ∈ before ++ after → latest.number < target.number →
          ∀ g ∈ chainFrom anchor subDags, g.number ≤ target.number →
            ∃ x, CatchUpEffect.streamed x ∈ final.1 ∧ x.digest = g.digest) := by
  intro first final
  obtain ⟨hbefore, hafter⟩ := always_append.mp hsound
  have hfirst : Tracked anchor subDags latest.number [] first := Tracked.start hblocks hcache
  have hfinal := hfirst.run hhash hsound
  refine ⟨?_, hfinal.last, fun hidle target htarget hlt g hg hle => ?_⟩
  · have hmid := hfirst.run hhash hbefore
    have hcount := count_acts_le hhash hepoch hmid hafter hhealthy
    exact lt_of_le_of_lt (le_trans (by omega) hcount) (potential_lt hhash hmid)
  · have hlatest : target.number ≤ final.2.latest.number := number_le_latest cfg first htarget
    have hreached := latest_le_of_idle hfinal hidle (lt_of_lt_of_le hlt hlatest)
    obtain ⟨x, hx, hdigest⟩ :=
      hfinal.sent_last g hg (le_trans hle (le_trans hlatest hreached))
    exact ⟨x, mem_sentHeaders.mp hx, hdigest⟩

end

section
variable [HashFunction]

def poisonsSix : List CatchUpEvent :=
  [.publish (ahead 2), .changed, .lookup,
    .reply [.header ⟨executedFive.digest, ofRound 6, 6⟩], .forward true, .lookup]

def recovers : List CatchUpEvent :=
  [.reply [.header (ahead 1)], .forward true, .retry, .lookup, .reply [.header (ahead 0)],
    .forward true, .lookup, .reply [.header (ahead 1)], .forward true, .lookup, .forward true]

def losesSeven : List CatchUpEvent :=
  poisonsSix ++ [.reply [.failed], .walk (ahead 1), .walk (ahead 0)]

def triesAgain : List CatchUpEvent :=
  [.walk (ahead 1), .walk (ahead 0), .retry, .lookup, .forward true]

end

theorem catch_up_heals_poisoned :
    letI : HashFunction := .encode
    let first := start epochOne ∅ ∅ .default executedFive
    let final := run epochOne first (poisonsSix ++ recovers)
    count (step epochOne) Acts (run epochOne first poisonsSix).2 recovers < 88 ∧
      ∀ g ∈ chainFrom executedFive threeAhead, g.number ≤ 8 →
        ∃ x, CatchUpEffect.streamed x ∈ final.1 ∧ x.digest = g.digest := by
  have h := @catch_up_heals .encode Encodable.encode_injective epochOne executedFive .default
    threeAhead ∅ ∅ (@poisonsSix .encode) (@recovers .encode) (by decide +kernel)
    (fun _ _ _ hx => nomatch getElem?_empty.symm.trans hx)
    (fun _ _ hx => nomatch getElem?_empty.symm.trans hx)
    (by decide +kernel) (by decide +kernel)
  refine ⟨h.1, h.2.2 ?_ (@ahead .encode 2) (by decide +kernel) (by decide +kernel)⟩
  exact not_acts_of_done (by decide +kernel) (by decide +kernel) (by decide +kernel)

/-- However often the streamer tries again while the walk delivers the chain, its last header is
not of the chain and no header of the chain is sent. -/
theorem catch_up_stuck :
    letI : HashFunction := .encode
    let first := start epochOne ∅ ∅ .default executedFive
    let tries (k : Nat) := run epochOne first (losesSeven ++ (List.replicate k triesAgain).flatten)
    Function.Injective hash ∧ ∀ k,
      ¬ OnChain executedFive threeAhead (tries k).2.streamer.lastConsensusHeader ∧
      ∀ e ∈ (tries k).1, ∀ g ∈ chainFrom executedFive threeAhead,
        e ≠ CatchUpEffect.streamed g := by
  refine ⟨Encodable.encode_injective, fun k => ?_⟩
  dsimp only
  rw [@run_replicate .encode epochOne _ _ _ (by decide +kernel) k]
  decide +kernel

end CatchUpNode

end Axyl
