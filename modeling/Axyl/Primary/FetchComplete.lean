import Axyl.Consensus.CertificateDag
import Axyl.Primary.CertCollector

/-! What a peer's answer to a request for missing certificates holds: all it has of the committee
above the lower bound that the requester does not have, in the order of rounds. -/

namespace Axyl
open List OriginIndex MissingCertificatesRequest SkipRoundList CertificateCollector
open Std (ExtTreeMap)
open Fallible (Spec)

namespace FetchTask

/-! ### The request -/

def Known (t : FetchTask) (author round : Nat) : Prop :=
  t.fallback = false ∧ t.gcRound < round ∧ (round, author) ∈ t.store.certificateDigestByRound

variable {t : FetchTask}

theorem mem_writtenRoundsOf {auth round : Nat} :
    round ∈ t.writtenRoundsOf auth ↔ t.Known auth round := by
  unfold writtenRoundsOf Known roundsOf
  cases t.fallback with
  | true => simp
  | false =>
    simp only [Bool.false_eq_true, if_false, true_and, mem_map, mem_filter,
      decide_eq_true_eq, ExtTreeMap.mem_keys]
    constructor
    · rintro ⟨⟨r, a⟩, ⟨hmem, hlt, rfl⟩, rfl⟩
      exact ⟨hlt, hmem⟩
    · rintro ⟨hlt, hmem⟩
      exact ⟨(round, auth), ⟨hmem, hlt, rfl⟩, rfl⟩

theorem pairwise_roundsOf (store : CertificateStore) (firstRound auth : Nat) :
    (roundsOf store firstRound auth).Pairwise (· < ·) := by
  unfold roundsOf
  rw [pairwise_map]
  refine (List.Pairwise.filter _ ExtTreeMap.ordered_keys).imp_of_mem fun ha hb hlt => ?_
  -- two rows of one author are ordered by their rounds
  have ha := of_decide_eq_true (mem_filter.mp ha).2
  have hb := of_decide_eq_true (mem_filter.mp hb).2
  have := compareRoundOrigin_lt.mp hlt
  omega

theorem pairwise_writtenRoundsOf (t : FetchTask) (auth : Nat) :
    (t.writtenRoundsOf auth).Pairwise (· < ·) := by
  unfold writtenRoundsOf
  split
  · exact List.Pairwise.nil
  · exact pairwise_roundsOf _ _ _

theorem Known.le_maxRound {auth round : Nat} (h : t.Known auth round) : round ≤ maxRound :=
  t.bounded _ h.2.2

/-! ### The lower bound -/

def Gap (gcRound : Nat) (rounds : List Nat) : Prop :=
  ∃ r, gcRound < r ∧ r ≤ maxRound ∧ r ∉ rounds

variable {rounds : List Nat}

theorem spec_skipContiguous {expected : Nat} (hsort : rounds.Pairwise (· < ·))
    (hle : ∀ r ∈ rounds, expected ≤ r) (hmax : ∀ r ∈ rounds, r ≤ maxRound)
    (hexpected : expected ≤ maxRound) :
    Spec (fun e => expected ≤ e ∧ e ≤ maxRound ∧ e ∉ rounds ∧
        ∀ r, expected ≤ r → r < e → r ∈ rounds)
      (fun _ => ∀ r, expected ≤ r → r ≤ maxRound → r ∈ rounds)
      (skipContiguous expected rounds) := by
  induction rounds generalizing expected with
  | nil => exact ⟨le_refl _, hexpected, not_mem_nil, fun r hr hlt => by omega⟩
  | cons first rounds ih =>
    obtain ⟨hfst, hsort⟩ := pairwise_cons.mp hsort
    unfold skipContiguous
    split
    · rename_i heq
      subst heq
      unfold succRound
      split
      · rename_i hlt
        refine (ih hsort hfst (fun r hr => hmax r (mem_cons_of_mem _ hr)) hlt).mono ?_ ?_
        · rintro e ⟨hge, hemax, hnot, hall⟩
          refine ⟨le_of_lt hge, hemax, ?_, fun r hr hlt => ?_⟩
          · rintro (_ | ⟨_, hmem⟩)
            · omega
            · exact hnot hmem
          · rcases Nat.eq_or_lt_of_le hr with rfl | hr
            · exact mem_cons_self
            · exact mem_cons_of_mem _ (hall r hr hlt)
        · intro _ hall r hr hle
          rcases Nat.eq_or_lt_of_le hr with rfl | hr
          · exact mem_cons_self
          · exact mem_cons_of_mem _ (hall r hr hle)
      · intro r hr hle
        have heq : r = first := by omega
        rw [heq]
        exact mem_cons_self
    · rename_i hne
      have hge := hle first mem_cons_self
      refine ⟨le_refl _, hexpected, ?_, fun r hr hlt => by omega⟩
      rintro (_ | ⟨_, hmem⟩)
      · exact hne rfl
      · have := hfst _ hmem
        omega

variable {gcRound : Nat}

theorem spec_lastContiguous (hgc : gcRound < maxRound) (hsort : rounds.Pairwise (· < ·))
    (hlt : ∀ r ∈ rounds, gcRound < r) (hmax : ∀ r ∈ rounds, r ≤ maxRound) :
    Spec (fun last => gcRound ≤ last ∧ last < maxRound ∧ Gap gcRound rounds ∧
        ∀ r, gcRound < r → r ≤ last → r ∈ rounds)
      (fun _ => ¬ Gap gcRound rounds) (lastContiguous gcRound rounds) := by
  unfold lastContiguous succRound
  rw [if_pos hgc]
  show Spec _ _ (skipContiguous (gcRound + 1) rounds >>= fun e => pure (e - 1))
  refine Spec.bind ((spec_skipContiguous hsort hlt hmax hgc).mono (fun _ he => he) ?_) ?_
  · rintro _ hall ⟨r, hr, hle, hnot⟩
    exact hnot (hall r hr hle)
  · rintro e ⟨hge, hle, hnot, hall⟩
    exact ⟨by omega, by omega, ⟨e, hge, hle, hnot⟩, fun r hr hle => hall r hr (by omega)⟩

def Entries (gcRound : Nat) (written : List (Nat × List Nat)) : Prop :=
  ∀ e ∈ written, e.2.Pairwise (· < ·) ∧ (∀ r ∈ e.2, gcRound < r) ∧ ∀ r ∈ e.2, r ≤ maxRound

variable {written : List (Nat × List Nat)}

def Covered (gcRound low : Nat) (written : List (Nat × List Nat)) : Prop :=
  ∀ e ∈ written, Gap gcRound e.2 ∧ ∀ r, gcRound < r → r ≤ low → r ∈ e.2

section
variable (hgc : gcRound < maxRound)
include hgc

theorem spec_entry {ent : Nat × List Nat} {f : Nat → FetchM Nat} {P : Nat → Prop}
    (h : Entries gcRound (ent :: written))
    (hf : ∀ last, gcRound ≤ last → last < maxRound → Entries gcRound written →
      Spec (fun l => P l ∧ l ≤ last ∧ Covered gcRound l written)
        (fun _ => ∃ e ∈ written, ¬ Gap gcRound e.2) (f last)) :
    Spec (fun l => P l ∧ Covered gcRound l (ent :: written))
      (fun _ => ∃ e ∈ ent :: written, ¬ Gap gcRound e.2) (lastContiguous gcRound ent.2 >>= f) := by
  obtain ⟨⟨hsort, hlt, hmax⟩, h⟩ := forall_mem_cons.mp h
  refine Spec.bind ((spec_lastContiguous hgc hsort hlt hmax).mono
    (fun _ hlast => hlast) fun _ hno => ⟨ent, mem_cons_self, hno⟩) ?_
  rintro last ⟨hge, hlast, hgap, hall⟩
  refine (hf last hge hlast h).mono ?_ fun _ ⟨e, he, hno⟩ => ⟨e, mem_cons_of_mem _ he, hno⟩
  rintro l ⟨hP, hle, hents⟩
  exact ⟨hP, forall_mem_cons.mpr ⟨⟨hgap, fun r hr hrl => hall r hr (by omega)⟩, hents⟩⟩

theorem spec_leastContiguous {least : Nat} (hleast : gcRound ≤ least) (h : Entries gcRound written) :
    Spec (fun l => (gcRound ≤ l ∧ l ≤ least) ∧ Covered gcRound l written)
      (fun _ => ∃ e ∈ written, ¬ Gap gcRound e.2) (leastContiguous gcRound least written) := by
  induction written generalizing least with
  | nil => exact ⟨⟨hleast, le_refl _⟩, forall_mem_nil _⟩
  | cons ent written ih =>
    refine spec_entry hgc h fun last hge _ h => (ih (by omega) h).mono ?_ fun _ hno => hno
    rintro l ⟨⟨hgel, hle⟩, hents⟩
    have hle := Nat.le_min.mp hle
    exact ⟨⟨hgel, hle.1⟩, hle.2, hents⟩

theorem spec_tightenLowerBound (h : Entries gcRound written) :
    Spec (fun l => l < maxRound ∧ Covered gcRound l written)
      (fun _ => ∃ e ∈ written, ¬ Gap gcRound e.2) (tightenLowerBound gcRound written) := by
  cases written with
  | nil => exact ⟨hgc, forall_mem_nil _⟩
  | cons ent written =>
    refine spec_entry hgc h fun first hge hfst h => Spec.bind (spec_leastContiguous hgc hge h) ?_
    rintro l ⟨⟨hgel, hle⟩, hents⟩
    rw [Nat.max_eq_left hgel]
    exact ⟨by omega, hle, hents⟩

end

theorem entries_writtenRounds (t : FetchTask) : Entries t.gcRound t.writtenRounds := by
  intro e he
  obtain ⟨a, _, rfl⟩ := mem_map.mp he
  exact ⟨t.pairwise_writtenRoundsOf a.id, fun r hr => (mem_writtenRoundsOf.mp hr).2.1,
    fun r hr => (mem_writtenRoundsOf.mp hr).le_maxRound⟩

/-! ### The skip rounds as the responder reads them -/

variable {vals : List Nat}

theorem length_dedup_le {bound : Nat} (h : ∀ v ∈ vals, v < bound) : vals.dedup.length ≤ bound := by
  have hsub : vals.dedup ⊆ List.range bound := fun v hv =>
    mem_range.mpr (h v (mem_dedup.mp hv))
  have := (subperm_of_subset (nodup_dedup vals) hsub).length_le
  rwa [length_range] at this

theorem containers_le (h : ∀ v ∈ vals, v < 16 * 65536) :
    containers vals ≤ maxSkipRoundContainers := by
  unfold containers maxSkipRoundContainers
  refine length_dedup_le fun k hk => ?_
  obtain ⟨v, hv, rfl⟩ := mem_map.mp hk
  have := h v hv
  omega

section
variable (fmt : RoaringFormat)

theorem roaringContainerCount_serialize (hbitmap : IsBitmap vals) (h : ∀ v ∈ vals, v < 16 * 65536) :
    roaringContainerCount (fmt.serialize vals) = some (containers vals) ∧
      (fmt.serialize vals).length ≤ 8 + 8 * maxSkipRoundContainers + 2 * vals.length := by
  obtain ⟨body, hlayout, hlen⟩ := fmt.layout vals hbitmap
  have hcont := containers_le h
  have hmax : containers vals ≤ maxRound :=
    le_trans hcont (by unfold maxSkipRoundContainers maxRound; omega)
  rw [hlayout]
  constructor
  · have hcnt := word_leWord hmax (leWord 12346) body
    exact hcnt
  · have hword : ∀ n, (leWord n).length = 4 := fun n => rfl
    simp only [length_append, hword]
    omega

theorem entryRounds_serialize {low maxRounds : Nat} (hsort : rounds.Pairwise (· < ·))
    (hlt : ∀ r ∈ rounds, low < r) (hmax : ∀ r ∈ rounds, r ≤ maxRound)
    (hspan : ∀ r ∈ rounds, r < low + 16 * 65536) (hlen : rounds.length ≤ maxRounds) :
    entryRounds fmt low maxRounds
      (fmt.serialize (bitmapOf (rounds.map (· - low)))) = .ok rounds := by
  have hdeltas : (rounds.map (· - low)).Pairwise (· < ·) := by
    rw [pairwise_map]
    refine hsort.imp_of_mem fun ha hb hab => ?_
    have := hlt _ ha
    omega
  have hbitmap : IsBitmap (rounds.map (· - low)) := by
    refine ⟨hdeltas, fun v hv => ?_⟩
    obtain ⟨r, hr, rfl⟩ := mem_map.mp hv
    exact le_trans (Nat.sub_le _ _) (hmax r hr)
  have hsmall : ∀ v ∈ rounds.map (· - low), v < 16 * 65536 := by
    intro v hv
    obtain ⟨r, hr, rfl⟩ := mem_map.mp hv
    have := hspan r hr
    omega
  have hback : (rounds.map (· - low)).map (low + ·) = rounds := by
    rw [map_map]
    refine (map_congr_left fun r hr => ?_).trans (map_id _)
    have := hlt r hr
    simp only [Function.comp, id]
    omega
  have hrange : ((rounds.map (· - low)).all fun r => decide (low + r ≤ maxRound)) =
      true := by
    refine all_eq_true.mpr fun v hv => decide_eq_true ?_
    obtain ⟨r, hr, rfl⟩ := mem_map.mp hv
    have := hmax r hr
    have := hlt r hr
    omega
  obtain ⟨hcnt, hbytes⟩ := roaringContainerCount_serialize fmt hbitmap hsmall
  rw [bitmapOf_eq_self hdeltas]
  rw [length_map] at hbytes
  have hcont := containers_le hsmall
  simp only [entryRounds, hcnt, deserializeNormalizedBounded, fmt.lossless _ hbitmap]
  rw [if_neg (by omega), if_neg (by unfold maxSkipBitmapLen; omega), length_map, if_neg (by omega)]
  show (if _ then _ else _) = _
  rw [if_pos hrange, hback]

theorem decodeEntries_ok (low maxRounds : Nat) (keep : Nat → Bool) (es : List (Nat × List Nat))
    (m : ExtTreeMap Nat (List Nat)) (rounds : Nat → List Nat) (hnd : (es.map Prod.fst).Nodup)
    (hkeep : ∀ e ∈ es, keep e.1 = true) (hfre : ∀ e ∈ es, e.1 ∉ m)
    (hrs : ∀ e ∈ es, entryRounds fmt low maxRounds e.2 = .ok (rounds e.1)) :
    ∃ m', decodeEntries fmt low maxRounds keep es m = .ok m' ∧
      ∀ k, m'[k]? = if k ∈ es.map Prod.fst then some (rounds k) else m[k]? := by
  induction es generalizing m with
  | nil => exact ⟨m, rfl, fun k => by simp⟩
  | cons e es ih =>
    obtain ⟨k, serialized⟩ := e
    rw [map_cons, nodup_cons] at hnd
    have hk := hkeep _ mem_cons_self
    have hm := hfre _ mem_cons_self
    have hent := hrs _ mem_cons_self
    obtain ⟨m', hm', hget⟩ := ih (m.insert k (rounds k)) hnd.2
      (fun e he => hkeep e (mem_cons_of_mem _ he))
      (fun e he hmem => by
        rcases ExtTreeMap.mem_insert.mp hmem with heq | hmem
        · rw [Nat.compare_eq_eq] at heq
          have hmem : e.1 ∈ es.map Prod.fst := mem_map_of_mem he
          rw [← heq] at hmem
          exact hnd.1 hmem
        · exact hfre e (mem_cons_of_mem _ he) hmem)
      (fun e he => hrs e (mem_cons_of_mem _ he))
    refine ⟨m', ?_, fun k' => ?_⟩
    · have hcont : m.contains k = false := by
        rw [Bool.eq_false_iff]
        exact hm
      unfold decodeEntries
      rw [hk, hcont, hent]
      exact hm'
    · rw [hget k', map_cons]
      by_cases hmem : k' ∈ es.map Prod.fst
      · rw [if_pos hmem, if_pos (mem_cons_of_mem _ hmem)]
      · rw [ExtTreeMap.getElem?_insert]
        by_cases heq : k = k'
        · subst heq
          simp
        · have hne : k' ≠ k := fun h => heq h.symm
          simp [heq, hne, hmem]

end

def pruned (t : FetchTask) (lowerBound author : Nat) : List Nat :=
  (t.writtenRoundsOf author).filter fun r => decide (lowerBound < r)

theorem buildRequest_eq_ok {fmt : RoaringFormat} {request : MissingCertificatesRequest}
    (h : t.buildRequest fmt = .ok request) :
    t.gcRound < maxRound ∧
      tightenLowerBound t.gcRound t.writtenRounds = .ok request.exclusiveLowerBound ∧
      request.maxResponseSize = t.maxResponseSize ∧ request.exclusiveUpperBound = none ∧
      request.skipRounds = .fromEntries (t.committee.authorities.map fun a =>
        (a.id, fmt.serialize (bitmapOf ((t.pruned request.exclusiveLowerBound a.id).map
          (· - request.exclusiveLowerBound))))) := by
  obtain ⟨first, hfst, h⟩ := Fallible.bind_eq_ok.mp h
  obtain ⟨low, hlower, h⟩ := Fallible.bind_eq_ok.mp h
  have hgc : t.gcRound < maxRound := by
    unfold succRound at hfst
    split at hfst
    · assumption
    · cases hfst
  cases h
  refine ⟨hgc, hlower, rfl, rfl, ?_⟩
  simp only [setMaxResponseSize, setBounds, writtenRounds, pruned, map_map, Function.comp_def]

theorem exists_buildRequest_iff (fmt : RoaringFormat) (t : FetchTask) :
    (∃ request, t.buildRequest fmt = .ok request) ↔
      t.gcRound < maxRound ∧ ∀ a ∈ t.committee.authorities, ∃ round,
        t.gcRound < round ∧ round ≤ maxRound ∧ ¬ t.Known a.id round := by
  have hgap : ∀ auth, Gap t.gcRound (t.writtenRoundsOf auth) ↔ ∃ round,
      t.gcRound < round ∧ round ≤ maxRound ∧ ¬ t.Known auth round := by
    intro auth
    unfold Gap
    simp only [mem_writtenRoundsOf]
  constructor
  · rintro ⟨request, h⟩
    obtain ⟨hgc, hlower, _⟩ := buildRequest_eq_ok h
    have hspec := spec_tightenLowerBound hgc t.entries_writtenRounds
    rw [hlower] at hspec
    refine ⟨hgc, fun a ha => (hgap a.id).mp ?_⟩
    exact (hspec.2 _ (mem_map_of_mem ha)).1
  · rintro ⟨hgc, hall⟩
    have hspec := spec_tightenLowerBound hgc t.entries_writtenRounds
    obtain ⟨low, hlower, _⟩ := (hspec.mono (fun _ h => h) fun _ ⟨e, he, hno⟩ => by
      obtain ⟨a, ha, rfl⟩ := mem_map.mp he
      exact hno ((hgap a.id).mpr (hall a ha))).exists_ok
    unfold buildRequest succRound
    rw [if_pos hgc, hlower]
    exact ⟨_, rfl⟩

/-! ### The answer -/

/-- The responder has the certificate, of a committee member above the lower bound, and the
requester does not have one of that slot. -/
def Missing (t : FetchTask) (r : Responder) (lowerBound : Nat) (c : Certificate) : Prop :=
  r.store.Holds c ∧ (∃ a ∈ t.committee.authorities, a.id = c.origin) ∧ lowerBound < c.round ∧
    ¬ t.Known c.origin c.round

/-- The caps of the responder are not reached by the request and neither its size limit nor its
time limit cuts the answer. -/
structure WithinLimits (fmt : RoaringFormat) (t : FetchTask) (r : Responder) : Prop where
  committee : r.committee = t.committee
  authorities : t.committee.size ≤ 1024
  skips : ∀ a ∈ t.committee.authorities, (t.writtenRoundsOf a.id).length ≤ r.maxSkipRounds
  span : ∀ request, t.buildRequest fmt = .ok request → ∀ a ∈ t.committee.authorities, ∀ round,
    t.Known a.id round → round < request.exclusiveLowerBound + 16 * 65536
  time : ∀ n, r.timeLimitReached n = false
  minimum : r.localMinRequestSize ≤ t.maxResponseSize
  fits : ∀ request, t.buildRequest fmt = .ok request → ∀ certs : List Certificate, certs.Nodup →
    (∀ c ∈ certs, t.Missing r request.exclusiveLowerBound c) →
      (certs.map r.encodedLen).sum ≤ min t.maxResponseSize r.localMax

section
variable {fmt : RoaringFormat} {t : FetchTask} {r : Responder}
  {request : MissingCertificatesRequest}

theorem nodup_ids (com : Committee) : (com.authorities.map Authority.id).Nodup := by
  unfold List.Nodup
  rw [pairwise_map]
  exact com.sorted.imp ne_of_lt

theorem getBounds_received (h : WithinLimits fmt t r) (hreq : t.buildRequest fmt = .ok request) :
    ∃ m, request.received.getBounds fmt r.maxSkipRounds
        (fun origin => (r.committee.authority origin).isSome) =
          .ok (request.exclusiveLowerBound, m) ∧
      ∀ k, m[k]? = if k ∈ t.committee.authorities.map Authority.id then
        some (t.pruned request.exclusiveLowerBound k) else none := by
  obtain ⟨_, _, _, _, hskip⟩ := buildRequest_eq_ok hreq
  have hents : request.received.skipRounds.entries = t.committee.authorities.map fun a =>
      (a.id, fmt.serialize (bitmapOf ((t.pruned request.exclusiveLowerBound a.id).map
        (· - request.exclusiveLowerBound)))) := by
    simp only [received, decode, hskip, fromEntries]
    refine take_of_length_le ?_
    rw [length_map]
    exact h.authorities
  have hkeys : (request.received.skipRounds.entries.map Prod.fst) =
      t.committee.authorities.map Authority.id := by
    rw [hents, map_map]
    rfl
  have hkeep : ∀ e ∈ request.received.skipRounds.entries,
      (r.committee.authority e.1).isSome = true := by
    intro e he
    rw [hents] at he
    obtain ⟨a, ha, rfl⟩ := mem_map.mp he
    rw [h.committee]
    exact List.find?_isSome.mpr ⟨a, ha, decide_eq_true rfl⟩
  have hrs : ∀ e ∈ request.received.skipRounds.entries,
      entryRounds fmt request.exclusiveLowerBound r.maxSkipRounds e.2 =
        .ok (t.pruned request.exclusiveLowerBound e.1) := by
    intro e he
    rw [hents] at he
    obtain ⟨a, ha, rfl⟩ := mem_map.mp he
    have hmem : ∀ round ∈ t.pruned request.exclusiveLowerBound a.id,
        t.Known a.id round ∧ request.exclusiveLowerBound < round := by
      intro round hrnd
      obtain ⟨hwritten, hlt⟩ := mem_filter.mp hrnd
      exact ⟨mem_writtenRoundsOf.mp hwritten, of_decide_eq_true hlt⟩
    exact entryRounds_serialize fmt (List.Pairwise.filter _ (t.pairwise_writtenRoundsOf a.id))
      (fun round hrnd => (hmem round hrnd).2)
      (fun round hrnd => (hmem round hrnd).1.le_maxRound)
      (fun round hrnd => h.span request hreq a ha round (hmem round hrnd).1)
      (le_trans (length_filter_le _ _) (h.skips a ha))
  obtain ⟨m, hm, hget⟩ := decodeEntries_ok fmt request.exclusiveLowerBound r.maxSkipRounds
    (fun origin => (r.committee.authority origin).isSome) request.received.skipRounds.entries ∅
    (t.pruned request.exclusiveLowerBound) (by rw [hkeys]; exact nodup_ids _) hkeep
    (fun e _ => ExtTreeMap.not_mem_empty) hrs
  refine ⟨m, ?_, fun k => ?_⟩
  · unfold getBounds
    rw [show request.received.exclusiveLowerBound = request.exclusiveLowerBound from rfl, hm]
    rfl
  · rw [hget k, hkeys]
    simp

theorem wanted_iff {m : ExtTreeMap Nat (List Nat)} {c : Certificate}
    (hget : ∀ k, m[k]? = if k ∈ t.committee.authorities.map Authority.id then
      some (t.pruned request.exclusiveLowerBound k) else none) :
    r.store.Holds c ∧ CertificateCollector.Wanted r.store m none c.origin c.round ∧
        request.exclusiveLowerBound < c.round ↔
      t.Missing r request.exclusiveLowerBound c ∧ c.round < maxRound := by
  have hprun : request.exclusiveLowerBound < c.round →
      (c.round ∉ t.pruned request.exclusiveLowerBound c.origin ↔ ¬ t.Known c.origin c.round) := by
    intro hlt
    rw [pruned, mem_filter, mem_writtenRoundsOf, decide_eq_true_eq, and_iff_left hlt]
  constructor
  · rintro ⟨hhold, ⟨rounds, hrs, _, hrnd, hnot⟩, hlt⟩
    rw [hget] at hrs
    split at hrs
    · rename_i hmem
      cases hrs
      exact ⟨⟨hhold, mem_map.mp hmem, hlt, (hprun hlt).mp hnot⟩, hrnd⟩
    · cases hrs
  · rintro ⟨⟨hhold, hmem, hlt, hnot⟩, hrnd⟩
    refine ⟨hhold, ⟨t.pruned request.exclusiveLowerBound c.origin, ?_, hhold.has, hrnd,
      (hprun hlt).mpr hnot⟩, hlt⟩
    rw [hget, if_pos (mem_map.mpr hmem)]

theorem retrieveMissingCerts_ok (h : WithinLimits fmt t r)
    (hreq : t.buildRequest fmt = .ok request) :
    ∃ cs, r.retrieveMissingCerts fmt request.received = .ok cs ∧
      (cs.Pairwise fun a b => KWayMerge.Lt (a.round, a.origin) (b.round, b.origin)) ∧
      ∀ c, c ∈ cs ↔ t.Missing r request.exclusiveLowerBound c ∧ c.round < maxRound := by
  obtain ⟨_, _, hresponse, hupper, hskip⟩ := buildRequest_eq_ok hreq
  obtain ⟨m, hbounds, hget⟩ := getBounds_received h hreq
  have hnamed : request.received.skipRounds.named = t.committee.size := by
    simp only [received, decode, hskip, fromEntries, length_map]
    rfl
  have hlimit : ¬ maxRequestedAuthorities r.committee.size < request.received.skipRounds.named := by
    have := h.authorities
    rw [h.committee]
    unfold maxRequestedAuthorities maxSkipRoundAuthorities
    omega
  have hsize : ¬ request.received.maxResponseSize < r.localMinRequestSize := by
    have hmin := h.minimum
    show ¬ request.maxResponseSize < _
    omega
  obtain ⟨cs, hcs, hsort, hmem⟩ := collect_new h.time
    fun cs hnd hcs => by
      have hall := h.fits request hreq cs hnd fun c hc =>
        ((wanted_iff hget).mp (hcs c hc)).1
      rw [← hresponse] at hall
      exact hall
  refine ⟨cs, ?_, hsort, fun c => (hmem c).trans (wanted_iff hget)⟩
  unfold Responder.retrieveMissingCerts new
  simp only [if_neg hlimit, if_neg hsize, hbounds]
  rw [← hcs]
  have hupper' : request.received.exclusiveUpperBound = none := hupper
  rw [hupper']
  rfl

/-- The request is built and answered with exactly the missing certificates, each once and in the
order of rounds. -/
def Served (fmt : RoaringFormat) (t : FetchTask) (r : Responder) : Prop :=
  ∃ request certs, t.buildRequest fmt = .ok request ∧
    r.retrieveMissingCerts fmt request.received = .ok certs ∧
    (certs.Pairwise fun a b => a.round ≤ b.round) ∧ certs.Nodup ∧
    ∀ c, c ∈ certs ↔ t.Missing r request.exclusiveLowerBound c

end

/-! A committee of four and a responder that counts ten bytes a certificate. -/

def plainFormat : RoaringFormat where
  serialize values := leWord 12346 ++ leWord (containers values) ++ values
  deserialize bytes := some (bytes.drop 8)
  lossless := fun _ _ => rfl
  layout := fun values _ => ⟨values, rfl, by omega⟩

def responderOf (store : OriginIndex) : Responder where
  store := store
  committee := fourAuthorities
  encodedLen := fun _ => 10
  localMinRequestSize := 1
  localMax := 1000
  maxSkipRounds := 8
  timeLimitReached := fun _ => false

theorem withinLimits_responderOf {store : OriginIndex} {held : List Certificate}
    (hcom : t.committee = fourAuthorities) (hsize : t.maxResponseSize = 1000)
    (hskips : ∀ a ∈ fourAuthorities.authorities, (t.writtenRoundsOf a.id).length ≤ 8 ∧
      ∀ round ∈ t.writtenRoundsOf a.id, round < 16 * 65536) (hheld : ∀ c, store.Holds c → c ∈ held)
    (hlen : held.length ≤ 100) : WithinLimits plainFormat t (responderOf store) where
  committee := hcom.symm
  authorities := by
    rw [hcom]
    decide
  skips := by
    rw [hcom]
    exact fun a ha => (hskips a ha).1
  span := by
    intro request _ a ha round hkn
    rw [hcom] at ha
    exact Nat.lt_add_left _ ((hskips a ha).2 round (mem_writtenRoundsOf.mpr hkn))
  time := fun _ => rfl
  minimum := by
    rw [hsize]
    exact Nat.le_of_ble_eq_true rfl
  fits := by
    intro request _ cs hnd hcs
    have hsub : cs ⊆ held := fun c hc => hheld c (hcs c hc).1
    have hle := (subperm_of_subset hnd hsub).length_le
    have hsum : (cs.map fun _ => 10).sum = cs.length * 10 := by
      rw [map_const', sum_replicate_nat]
    rw [hsize]
    show (cs.map fun _ => 10).sum ≤ 1000
    omega

/-- A fetch is served in full exactly when no round of its is the last one there is: adding one to
a round must not overflow, and a certificate of the last round is never sent. -/
theorem served_iff (fmt : RoaringFormat) (t : FetchTask) (r : Responder)
    (h : WithinLimits fmt t r) :
    t.Served fmt r ↔ (t.gcRound < maxRound ∧ ∀ a ∈ t.committee.authorities, ∃ round,
        t.gcRound < round ∧ round ≤ maxRound ∧ ¬ t.Known a.id round) ∧
      ∀ c, r.store.Holds c → (∃ a ∈ t.committee.authorities, a.id = c.origin) →
        c.round = maxRound → t.Known c.origin maxRound := by
  constructor
  · rintro ⟨request, certs, hrequest, hcerts, _, _, hmem⟩
    have hbuilt := (exists_buildRequest_iff fmt t).mp ⟨request, hrequest⟩
    refine ⟨hbuilt, fun c hholds hmember hround => ?_⟩
    by_contra hunknown
    obtain ⟨certs', hcerts', _, hmem'⟩ := retrieveMissingCerts_ok h hrequest
    rw [hcerts] at hcerts'
    cases hcerts'
    -- a missing certificate of the last round would have to be in the answer
    have hlower := spec_tightenLowerBound hbuilt.1 t.entries_writtenRounds
    rw [(buildRequest_eq_ok hrequest).2.1] at hlower
    have hmissing : t.Missing r request.exclusiveLowerBound c := by
      refine ⟨hholds, hmember, ?_, ?_⟩
      · rw [hround]
        exact hlower.1
      · rw [hround]
        exact hunknown
    have := ((hmem' c).mp ((hmem c).mpr hmissing)).2
    omega
  · rintro ⟨hbuilt, hlast⟩
    obtain ⟨request, hrequest⟩ := (exists_buildRequest_iff fmt t).mpr hbuilt
    obtain ⟨certs, hcerts, hsorted, hmem⟩ := retrieveMissingCerts_ok h hrequest
    refine ⟨request, certs, hrequest, hcerts, ?_, ?_, fun c => (hmem c).trans ?_⟩
    · refine hsorted.imp fun hlt => ?_
      rcases Prod.Lex.toLex_lt_toLex.mp hlt with hlt | heq
      · exact le_of_lt hlt
      · exact le_of_eq heq.1
    · exact hsorted.imp fun hlt heq => hlt.ne (by rw [heq])
    · refine ⟨And.left, fun hmissing => ⟨hmissing, ?_⟩⟩
      have hle : c.round ≤ maxRound := r.store.bounded _ hmissing.1.has
      refine lt_of_le_of_ne hle fun heq => hmissing.2.2.2 ?_
      rw [heq]
      exact hlast c hmissing.1 hmissing.2.1 heq

def earlyTask : FetchTask where
  store := CertificateStore.empty.write (certificateOf 1 3 [])
  committee := fourAuthorities
  gcRound := 2
  fallback := false
  maxResponseSize := 1000
  bounded := by
    intro k hk
    rcases ExtTreeMap.mem_insert.mp hk with heq | hk
    · rw [← Std.LawfulEqCmp.eq_of_compare heq]
      decide
    · exact absurd hk ExtTreeMap.not_mem_empty

def earlyStore : OriginIndex :=
  (OriginIndex.empty.write (certificateOf 1 3 []) (by decide)
    fun d hd _ => absurd hd (not_holds_empty d)).write (certificateOf 2 4 [])
    (by decide) fun _ hd hdigest => (holds_write hd).elim
      (fun heq => absurd (heq ▸ hdigest) (by decide))
      fun hd => absurd hd (not_holds_empty _)

theorem holds_earlyStore {c : Certificate} (h : earlyStore.Holds c) :
    c ∈ [certificateOf 2 4 [], certificateOf 1 3 []] := by
  rcases holds_write h with rfl | h
  · exact mem_cons_self
  · rcases holds_write h with rfl | h
    · exact mem_cons_of_mem _ mem_cons_self
    · exact absurd h (not_holds_empty c)

theorem served_iff_early : earlyTask.Served plainFormat (responderOf earlyStore) := by
  refine (served_iff plainFormat earlyTask (responderOf earlyStore)
    (withinLimits_responderOf rfl rfl (by decide +kernel) (fun _ => holds_earlyStore)
      (by decide))).mpr ⟨⟨by decide, fun a ha => ⟨maxRound, by decide, le_refl _, ?_⟩⟩, ?_⟩
  · have hnot : ∀ a ∈ fourAuthorities.authorities, maxRound ∉ earlyTask.writtenRoundsOf a.id := by
      decide +kernel
    exact fun hknown => hnot a ha (mem_writtenRoundsOf.mpr hknown)
  · intro c hc _ hround
    have hlow : ∀ c ∈ [certificateOf 2 4 [], certificateOf 1 3 []], c.round ≠ maxRound := by
      decide
    exact absurd hround (hlow c (holds_earlyStore hc))

def lateTask : FetchTask where
  store := CertificateStore.empty
  committee := fourAuthorities
  gcRound := 4294967293
  fallback := false
  maxResponseSize := 1000
  bounded := fun _ hk => absurd hk ExtTreeMap.not_mem_empty

def lateStore : OriginIndex :=
  OriginIndex.empty.write (certificateOf 2 4294967295 []) (by decide)
    fun d hd _ => absurd hd (not_holds_empty d)

theorem lastRound_not_served : WithinLimits plainFormat lateTask (responderOf lateStore) ∧
    ∃ request, lateTask.buildRequest plainFormat = .ok request ∧
      (responderOf lateStore).retrieveMissingCerts plainFormat request.received = .ok [] ∧
      lateTask.Missing (responderOf lateStore) request.exclusiveLowerBound
        (certificateOf 2 4294967295 []) := by
  have hholds : ∀ c, lateStore.Holds c → c ∈ [certificateOf 2 4294967295 []] := by
    intro c hc
    rcases holds_write hc with rfl | hc
    · exact mem_cons_self
    · exact absurd hc (not_holds_empty c)
  refine ⟨withinLimits_responderOf rfl rfl (by decide +kernel) hholds (by decide), ?_⟩
  refine ⟨_, rfl, by decide +kernel, ⟨by decide +kernel, by decide +kernel⟩, by decide, by decide,
    ?_⟩
  exact fun hknown => absurd hknown.2.2 ExtTreeMap.not_mem_empty

end FetchTask

end Axyl
