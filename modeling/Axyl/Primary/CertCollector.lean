import Axyl.Lib.KWayMerge
import Axyl.Primary.FetchRequest

/-! Serving a request for missing certificates: a cursor for each author named in the request, the
queue that merges them, and the iterator that hands out whole rounds within the limits. -/

namespace Axyl
open List OriginIndex
open Std (ExtTreeMap)
open Std.ExtTreeMap
open KWayMerge (push advance Cursor Valid Left Merges)

/-- The node that serves a request of its own epoch. `timeLimitReached n` is the answer at the
`n`-th look at the clock. -/
structure Responder where
  store : OriginIndex
  committee : Committee
  encodedLen : Certificate → Nat
  localMinRequestSize : Nat
  localMax : Nat
  maxSkipRounds : Nat
  timeLimitReached : Nat → Bool

inductive Staging where
  | continued
  | yielded
  | finished

/-- The queue is a list in increasing order, its head the next slot `(round, author)`. -/
structure CertificateCollector where
  fetchQueue : List (Nat × Nat)
  skipRounds : ExtTreeMap Nat (List Nat)
  maxMessageSize : Nat
  exclusiveUpperBound : Option Nat
  accumulatedSize : Nat := 0
  ready : List Certificate := []
  staging : List Certificate := []
  stagingSize : Nat := 0
  stagingRound : Option Nat := none
  polls : Nat := 0

namespace CertificateCollector

def findNextRoundFrom (store : OriginIndex) (origin : Nat) (skipRounds : List Nat)
    (exclusiveUpperBound : Option Nat) : Nat → Nat → Option Nat
  | 0, _ => none
  | fuel + 1, currentRound =>
    match store.nextRoundNumber origin currentRound with
    | none => none
    | some round =>
      if exclusiveUpperBound.getD maxRound ≤ round then none
      else if skipRounds.contains round then
        findNextRoundFrom store origin skipRounds exclusiveUpperBound fuel round
      else some round

def findNextRound (store : OriginIndex) (origin currentRound : Nat) (skipRounds : List Nat)
    (exclusiveUpperBound : Option Nat) : Option Nat :=
  findNextRoundFrom store origin skipRounds exclusiveUpperBound
    (store.certificateDigestByOrigin.keys.length + 1) currentRound

def initFetchQueue (store : OriginIndex) (lowerBound : Nat) (exclusiveUpperBound : Option Nat)
    (skipRounds : List (Nat × List Nat)) : List (Nat × Nat) :=
  skipRounds.foldl (fun queue e =>
    match findNextRound store e.1 lowerBound e.2 exclusiveUpperBound with
    | some nextRound => push (nextRound, e.1) queue
    | none => queue) []

def new (fmt : RoaringFormat) (r : Responder) (request : MissingCertificatesRequest) :
    FetchM CertificateCollector :=
  if request.maxResponseSize < r.localMinRequestSize then
    .error (.invalidRequest "Request size too small")
  else do
    let (lowerBound, skipRounds) ← request.getBounds fmt r.maxSkipRounds fun origin =>
      (r.committee.authority origin).isSome
    return {
      fetchQueue :=
        initFetchQueue r.store lowerBound request.exclusiveUpperBound skipRounds.toList
      skipRounds
      maxMessageSize := min request.maxResponseSize r.localMax
      exclusiveUpperBound := request.exclusiveUpperBound }

def nextCertificateFrom (store : OriginIndex) (c : CertificateCollector) :
    List (Nat × Nat) → FetchM (Option Certificate × CertificateCollector)
  | [] => .ok (none, { c with fetchQueue := [] })
  | (round, origin) :: queue =>
    match store.readByIndex origin round with
    | none => nextCertificateFrom store c queue
    | some cert =>
      match c.skipRounds[origin]? with
      | none => .error (.internal "failed to retrieve authority from skipped rounds")
      | some rounds =>
        match findNextRound store origin round rounds c.exclusiveUpperBound with
        | some nextRound => .ok (some cert, { c with fetchQueue := push (nextRound, origin) queue })
        | none => .ok (some cert, { c with fetchQueue := queue })

def nextCertificate (store : OriginIndex) (c : CertificateCollector) :
    FetchM (Option Certificate × CertificateCollector) :=
  nextCertificateFrom store c c.fetchQueue

def wouldExceedSizeLimit (c : CertificateCollector) (additionalBytes : Nat) : Bool :=
  decide (c.maxMessageSize < c.accumulatedSize + additionalBytes)

def commitStaging (c : CertificateCollector) : CertificateCollector :=
  if c.staging.isEmpty then c
  else { c with
    accumulatedSize := c.accumulatedSize + c.stagingSize
    ready := c.ready ++ c.staging
    staging := []
    stagingSize := 0 }

def stageCertificate (c : CertificateCollector) (cert : Certificate) (bytes : Nat) :
    Staging × CertificateCollector :=
  match c.stagingRound with
  | none =>
    if c.wouldExceedSizeLimit bytes then (.finished, c)
    else (.continued, { c with
      stagingRound := some cert.round, staging := c.staging ++ [cert], stagingSize := bytes })
  | some r =>
    if r = cert.round then
      if c.wouldExceedSizeLimit (c.stagingSize + bytes) then
        (.finished, { c with staging := [], stagingSize := 0 })
      else (.continued, { c with
        staging := c.staging ++ [cert], stagingSize := c.stagingSize + bytes })
    else
      let c := c.commitStaging
      if c.wouldExceedSizeLimit bytes then (.yielded, { c with stagingRound := none })
      else (.yielded, { c with
        stagingRound := some cert.round, staging := c.staging ++ [cert], stagingSize := bytes })

abbrev Item := Option (FetchM Certificate)

def popReady (c : CertificateCollector) : Item × CertificateCollector :=
  match c.ready with
  | [] => (none, c)
  | cert :: ready => (some (.ok cert), { c with ready })

def pump (r : Responder) : Nat → CertificateCollector → Item × CertificateCollector
  | 0, c => (none, c)
  | fuel + 1, c =>
    if r.timeLimitReached c.polls then
      (none, { c with staging := [], stagingSize := 0, polls := c.polls + 1 })
    else
      match nextCertificate r.store { c with polls := c.polls + 1 } with
      | .error e => (some (.error e), c)
      | .ok (none, c) => popReady { c.commitStaging with stagingRound := none }
      | .ok (some cert, c) =>
        match c.stageCertificate cert (r.encodedLen cert) with
        | (.continued, c) => pump r fuel c
        | (.yielded, c) => popReady c
        | (.finished, c) => (none, c)

def next (r : Responder) (c : CertificateCollector) : Item × CertificateCollector :=
  match c.ready with
  | cert :: ready => (some (.ok cert), { c with ready })
  | [] => pump r (r.store.certificateDigestByOrigin.keys.length + 1) c

def collect (r : Responder) : Nat → CertificateCollector → FetchM (List Certificate)
  | 0, _ => .ok []
  | fuel + 1, c =>
    match next r c with
    | (none, _) => .ok []
    | (some (.error e), _) => .error e
    | (some (.ok cert), c) => (cert :: ·) <$> collect r fuel c

end CertificateCollector

def maxRequestedAuthorities (committeeSize : Nat) : Nat :=
  min (max (2 * committeeSize) 64) maxSkipRoundAuthorities

def Responder.retrieveMissingCerts (fmt : RoaringFormat) (r : Responder)
    (request : MissingCertificatesRequest) : FetchM (List Certificate) :=
  let limit := maxRequestedAuthorities r.committee.size
  if limit < request.skipRounds.named then
    .error (.tooManyAuthorities request.skipRounds.named limit)
  else do
    let collector ← CertificateCollector.new fmt r request
    collector.collect r (r.store.certificateDigestByOrigin.keys.length + 1)

namespace CertificateCollector

/-! ### The cursors -/

/-- The author has a certificate in the store at the round, below the upper bound and not among
the rounds to skip. -/
def Servable (store : OriginIndex) (skipRounds : List Nat) (exclusiveUpperBound : Option Nat)
    (origin round : Nat) : Prop :=
  store.Has origin round ∧ round < exclusiveUpperBound.getD maxRound ∧ round ∉ skipRounds

def above (store : OriginIndex) (origin round : Nat) : List (Nat × Nat) :=
  store.certificateDigestByOrigin.keys.filter fun k => decide (k.1 = origin ∧ round < k.2)

variable {store : OriginIndex} {origin round : Nat} {skip : List Nat} {upper : Option Nat}

theorem length_above_lt {r : Nat} (hr : store.Has origin r) (hlt : round < r) :
    (above store origin r).length < (above store origin round).length := by
  have hsub : above store origin r = (above store origin round).filter fun k =>
      decide (k.1 = origin ∧ r < k.2) := by
    unfold above
    rw [filter_filter]
    refine filter_congr fun k _ => ?_
    rw [← Bool.decide_and]
    refine decide_eq_decide.mpr ?_
    omega
  rw [hsub]
  refine length_filter_lt_length_iff_exists.mpr ⟨(origin, r), ?_, ?_⟩
  · exact mem_filter.mpr ⟨ExtTreeMap.mem_keys.mpr hr, decide_eq_true ⟨rfl, hlt⟩⟩
  · simp

theorem findNextRoundFrom_some {fuel r : Nat}
    (h : findNextRoundFrom store origin skip upper fuel round = some r) :
    Servable store skip upper origin r ∧ round < r ∧
      ∀ s, Servable store skip upper origin s → round < s → r ≤ s := by
  induction fuel generalizing round with
  | zero => cases h
  | succ fuel ih =>
    unfold findNextRoundFrom at h
    split at h
    · cases h
    · rename_i next hnext
      obtain ⟨hhas, hlt, hleast⟩ := nextRoundNumber_some hnext
      split at h
      · cases h
      · rename_i hupper
        split at h
        · rename_i hskip
          obtain ⟨hserv, hlt', hleast'⟩ := ih h
          refine ⟨hserv, lt_trans hlt hlt', fun s hs hrnd => hleast' s hs ?_⟩
          -- a skipped round is not servable, so the next servable one is above it
          refine lt_of_le_of_ne (hleast s hs.1 hrnd) ?_
          rintro rfl
          exact hs.2.2 (contains_iff_mem.mp hskip)
        · rename_i hskip
          cases h
          refine ⟨⟨hhas, Nat.not_le.mp hupper, ?_⟩, hlt, fun s hs => hleast s hs.1⟩
          exact fun hmem => hskip (contains_iff_mem.mpr hmem)

theorem findNextRoundFrom_none {fuel : Nat} (hfuel : (above store origin round).length < fuel)
    (h : findNextRoundFrom store origin skip upper fuel round = none) {s : Nat}
    (hs : Servable store skip upper origin s) : s ≤ round := by
  induction fuel generalizing round with
  | zero => exact absurd hfuel (Nat.not_lt_zero _)
  | succ fuel ih =>
    by_contra hrnd
    rw [not_le] at hrnd
    unfold findNextRoundFrom at h
    split at h
    · rename_i hnext
      exact absurd (nextRoundNumber_none hnext hs.1) (by omega)
    · rename_i next hnext
      obtain ⟨hhas, hlt, hleast⟩ := nextRoundNumber_some hnext
      have hle := hleast s hs.1 hrnd
      split at h
      · rename_i hupper
        exact absurd (by omega) (Nat.not_le.mpr hs.2.1)
      · split at h
        · rename_i hskip
          have hshrink := length_above_lt hhas hlt
          have hle' := ih (by omega) h
          have heq : s = next := by omega
          rw [heq] at hs
          exact hs.2.2 (contains_iff_mem.mp hskip)
        · cases h

theorem findNextRound_none (h : findNextRound store origin round skip upper = none) {s : Nat}
    (hs : Servable store skip upper origin s) : s ≤ round := by
  refine findNextRoundFrom_none ?_ h hs
  exact Nat.lt_succ_of_le (length_filter_le _ _)

def Wanted (store : OriginIndex) (skipRounds : ExtTreeMap Nat (List Nat)) (upper : Option Nat)
    (origin round : Nat) : Prop :=
  ∃ rounds, skipRounds[origin]? = some rounds ∧ Servable store rounds upper origin round

def nextOf (store : OriginIndex) (skipRounds : ExtTreeMap Nat (List Nat)) (upper : Option Nat)
    (origin round : Nat) : Option Nat :=
  match skipRounds[origin]? with
  | none => none
  | some rounds => findNextRound store origin round rounds upper

theorem cursor_nextOf (store : OriginIndex) (skipRounds : ExtTreeMap Nat (List Nat))
    (upper : Option Nat) :
    Cursor (nextOf store skipRounds upper) (Wanted store skipRounds upper) where
  some := by
    intro origin round next h
    unfold nextOf at h
    split at h
    · cases h
    · rename_i rs hrs
      obtain ⟨hserv, hlt, hleast⟩ := findNextRoundFrom_some h
      refine ⟨⟨rs, hrs, hserv⟩, hlt, ?_⟩
      rintro s ⟨rs', hrs', hs⟩
      rw [hrs] at hrs'
      cases hrs'
      exact hleast s hs
  none := by
    rintro origin round h s ⟨rs, hrs, hs⟩
    unfold nextOf at h
    rw [hrs] at h
    exact findNextRound_none h hs

/-! ### The queue a collector starts with -/

theorem mem_initFetchQueue (store : OriginIndex) (lowerBound : Nat) (upper : Option Nat)
    (es : List (Nat × List Nat)) (x : Nat × Nat) : x ∈ initFetchQueue store lowerBound upper es ↔
      ∃ e ∈ es, e.1 = x.2 ∧ findNextRound store e.1 lowerBound e.2 upper = some x.1 := by
  induction es using reverseRecOn with
  | nil => simp [initFetchQueue]
  | append_singleton es e ih =>
    unfold initFetchQueue at ih ⊢
    rw [foldl_append]
    simp only [foldl_cons, foldl_nil, mem_append, mem_singleton]
    cases hnext : findNextRound store e.1 lowerBound e.2 upper with
    | none =>
      rw [ih]
      constructor
      · rintro ⟨e', he', h⟩
        exact ⟨e', .inl he', h⟩
      · rintro ⟨e', he' | rfl, h⟩
        · exact ⟨e', he', h⟩
        · rw [hnext] at h
          cases h.2
    | some next =>
      simp only [KWayMerge.mem_push]
      rw [ih]
      constructor
      · rintro (rfl | ⟨e', he', h⟩)
        · exact ⟨e, .inr rfl, rfl, hnext⟩
        · exact ⟨e', .inl he', h⟩
      · rintro ⟨e', he' | rfl, h⟩
        · exact .inr ⟨e', he', h⟩
        · rw [hnext] at h
          exact .inl (Prod.ext (Option.some.inj h.2).symm h.1.symm)

section
variable {skips : ExtTreeMap Nat (List Nat)} {low : Nat}

theorem valid_initFetchQueue {entries : List (Nat × List Nat)} (hnd : (entries.map Prod.fst).Nodup)
    (hents : ∀ e ∈ entries, skips[e.1]? = some e.2) :
    Valid (Wanted store skips upper) (initFetchQueue store low upper entries) := by
  induction entries using reverseRecOn with
  | nil => exact KWayMerge.valid_nil
  | append_singleton entries e ih =>
    rw [map_append, nodup_append] at hnd
    have ih := ih hnd.1 fun e' he' => hents e' (mem_append_left _ he')
    have hstep : initFetchQueue store low upper (entries ++ [e]) =
        match findNextRound store e.1 low e.2 upper with
        | some next => push (next, e.1) (initFetchQueue store low upper entries)
        | none => initFetchQueue store low upper entries := by
      simp only [initFetchQueue, foldl_append, foldl_cons, foldl_nil]
    rw [hstep]
    split
    · rename_i next hnext
      obtain ⟨hserv, _, _⟩ := findNextRoundFrom_some hnext
      refine ih.push ⟨e.2, hents e (by simp), hserv⟩ ?_
      intro hmem
      obtain ⟨x, hx, hsrc⟩ := mem_map.mp hmem
      obtain ⟨e', he', hkey, _⟩ := (mem_initFetchQueue store low upper entries x).mp hx
      exact hnd.2.2 e'.1 (mem_map_of_mem he') e.1 (by simp) (hkey.trans hsrc)
    · exact ih

theorem left_initFetchQueue {y : Nat × Nat} : Left (Wanted store skips upper)
        (initFetchQueue store low upper skips.toList) y ↔
      Wanted store skips upper y.2 y.1 ∧ low < y.1 := by
  constructor
  · rintro ⟨hwanted, r, hr, hmem⟩
    obtain ⟨e, _, _, hnext⟩ := (mem_initFetchQueue store low upper _ _).mp hmem
    exact ⟨hwanted, lt_of_lt_of_le (findNextRoundFrom_some hnext).2.1 hr⟩
  · rintro ⟨hwanted, hlt⟩
    refine ⟨hwanted, ?_⟩
    obtain ⟨rs, hrs, hserv⟩ := hwanted
    have hent := mem_toList_iff_getElem?_eq_some.mpr hrs
    cases hnext : findNextRound store y.2 low rs upper with
    | none => exact absurd (findNextRound_none hnext hserv) (by omega)
    | some next =>
      refine ⟨next, (findNextRoundFrom_some hnext).2.2 y.1 hserv hlt, ?_⟩
      exact (mem_initFetchQueue store low upper _ _).mpr ⟨_, hent, rfl, hnext⟩

end

/-! ### What the iterator has yet to yield -/

/-- The slots the cursors have not passed and their certificates, none of which a limit on the
size cuts. They come after those ready and those staged. -/
structure Pending (r : Responder) (c : CertificateCollector) (slots : List (Nat × Nat))
    (later : List Certificate) : Prop where
  valid : Valid (Wanted r.store c.skipRounds c.exclusiveUpperBound) c.fetchQueue
  merges : Merges (Wanted r.store c.skipRounds c.exclusiveUpperBound) c.fetchQueue slots
  reads : (slots.map fun x => r.store.readByIndex x.2 x.1) = later.map some
  fits : c.accumulatedSize + c.stagingSize + (later.map r.encodedLen).sum ≤ c.maxMessageSize
  bounded : later.length ≤ r.store.certificateDigestByOrigin.keys.length
  staged : c.stagingRound.isSome → c.staging ≠ []

def Yields (r : Responder) (answer : Item × CertificateCollector) : List Certificate → Prop
  | [] => answer.1 = none
  | cert :: rest => answer.1 = some (.ok cert) ∧ ∃ slots later,
      Pending r answer.2 slots later ∧ answer.2.ready ++ answer.2.staging ++ later = rest

section
variable {r : Responder} {c : CertificateCollector} {slots : List (Nat × Nat)}
  {cert : Certificate} {later : List Certificate}

theorem Pending.fetchQueue_eq_nil (h : Pending r c slots []) : c.fetchQueue = [] := by
  have hsl : slots = [] := map_eq_nil_iff.mp h.reads
  cases hque : c.fetchQueue with
  | nil => rfl
  | cons x queue =>
    have hval := h.valid
    rw [hque] at hval
    have hmem := (h.merges.mem x).mpr (by rw [hque]; exact hval.left_head)
    rw [hsl] at hmem
    cases hmem

theorem Pending.nextCertificate_nil (h : Pending r c slots []) :
    nextCertificate r.store c = .ok (none, c) := by
  unfold nextCertificate
  rw [h.fetchQueue_eq_nil, nextCertificateFrom]
  cases c
  cases h.fetchQueue_eq_nil
  rfl

theorem Pending.nextCertificate_cons (h : Pending r c slots (cert :: later)) :
    ∃ queue rest, nextCertificate r.store c = .ok (some cert, { c with fetchQueue := queue }) ∧
      Pending r { c with fetchQueue := queue } rest later ∧
      c.accumulatedSize + c.stagingSize + r.encodedLen cert + (later.map r.encodedLen).sum ≤
        c.maxMessageSize := by
  have hc := cursor_nextOf r.store c.skipRounds c.exclusiveUpperBound
  have hval := h.valid
  have hmrg := h.merges
  have hrds := h.reads
  have hfits := h.fits
  rw [map_cons, sum_cons] at hfits
  cases hque : c.fetchQueue with
  | nil =>
    rw [hque] at hmrg
    rw [hmrg.nil] at hrds
    cases hrds
  | cons x queue =>
    rw [hque] at hval hmrg
    obtain ⟨rest, rfl, hrest⟩ := hmrg.cons hc hval
    rw [map_cons, map_cons, List.cons.injEq] at hrds
    obtain ⟨rounds, hrs, _⟩ := hval.wanted x mem_cons_self
    refine ⟨advance (nextOf r.store c.skipRounds c.exclusiveUpperBound) x queue, rest, ?_,
      ⟨hval.advance hc, hrest, hrds.2, ?_, Nat.le_of_succ_le h.bounded, h.staged⟩, ?_⟩
    · simp only [nextCertificate, hque, nextCertificateFrom, hrds.1, hrs, advance, nextOf]
      cases findNextRound r.store x.2 x.1 rounds c.exclusiveUpperBound <;> rfl
    · simp only
      omega
    · omega

theorem yields_popReady (h : Pending r c slots later)
    (hrdy : c.ready = [] → c.staging ++ later = []) :
    Yields r (popReady c) (c.ready ++ c.staging ++ later) := by
  cases hc : c.ready with
  | nil =>
    rw [nil_append, hrdy hc]
    simp only [Yields, popReady, hc]
  | cons cert ready =>
    refine ⟨by simp only [popReady, hc], slots, later, ?_, ?_⟩
    · simp only [popReady, hc]
      exact { h with }
    · simp only [popReady, hc]
      rfl

theorem commitStaging_split (c : CertificateCollector) :
    c.commitStaging.staging = [] ∧ c.commitStaging.ready = c.ready ++ c.staging := by
  unfold commitStaging
  split
  · rename_i hemp
    rw [List.isEmpty_iff] at hemp
    exact ⟨hemp, by rw [hemp, append_nil]⟩
  · exact ⟨rfl, rfl⟩

theorem Pending.commitStaging (h : Pending r c slots later) :
    Pending r { c.commitStaging with stagingRound := none } slots later := by
  unfold CertificateCollector.commitStaging
  split
  · exact { h with staged := nofun }
  · exact { h with staged := nofun }

theorem yields_popReady_commitStaging (h : Pending r c slots []) :
    Yields r (popReady { c.commitStaging with stagingRound := none }) (c.ready ++ c.staging) := by
  obtain ⟨hstg, hrdy⟩ := commitStaging_split c
  have hspl : c.ready ++ c.staging = c.commitStaging.ready ++ c.commitStaging.staging ++ [] := by
    rw [hstg, hrdy, append_nil, append_nil]
  rw [hspl]
  refine yields_popReady h.commitStaging fun _ => ?_
  rw [append_nil]
  exact hstg

theorem Pending.stageCertificate (h : Pending r c slots later)
    (hfits : c.accumulatedSize + c.stagingSize + r.encodedLen cert +
      (later.map r.encodedLen).sum ≤ c.maxMessageSize) :
    ∃ c', Pending r c' slots later ∧
      c'.ready ++ c'.staging = c.ready ++ c.staging ++ [cert] ∧
      (c.stageCertificate cert (r.encodedLen cert) = (.continued, c') ∧ c'.ready = c.ready ∨
        c.stageCertificate cert (r.encodedLen cert) = (.yielded, c') ∧ c'.ready ≠ []) := by
  unfold CertificateCollector.stageCertificate wouldExceedSizeLimit
  cases hrnd : c.stagingRound with
  | none =>
    simp only [decide_eq_true_eq]
    rw [if_neg (by omega)]
    refine ⟨_, ?_, ?_, .inl ⟨rfl, rfl⟩⟩
    · refine { h with fits := ?_, staged := by simp }
      simp only
      omega
    · simp
  | some staged =>
    simp only [decide_eq_true_eq]
    by_cases hsame : staged = cert.round
    · rw [if_pos hsame, if_neg (by omega)]
      refine ⟨_, ?_, ?_, .inl ⟨rfl, rfl⟩⟩
      · refine { h with fits := ?_, staged := by simp }
        simp only
        omega
      · simp
    · have hne : c.staging ≠ [] := h.staged (by rw [hrnd]; rfl)
      have hemp : c.staging.isEmpty = false := isEmpty_eq_false_iff.mpr hne
      rw [if_neg hsame]
      simp only [CertificateCollector.commitStaging, hemp, Bool.false_eq_true, if_false]
      rw [if_neg (by omega)]
      refine ⟨_, ?_, ?_, .inr ⟨rfl, ?_⟩⟩
      · refine { h with fits := ?_, staged := by simp }
        simp only
        omega
      · simp
      · simp [hne]

section
variable (htime : ∀ n, r.timeLimitReached n = false)
include htime

section
variable (h : Pending r c slots later)
include h

theorem yields_pump {fuel : Nat} (hrdy : c.ready = []) (hfuel : later.length < fuel) :
    Yields r (pump r fuel c) (c.ready ++ c.staging ++ later) := by
  induction fuel generalizing c slots later with
  | zero => exact absurd hfuel (Nat.not_lt_zero _)
  | succ fuel ih =>
    have h' : Pending r { c with polls := c.polls + 1 } slots later := { h with }
    unfold pump
    rw [if_neg (by rw [htime]; exact Bool.false_ne_true)]
    cases later with
    | nil =>
      rw [h'.nextCertificate_nil, append_nil]
      exact yields_popReady_commitStaging h'
    | cons cert later =>
      obtain ⟨queue, rest, hnext, hpnd, hfits⟩ := h'.nextCertificate_cons
      obtain ⟨c', hpnd', hspl, hstg⟩ := hpnd.stageCertificate hfits
      have hlist : c.ready ++ c.staging ++ cert :: later = c'.ready ++ c'.staging ++ later := by
        rw [hspl, append_cons]
      rw [hnext, hlist]
      rcases hstg with ⟨hstg, hrdy'⟩ | ⟨hstg, hrdy'⟩
      · simp only [hstg]
        exact ih hpnd' (hrdy'.trans hrdy) (Nat.lt_of_succ_lt_succ hfuel)
      · simp only [hstg]
        exact yields_popReady hpnd' fun hnil => absurd hnil hrdy'

theorem yields_next : Yields r (next r c) (c.ready ++ c.staging ++ later) := by
  unfold next
  split
  · rename_i cert ready hrdy
    rw [hrdy]
    exact ⟨rfl, slots, later, { h with }, rfl⟩
  · rename_i hrdy
    exact yields_pump htime h hrdy (Nat.lt_succ_of_le h.bounded)

theorem collect_pending {fuel : Nat} {rest : List Certificate}
    (hrest : c.ready ++ c.staging ++ later = rest) (hfuel : rest.length < fuel) :
    collect r fuel c = .ok rest := by
  induction rest generalizing fuel c slots later with
  | nil =>
    obtain ⟨fuel, rfl⟩ := Nat.exists_eq_succ_of_ne_zero (ne_of_gt hfuel)
    have hyld := yields_next htime h
    rw [hrest] at hyld
    unfold collect
    split
    · rfl
    · rename_i heq
      simp only [Yields, heq, reduceCtorEq] at hyld
    · rename_i heq
      simp only [Yields, heq, reduceCtorEq] at hyld
  | cons cert rest ih =>
    obtain ⟨fuel, rfl⟩ := Nat.exists_eq_succ_of_ne_zero (ne_of_gt (Nat.zero_lt_of_lt hfuel))
    have hyld := yields_next htime h
    rw [hrest] at hyld
    obtain ⟨hit, slots', later', h', hrest'⟩ := hyld
    have hans : next r c = (some (.ok cert), (next r c).2) := Prod.ext hit rfl
    unfold collect
    rw [hans]
    simp only [ih h' hrest' (Nat.lt_of_succ_lt_succ hfuel)]
    rfl

end

end

theorem exists_reads {slots : List (Nat × Nat)} (h : ∀ x ∈ slots, store.Has x.2 x.1) :
    ∃ later : List Certificate,
      (slots.map fun x => store.readByIndex x.2 x.1) = later.map some ∧
      (later.map fun c => (c.round, c.origin)) = slots ∧
      ∀ c, c ∈ later ↔ store.Holds c ∧ (c.round, c.origin) ∈ slots := by
  induction slots with
  | nil => exact ⟨[], rfl, rfl, fun c => by simp⟩
  | cons x slots ih =>
    obtain ⟨later, hreads, hslots, hmem⟩ := ih fun y hy => h y (mem_cons_of_mem x hy)
    obtain ⟨cert, hread, hhold, horig, hrnd⟩ := readByIndex_of_has (h x mem_cons_self)
    have hslot : (cert.round, cert.origin) = x := Prod.ext hrnd horig
    refine ⟨cert :: later, ?_, ?_, fun c => ?_⟩
    · rw [map_cons, map_cons, hread, hreads]
    · rw [map_cons, hslots, hslot]
    · rw [mem_cons, mem_cons, hmem c]
      constructor
      · rintro (rfl | ⟨hc, hmem⟩)
        · exact ⟨hhold, .inl hslot⟩
        · exact ⟨hc, .inr hmem⟩
      · rintro ⟨hc, hx | hmem⟩
        · -- a slot is read back to one certificate
          left
          rw [← hx] at hread
          exact Option.some.inj (hc.readByIndex_eq.symm.trans hread)
        · exact .inr ⟨hc, hmem⟩

theorem collect_new {m : ExtTreeMap Nat (List Nat)} {lowerBound maxMessageSize : Nat}
    (htime : ∀ n, r.timeLimitReached n = false)
    (hfits : ∀ certs : List Certificate, certs.Nodup → (∀ c ∈ certs, r.store.Holds c ∧
      Wanted r.store m upper c.origin c.round ∧ lowerBound < c.round) →
        (certs.map r.encodedLen).sum ≤ maxMessageSize) :
    ∃ certs, collect r (r.store.certificateDigestByOrigin.keys.length + 1)
        { fetchQueue := initFetchQueue r.store lowerBound upper m.toList, skipRounds := m,
          maxMessageSize, exclusiveUpperBound := upper } = .ok certs ∧
      (certs.Pairwise fun a b => KWayMerge.Lt (a.round, a.origin) (b.round, b.origin)) ∧
      ∀ c, c ∈ certs ↔ r.store.Holds c ∧ Wanted r.store m upper c.origin c.round ∧
        lowerBound < c.round := by
  have hkeys : (m.toList.map Prod.fst).Nodup := by
    rw [map_fst_toList_eq_keys]
    exact nodup_keys
  have hvalid : Valid (Wanted r.store m upper)
      (initFetchQueue r.store lowerBound upper m.toList) :=
    valid_initFetchQueue hkeys fun e he => mem_toList_iff_getElem?_eq_some.mp he
  -- what is ahead are slots of the index, so it is finite
  have hhas : ∀ y, Left (Wanted r.store m upper)
      (initFetchQueue r.store lowerBound upper m.toList) y → r.store.Has y.2 y.1 := by
    rintro y ⟨⟨_, _, hservable⟩, _⟩
    exact hservable.1
  obtain ⟨slots, hmerges⟩ := KWayMerge.exists_merges
    (r.store.certificateDigestByOrigin.keys.map Prod.swap) fun y hy =>
      List.mem_map.mpr ⟨(y.2, y.1), ExtTreeMap.mem_keys.mpr (hhas y hy), rfl⟩
  obtain ⟨later, hreads, hslots, hmem⟩ :=
    exists_reads fun x hx => hhas x ((hmerges.mem x).mp hx)
  have hsorted : later.Pairwise fun a b =>
      KWayMerge.Lt (a.round, a.origin) (b.round, b.origin) := by
    have := hmerges.sorted
    rw [← hslots, List.pairwise_map] at this
    exact this
  have hiff : ∀ c, c ∈ later ↔ r.store.Holds c ∧ Wanted r.store m upper c.origin c.round ∧
      lowerBound < c.round := by
    intro c
    rw [hmem c, hmerges.mem, left_initFetchQueue]
  have hnodup : later.Nodup := hsorted.imp fun hlt heq => hlt.ne (by rw [heq])
  have hlength : later.length ≤ r.store.certificateDigestByOrigin.keys.length := by
    have hnodup' : slots.Nodup := hmerges.sorted.imp KWayMerge.Lt.ne
    have hsub : slots ⊆ r.store.certificateDigestByOrigin.keys.map Prod.swap := fun y hy =>
      List.mem_map.mpr
        ⟨(y.2, y.1), ExtTreeMap.mem_keys.mpr (hhas y ((hmerges.mem y).mp hy)), rfl⟩
    have := (List.subperm_of_subset hnodup' hsub).length_le
    rw [List.length_map, ← hslots, List.length_map] at this
    exact this
  have hpending : Pending r
      { fetchQueue := initFetchQueue r.store lowerBound upper m.toList, skipRounds := m,
        maxMessageSize, exclusiveUpperBound := upper } slots later := by
    refine ⟨hvalid, hmerges, hreads, ?_, hlength, by simp⟩
    simp only [add_zero, zero_add]
    exact hfits later hnodup fun c hc => (hiff c).mp hc
  exact ⟨later, collect_pending htime hpending rfl (Nat.lt_succ_of_le hlength), hsorted, hiff⟩

end

end CertificateCollector

end Axyl
