import Axyl.Worker.Pipeline
import Mathlib.Data.Bool.Basic
import Mathlib.Data.List.Induction
import Mathlib.Tactic.Common

/-! How far the batch builder seals ahead of execution. -/

namespace Axyl
open List PipelineState EpochPhase

def sealedSeqs (fx : List BuilderEffect) : List Nat :=
  fx.filterMap fun
    | .sealed seq => some seq
    | _ => none

def unexecuted (fx : List BuilderEffect) (watermark : Option Nat) : List Nat :=
  (sealedSeqs fx).filter fun seq => watermark.all fun executed => executed < seq

def lastStarted (fx : List BuilderEffect) : Option (Nat × Nat) :=
  (fx.filterMap fun
    | .started seq tip => some (seq, tip)
    | _ => none).getLast?

def firstUncovered (startSeq : Nat) (watermark : Option Nat) : Nat :=
  watermark.elim startSeq fun executed => max startSeq (executed + 1)

theorem sealedSeqs_append (fx gx : List BuilderEffect) :
    sealedSeqs (fx ++ gx) = sealedSeqs fx ++ sealedSeqs gx := filterMap_append

theorem lastStarted_append (fx gx : List BuilderEffect) :
    lastStarted (fx ++ gx) = (lastStarted gx).or (lastStarted fx) := by
  rw [lastStarted, filterMap_append, List.getLast?_append]
  rfl

theorem length_filter_range' (first n c : Nat) :
    ((List.range' first n).filter fun seq => c ≤ seq).length = first + n - max first c := by
  induction n generalizing first with
  | zero =>
    rw [List.range'_zero, filter_nil, length_nil]
    omega
  | succ n ih =>
    rw [List.range'_succ, filter_cons]
    split
    · next hc =>
      have hc : c ≤ first := by simpa using hc
      rw [length_cons, ih]
      omega
    · next hc =>
      have hc : ¬ c ≤ first := by simpa using hc
      rw [ih]
      omega

theorem length_unexecuted {fx : List BuilderEffect} {first n : Nat}
    (h : sealedSeqs fx = List.range' first n) (watermark : Option Nat) :
    (unexecuted fx watermark).length = first + n - firstUncovered first watermark := by
  rw [unexecuted, h]
  cases watermark with
  | none =>
    have hall : (List.range' first n).filter (fun _ => true) = List.range' first n :=
      filter_eq_self.mpr fun _ _ => rfl
    simp [firstUncovered, hall]
  | some exec => exact length_filter_range' first n (exec + 1)

namespace BatchBuilder

def building (b : BatchBuilder) : Bool := b.ended.isNone && b.pipeline.isAwaitingQuorum

/-- The invariant of a builder that starts above zero; `n` batches are sealed. With the build on its
way they stay within the budget, and within one batch as long as the first one is not executed. -/
structure Ahead (first n : Nat) (fx : List BuilderEffect) (b : BatchBuilder) : Prop where
  seqs : sealedSeqs fx = List.range' first n
  startSeq : b.pipeline.data.startSeq = first
  counted : b.ended ≠ some .overflow →
    b.pipeline.data.currentSeq = first + n ∧
      b.pipeline.data.highestDurableSealedSeq = some (first + n - 1)
  covered : ∀ executed, b.ownExecutedWatermark = some executed → first - 1 ≤ executed
  budget : first + n - firstUncovered first b.ownExecutedWatermark + b.building.toNat ≤ maxSealAhead
  throttled : firstUncovered first b.ownExecutedWatermark = first → n + b.building.toNat ≤ 1
  quiesced : ∀ seq tip, lastStarted fx = some (seq, tip) →
    evaluate b.epochBoundary tip = .quiescing →
      first + n + b.building.toNat ≤ firstUncovered first b.ownExecutedWatermark + 1

variable {first n : Nat} {fx : List BuilderEffect} {b : BatchBuilder}

theorem depth_eq (h : b.Ahead first n fx) (hst : 0 < first) (hend : b.ended = none) :
    calculateInFlightDepth b.pipeline.data.highestDurableSealedSeq b.pipeline.data.startSeq
        b.ownExecutedWatermark = first + n - firstUncovered first b.ownExecutedWatermark := by
  obtain ⟨-, hhigh⟩ := h.counted (by rw [hend]; nofun)
  rw [hhigh, h.startSeq, calculateInFlightDepth]
  cases hw : b.ownExecutedWatermark with
  | none =>
    rw [firstUncovered, Option.getD_none, Option.elim_none]
    omega
  | some exec =>
    have hcov := h.covered exec hw
    rw [firstUncovered, Option.getD_some, Option.elim_some]
    omega

theorem gate_open {data : PipelineData} {wm : Option Nat} {boundary : Nat}
    (h : checkBuildBudget data wm boundary = .ok ()) :
    let depth := calculateInFlightDepth data.highestDurableSealedSeq data.startSeq wm
    depth < (evaluate boundary data.lastCanonicalTimestamp).maxAllowedAhead ∧
      ((∀ exec, wm = some exec → exec < data.startSeq) → depth = 0) := by
  unfold checkBuildBudget at h
  dsimp only at h ⊢
  split at h
  · cases h
  · split at h
    · cases h
    · next hthrottle =>
      split at h
      · cases h
      · next hbud =>
        refine ⟨Nat.lt_of_not_le hbud, fun hhead => ?_⟩
        rw [not_and_or] at hthrottle
        rcases hthrottle with hexec | hdep
        · cases wm with
          | none => simp at hexec
          | some exec =>
            have hlt := hhead exec rfl
            simp at hexec
            omega
        · omega

def Keeps (p p' : PipelineState) : Prop :=
  p'.data.startSeq = p.data.startSeq ∧ p'.data.currentSeq = p.data.currentSeq ∧
    p'.data.highestDurableSealedSeq = p.data.highestDurableSealedSeq ∧
      (p'.isAwaitingQuorum → p.isAwaitingQuorum)

section
variable (p : PipelineState)

theorem keeps_onEvent : Keeps p p.onEvent := by
  unfold onEvent Keeps
  cases hp : p.phase <;> simp [isAwaitingQuorum, hp]

theorem keeps_onWindow : Keeps p p.onWindow := by
  unfold onWindow Keeps
  cases hp : p.phase <;> simp [isAwaitingQuorum]

theorem keeps_onCanonicalUpdate (tips : List Nat) : Keeps p (tips.foldl .onCanonicalUpdate p) := by
  induction tips generalizing p with
  | nil => exact ⟨rfl, rfl, rfl, id⟩
  | cons tip tips ih =>
    obtain ⟨hst, hcur, hhigh, hawait⟩ := ih (p.onCanonicalUpdate tip)
    exact ⟨hst, hcur, hhigh, hawait⟩

end

variable {eventArrived : Bool} {p : PipelineState} {ev : BuilderEvent}

section
variable (h : b.Ahead first n fx)
include h

theorem Ahead.move (hp : Keeps b.pipeline p) {e : Option BuilderEnd}
    (he : e.isNone → b.ended.isNone) (hend : e ≠ some .overflow → b.ended ≠ some .overflow) :
    Ahead first n fx { b with pipeline := p, ended := e } := by
  obtain ⟨hst, hcur, hhigh, hawait⟩ := hp
  have hle : (building { b with pipeline := p, ended := e }).toNat ≤ b.building.toNat := by
    refine Bool.toNat_le_toNat fun hb => ?_
    have hb : (e.isNone && p.isAwaitingQuorum) = true := hb
    rw [Bool.and_eq_true] at hb
    rw [building, he hb.1, hawait hb.2]
    rfl
  have hbud := h.budget
  refine { h with
    startSeq := hst.trans h.startSeq
    counted := fun hne => ?_
    budget := ?_
    throttled := fun hhead => ?_
    quiesced := fun seq tip hlast hqui => ?_ }
  · dsimp only
    rw [hcur, hhigh]
    exact h.counted (hend hne)
  · dsimp only
    omega
  · have hthrottled := h.throttled hhead
    omega
  · have hquiesced := h.quiesced seq tip hlast hqui
    dsimp only
    omega

theorem Ahead.withPipeline (hp : Keeps b.pipeline p) : (b.withPipeline p).Ahead first n fx :=
  h.move hp id id

theorem Ahead.tryStartBuild (hst : 0 < first) (hend : b.ended = none) :
    b.tryStartBuild.2.Ahead first n (fx ++ b.tryStartBuild.1) := by
  have hstay : b.Ahead first n (fx ++ []) := by
    rw [append_nil]
    exact h
  unfold BatchBuilder.tryStartBuild
  cases hgate : checkBuildBudget b.pipeline.data b.ownExecutedWatermark b.epochBoundary with
  | error e => cases b.pipeline.phase <;> exact hstay
  | ok =>
    obtain ⟨hopen, hhead⟩ := gate_open hgate
    rw [depth_eq h hst hend] at hopen hhead
    have hbud : first + n - firstUncovered first b.ownExecutedWatermark + 1 ≤ maxSealAhead := by
      refine Nat.le_trans hopen ?_
      cases evaluate b.epochBoundary b.pipeline.data.lastCanonicalTimestamp <;> decide
    have hone := Bool.toNat_le
      (b.withPipeline { b.pipeline with phase := .awaitingQuorum false }).building
    have hsta : (b.withPipeline { b.pipeline with phase := .awaitingQuorum false }).Ahead first n
        (fx ++ [.started b.pipeline.data.currentSeq b.pipeline.data.lastCanonicalTimestamp]) := by
      refine { h with
        seqs := ?_
        budget := Nat.le_trans (Nat.add_le_add_left hone _) hbud
        throttled := fun hfst => ?_
        quiesced := fun seq tip hlast hqui => ?_ }
      · rw [sealedSeqs_append, h.seqs]
        exact append_nil _
      · have hfst : firstUncovered first b.ownExecutedWatermark = first := hfst
        have hzero : first + n - firstUncovered first b.ownExecutedWatermark = 0 := by
          apply hhead
          intro exec hw
          rw [hw, firstUncovered, Option.elim_some] at hfst
          rw [h.startSeq]
          omega
        omega
      · have htip : tip = b.pipeline.data.lastCanonicalTimestamp := by
          simpa [lastStarted] using (congrArg (Option.map Prod.snd) hlast).symm
        have hqui : evaluate b.epochBoundary tip = .quiescing := hqui
        rw [htip] at hqui
        rw [hqui, maxAllowedAhead] at hopen
        change _ ≤ firstUncovered first b.ownExecutedWatermark + 1
        omega
    cases b.pipeline.phase <;> first | exact hstay | exact hsta

theorem Ahead.finish {e : BuilderEnd} (hend : b.ended = none) : (b.finish e).Ahead first n fx := by
  refine h.move ⟨rfl, rfl, rfl, id⟩ nofun fun _ => ?_
  rw [hend]
  nofun

theorem Ahead.loopHead (hst : 0 < first) : b.loopHead.2.Ahead first n (fx ++ b.loopHead.1) := by
  have happ : fx ++ [] = fx := append_nil fx
  unfold BatchBuilder.loopHead
  split
  · rw [happ]
    exact h
  · next hrng =>
    have hend : b.ended = none := by simpa using hrng
    split
    · rw [happ]
      exact h.finish hend
    · exact h.tryStartBuild hst hend

theorem Ahead.sealed {e : Option BuilderEnd} (hend : b.ended = none) (hbld : b.building = true)
    (hstartSeq : p.data.startSeq = b.pipeline.data.startSeq)
    (hctd : e ≠ some .overflow → p.data.currentSeq = first + (n + 1) ∧
        p.data.highestDurableSealedSeq = some (first + (n + 1) - 1))
    (hidle : building { b with pipeline := p, ended := e } = false) :
    Ahead first (n + 1) (fx ++ [.sealed b.pipeline.data.currentSeq])
      { b with pipeline := p, ended := e } := by
  obtain ⟨hcur, -⟩ := h.counted (by rw [hend]; nofun)
  have hbud := h.budget
  have hthrottled := h.throttled
  rw [hbld, Bool.toNat_true] at hbud hthrottled
  refine { h with
    seqs := ?_
    startSeq := hstartSeq.trans h.startSeq
    counted := hctd
    budget := ?_
    throttled := ?_
    quiesced := ?_ }
  · rw [sealedSeqs_append, h.seqs, hcur, List.range'_concat, one_mul]
    rfl
  · rw [hidle, Bool.toNat_false]
    dsimp only
    omega
  · rw [hidle]
    exact hthrottled
  · rw [hidle, Bool.toNat_false, lastStarted_append]
    intro seq tip hlast hqui
    have hquiesced := h.quiesced seq tip hlast hqui
    rw [hbld, Bool.toNat_true] at hquiesced
    dsimp only
    omega

theorem Ahead.advance (hend : b.ended = none) (hbld : b.building = true) {atCapacity : Bool}
    (hp : b.pipeline.markInFlightAndAdvance eventArrived atCapacity = some p) :
    (b.withPipeline p).Ahead first (n + 1) (fx ++ [.sealed b.pipeline.data.currentSeq]) := by
  obtain ⟨hcur, hhigh⟩ := h.counted (by rw [hend]; nofun)
  unfold markInFlightAndAdvance at hp
  dsimp only at hp
  rw [hhigh, hcur, Option.elim_some] at hp
  split at hp
  · cases hp
  · have hmax : max (first + n - 1) (first + n) = first + (n + 1) - 1 := by omega
    have hfields : p.data.startSeq = b.pipeline.data.startSeq ∧
        p.data.currentSeq = first + (n + 1) ∧
        p.data.highestDurableSealedSeq = some (first + (n + 1) - 1) ∧
        p.isAwaitingQuorum = false := by
      rw [hmax] at hp
      split at hp
      · cases hp
        exact ⟨rfl, rfl, rfl, rfl⟩
      · split at hp <;> cases hp <;> exact ⟨rfl, rfl, rfl, rfl⟩
    obtain ⟨hstartSeq, hcur', hhigh', hphase⟩ := hfields
    refine h.sealed hend hbld hstartSeq (fun _ => ⟨hcur', hhigh'⟩) ?_
    exact (congrArg (b.ended.isNone && ·) hphase).trans (Bool.and_false _)

end

theorem building_of_phase (hend : b.ended = none)
    (hphase : b.pipeline.phase = .awaitingQuorum eventArrived) : b.building = true := by
  rw [building, isAwaitingQuorum, hend, hphase]
  rfl

section
variable (h : b.Ahead first n fx)
include h

theorem Ahead.handleQuorumResolution (hend : b.ended = none)
    (outcome : Except BatchBuilderError TaskOutcome) :
    ∃ m, (b.handleQuorumResolution outcome).2.Ahead first m
      (fx ++ (b.handleQuorumResolution outcome).1) := by
  have happ : fx ++ [] = fx := append_nil fx
  unfold BatchBuilder.handleQuorumResolution
  cases hphase : b.pipeline.phase with
  | awaitingQuorum eventArrived =>
    have hbld := building_of_phase hend hphase
    have hidle {phase : PipelinePhase} (hp : isAwaitingQuorum { b.pipeline with phase } = false) :
        (b.withPipeline { b.pipeline with phase }).Ahead first n (fx ++ []) := by
      rw [happ]
      refine h.withPipeline ⟨rfl, rfl, rfl, ?_⟩
      rw [hp]
      nofun
    have hfinish (e : BuilderEnd) : (b.finish e).Ahead first n (fx ++ []) := by
      rw [happ]
      exact h.finish hend
    cases outcome with
    | error e => cases e <;> exact ⟨n, hfinish _⟩
    | ok outcome =>
      cases outcome with
      | nothingToSeal | quorumFailed => exact ⟨n, hidle rfl⟩
      | quorumSucceeded atCapacity =>
        dsimp only
        split
        · exact ⟨n + 1, h.sealed hend hbld rfl (fun hne => absurd rfl hne) rfl⟩
        · next p hp => exact ⟨n + 1, h.advance hend hbld hp⟩
  | _ => exact ⟨n, happ.symm ▸ h⟩

theorem Ahead.executed {seq : Nat} (hsealed : seq ∈ sealedSeqs fx)
    (hmono : ∀ exec ∈ b.ownExecutedWatermark, exec ≤ seq) :
    Ahead first n fx { b with ownExecutedWatermark := some seq } := by
  have hle : first ≤ seq := by
    rw [h.seqs, mem_range'_1] at hsealed
    exact hsealed.1
  have hup : firstUncovered first b.ownExecutedWatermark ≤ firstUncovered first (some seq) := by
    cases hw : b.ownExecutedWatermark with
    | none => exact Nat.le_max_left _ _
    | some exec =>
      have := hmono exec (by rw [hw]; rfl)
      simp only [firstUncovered, Option.elim_some]
      omega
  have hbud := h.budget
  have hbld : building { b with ownExecutedWatermark := some seq } = b.building := rfl
  refine { h with
    covered := ?_
    budget := ?_
    throttled := fun hhead => ?_
    quiesced := fun seq' tip hlast hqui => ?_ }
  · intro exec hw
    cases hw
    omega
  · rw [hbld]
    dsimp only
    omega
  · have hhead : max first (seq + 1) = first := hhead
    omega
  · have hquiesced := h.quiesced seq' tip hlast hqui
    rw [hbld]
    dsimp only
    omega

def Sealed (fx : List BuilderEffect) (b : BatchBuilder) : BuilderEvent → Prop
  | .executed seq => seq ∈ sealedSeqs fx ∧ ∀ executed ∈ b.ownExecutedWatermark, executed ≤ seq
  | _ => True

theorem Ahead.select (hst : 0 < first) (hend : b.ended = none) (hev : Sealed fx b ev) :
    ∃ m, (b.select ev).2.Ahead first m (fx ++ (b.select ev).1) := by
  have happ : fx ++ [] = fx := append_nil fx
  have hbui {p : PipelineState} (hp : Keeps b.pipeline p) :
      ∃ m, (b.withPipeline p).tryStartBuild.2.Ahead first m
        (fx ++ (b.withPipeline p).tryStartBuild.1) :=
    ⟨n, (h.withPipeline hp).tryStartBuild hst hend⟩
  unfold BatchBuilder.select
  cases ev with
  | canonical tip more =>
    have htips := keeps_onCanonicalUpdate b.pipeline (tip :: more)
    dsimp only
    split
    · exact ⟨n, happ.symm ▸ h.withPipeline htips⟩
    · split
      · exact ⟨n, happ.symm ▸ (h.withPipeline htips).finish hend⟩
      · have hevs := keeps_onEvent ((tip :: more).foldl .onCanonicalUpdate b.pipeline)
        exact ⟨n, ((h.withPipeline htips).withPipeline hevs).tryStartBuild hst hend⟩
  | quorum outcome => exact h.handleQuorumResolution hend outcome
  | executed seq => exact ⟨n, happ.symm ▸ h.executed hev.1 hev.2⟩
  | watermark =>
    dsimp only
    split
    · exact ⟨n, happ.symm ▸ h⟩
    · exact ⟨n, h.tryStartBuild hst hend⟩
  | candidate | release => exact hbui (keeps_onEvent b.pipeline)
  | window =>
    dsimp only
    split
    · exact ⟨n, happ.symm ▸ h⟩
    · exact hbui (keeps_onWindow b.pipeline)

theorem Ahead.step (hst : 0 < first) (hev : Sealed fx b ev) :
    ∃ m, (b.step ev).2.Ahead first m (fx ++ (b.step ev).1) := by
  have hstay : ∃ m, b.Ahead first m (fx ++ []) := ⟨n, (append_nil fx).symm ▸ h⟩
  have hturn (hend : b.ended = none) : ∃ m, (b.select ev).2.loopHead.2.Ahead first m
      (fx ++ ((b.select ev).1 ++ (b.select ev).2.loopHead.1)) := by
    obtain ⟨m, hm⟩ := h.select hst hend hev
    exact ⟨m, append_assoc fx _ _ ▸ hm.loopHead hst⟩
  unfold BatchBuilder.step
  cases ev with
  | executed seq => exact ⟨n, (append_nil fx).symm ▸ h.executed hev.1 hev.2⟩
  | _ =>
    dsimp only
    split
    · exact hstay
    · next hrng => exact hturn (by simpa using hrng)

omit h in
theorem Ahead.start {watermark : Option Nat} {persistedNext boundary tip : Nat}
    (hst : 0 < resumeSeq watermark persistedNext) :
    (start watermark persistedNext boundary tip).2.Ahead (resumeSeq watermark persistedNext) 0
      (start watermark persistedNext boundary tip).1 := by
  set seq := resumeSeq watermark persistedNext with hseq
  have hfst : seq ≤ firstUncovered seq watermark := by
    cases watermark with
    | none => exact Nat.le_refl seq
    | some exec => exact Nat.le_max_left _ _
  have hinit : Ahead seq 0 [] ⟨boundary, (new (some (seq - 1)) seq tip).onEvent, watermark, none⟩ :=
    { seqs := rfl
      startSeq := rfl
      counted := fun _ => ⟨rfl, rfl⟩
      covered := by
        rintro exec rfl
        rw [hseq, resumeSeq, Option.elim_some]
        omega
      budget := by
        have hidle : building ⟨boundary, (new (some (seq - 1)) seq tip).onEvent,
          watermark, none⟩ = false := rfl
        rw [hidle]
        dsimp only [Bool.toNat_false]
        omega
      throttled := fun _ => Nat.zero_le 1
      quiesced := nofun }
  have hrun := (hinit.tryStartBuild hst rfl).loopHead hst
  unfold BatchBuilder.start
  dsimp only
  rw [if_neg (by omega)]
  exact hrun

/-- The watermarks among the events are those of sealed batches and do not go back; `r` is the
builder at its start. -/
def Advancing (r : BuilderResult) (events : List BuilderEvent) : Prop :=
  ∀ before event after, events = before ++ event :: after →
    Sealed (r.1 ++ (r.2.run before).1) (r.2.run before).2 event

theorem Ahead.run (hfst : 0 < first) {evs : List BuilderEvent} (hevs : Advancing (fx, b) evs) :
    ∃ m, (b.run evs).2.Ahead first m (fx ++ (b.run evs).1) := by
  induction evs using List.reverseRecOn with
  | nil => exact ⟨n, (append_nil fx).symm ▸ h⟩
  | append_singleton evs ev ih =>
    obtain ⟨m, hm⟩ := ih fun pre e after heq =>
      hevs pre e (after ++ [ev]) (by rw [heq, append_assoc, cons_append])
    obtain ⟨m', hm'⟩ := hm.step hfst (hevs evs ev [] rfl)
    refine ⟨m', ?_⟩
    rw [BatchBuilder.run, Reactor.run_append, ← append_assoc]
    change ((b.run evs).2.step ev).2.Ahead first m'
      (fx ++ (b.run evs).1 ++ (((b.run evs).2.step ev).1 ++ []))
    rw [append_nil]
    exact hm'

/-- The sealed batches are numbered without gap. Those not yet executed are within the budget, they
are one at most until the first one is executed, and one at most with the last build if that build
was started within the quiesce window. -/
structure WithinBudget (startSeq : Nat) (fx : List BuilderEffect) (b : BatchBuilder) : Prop where
  gapless : sealedSeqs fx = List.range' startSeq (sealedSeqs fx).length
  ahead : (unexecuted fx b.ownExecutedWatermark).length ≤ maxSealAhead
  throttled : (∀ executed ∈ b.ownExecutedWatermark, executed < startSeq) →
    (unexecuted fx b.ownExecutedWatermark).length ≤ 1
  quiesced : ∀ seq tip, lastStarted fx = some (seq, tip) →
    evaluate b.epochBoundary tip = .quiescing →
      (unexecuted fx b.ownExecutedWatermark).length + b.building.toNat ≤ 1

theorem Ahead.withinBudget : WithinBudget first fx b := by
  have hlen : (sealedSeqs fx).length = n := by rw [h.seqs, length_range']
  have hbud := h.budget
  have hcnt := length_unexecuted h.seqs b.ownExecutedWatermark
  exact
    { gapless := by
        rw [hlen]
        exact h.seqs
      ahead := by omega
      throttled := by
        intro hhead
        have hfst : firstUncovered first b.ownExecutedWatermark = first := by
          cases hw : b.ownExecutedWatermark with
          | none => rfl
          | some exec =>
            have hlt := hhead exec hw
            rw [firstUncovered, Option.elim_some]
            omega
        have hthrottled := h.throttled hfst
        omega
      quiesced := by
        intro seq tip hlast hqui
        have hquiesced := h.quiesced seq tip hlast hqui
        have hbld := Bool.toNat_le b.building
        omega }

end

def fromZero : BuilderResult := start none 0 100 0

def twoSeals : List BuilderEvent := List.replicate 2 (.quorum (.ok (.quorumSucceeded true)))

theorem advancing_twoSeals (r : BuilderResult) : Advancing r twoSeals := by
  intro pre ev after heq
  have hmem : ev ∈ twoSeals := by
    rw [heq]
    exact mem_append_right _ mem_cons_self
  rw [eq_of_mem_replicate hmem]
  exact trivial

theorem seal_ahead_iff (startSeq : Nat) :
    (∀ watermark persistedNext boundary tip events,
      resumeSeq watermark persistedNext = startSeq →
      Advancing (start watermark persistedNext boundary tip) events →
        let r := start watermark persistedNext boundary tip
        WithinBudget startSeq (r.1 ++ (r.2.run events).1) (r.2.run events).2) ↔
      startSeq ≠ 0 := by
  constructor
  · rintro h rfl
    have hbudget := h none 0 100 0 twoSeals rfl (advancing_twoSeals _)
    have hone := hbudget.throttled nofun
    exact absurd hone (by decide)
  · intro hne watermark persistedNext boundary tip events hresume hadvancing
    subst hresume
    have hfirst := Nat.pos_of_ne_zero hne
    obtain ⟨m, hm⟩ := (Ahead.start hfirst).run hfirst hadvancing
    exact hm.withinBudget

/-- Batches zero and one are sealed before batch zero is executed: the watermark that stands in is
zero and covers batch zero. -/
theorem two_sealed_from_zero :
    Advancing fromZero twoSeals ∧ (fromZero.2.run twoSeals).2.ownExecutedWatermark = none ∧
      unexecuted (fromZero.1 ++ (fromZero.2.run twoSeals).1) none = [0, 1] :=
  ⟨advancing_twoSeals fromZero, by decide, by decide⟩

end BatchBuilder

end Axyl
