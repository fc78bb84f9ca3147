import Axyl.Worker.BatchSeal
import Mathlib.Tactic.Common

/-! A sequence number whose batch was sealed is not used again. -/

namespace Axyl
open BatchWorker BatchBuilder PipelineState List Reactor

theorem startedSeq_append (fx gx : List BuilderEffect) :
    startedSeq (fx ++ gx) = (startedSeq fx).or (startedSeq gx) := findSome?_append

namespace BatchBuilder

variable {b : BatchBuilder} {r : BuilderResult} {seq : Nat} {waits : Bool}

/-- A turn of a builder at the sequence number. It starts a build only if it waits for none. -/
structure Turn (seq : Nat) (waits : Bool) (r : BuilderResult) : Prop where
  started : ∀ s, startedSeq r.1 = some s → s = seq ∧ waits = false
  running : r.2.ended = none → r.2.pipeline.data.currentSeq = seq ∧
    r.2.pipeline.isAwaitingQuorum = (waits || (startedSeq r.1).isSome)

section
variable (b : BatchBuilder)

theorem turn_stay : Turn b.pipeline.data.currentSeq b.pipeline.isAwaitingQuorum ([], b) :=
  ⟨nofun, fun _ => ⟨rfl, (Bool.or_false _).symm⟩⟩

theorem turn_of_ended (h : r.2.ended ≠ none) (hfx : startedSeq r.1 = none) : Turn seq waits r := by
  constructor
  · intro s hs
    rw [hfx] at hs
    cases hs
  · intro hend
    exact absurd hend h

theorem turn_tryStartBuild :
    Turn b.pipeline.data.currentSeq b.pipeline.isAwaitingQuorum b.tryStartBuild := by
  have hst (hidle : b.pipeline.isAwaitingQuorum = false) :
      Turn b.pipeline.data.currentSeq b.pipeline.isAwaitingQuorum
        ([.started b.pipeline.data.currentSeq b.pipeline.data.lastCanonicalTimestamp],
          b.withPipeline { b.pipeline with phase := .awaitingQuorum false }) :=
    ⟨fun s hs => ⟨(Option.some.inj hs).symm, hidle⟩, fun _ => ⟨rfl, (Bool.or_true _).symm⟩⟩
  unfold tryStartBuild
  split
  all_goals try exact turn_stay b
  all_goals
    next hphase =>
    split
    · exact turn_stay b
    · exact hst (by rw [isAwaitingQuorum, hphase])

theorem turn_loopHead : Turn b.pipeline.data.currentSeq b.pipeline.isAwaitingQuorum b.loopHead := by
  unfold loopHead
  split
  · exact turn_stay b
  · split
    · exact turn_of_ended nofun rfl
    · exact turn_tryStartBuild b

end

theorem Turn.loopHead (h : Turn seq waits r) :
    Turn seq waits (r.1 ++ r.2.loopHead.1, r.2.loopHead.2) := by
  by_cases hend : r.2.ended = none
  · obtain ⟨hseq, hwts⟩ := h.running hend
    have hhead := turn_loopHead r.2
    rw [hseq, hwts] at hhead
    constructor
    · intro s hs
      rw [startedSeq_append, Option.or_eq_some_iff] at hs
      rcases hs with hs | ⟨_, hs⟩
      · exact h.started s hs
      · obtain ⟨hs, hidle⟩ := hhead.started s hs
        exact ⟨hs, (Bool.or_eq_false_iff.mp hidle).1⟩
    · intro hend'
      obtain ⟨hseq', hwts'⟩ := hhead.running hend'
      refine ⟨hseq', ?_⟩
      rw [hwts', startedSeq_append, Option.isSome_or, Bool.or_assoc]
  · have hstop : r.2.loopHead = ([], r.2) := by
      rw [BatchBuilder.loopHead, if_pos]
      exact Option.isSome_iff_ne_none.mpr hend
    rw [hstop, append_nil]
    exact h

def SameTurn (p p' : PipelineState) : Prop :=
  p'.data.currentSeq = p.data.currentSeq ∧ p'.isAwaitingQuorum = p.isAwaitingQuorum

section
variable (p : PipelineState)

theorem sameTurn_onEvent : SameTurn p p.onEvent := by
  unfold onEvent SameTurn
  cases hp : p.phase <;> simp [isAwaitingQuorum, hp]

theorem sameTurn_onWindow : SameTurn p p.onWindow := by
  unfold onWindow SameTurn
  cases hp : p.phase <;> simp [isAwaitingQuorum, hp]

theorem sameTurn_onCanonicalUpdate (tips : List Nat) :
    SameTurn p (tips.foldl .onCanonicalUpdate p) := by
  induction tips generalizing p with
  | nil => exact ⟨rfl, rfl⟩
  | cons tip tips ih => exact ih (p.onCanonicalUpdate tip)

end

theorem turn_withPipeline {p : PipelineState} (h : SameTurn b.pipeline p) :
    Turn b.pipeline.data.currentSeq b.pipeline.isAwaitingQuorum
      (b.withPipeline p).tryStartBuild := by
  rw [← h.1, ← h.2]
  exact turn_tryStartBuild (b.withPipeline p)

variable {ev : BuilderEvent}

theorem turn_select (h : ∀ outcome, ev ≠ .quorum outcome) :
    Turn b.pipeline.data.currentSeq b.pipeline.isAwaitingQuorum (b.select ev) := by
  unfold select
  cases ev with
  | canonical tip more =>
    have htips := sameTurn_onCanonicalUpdate b.pipeline (tip :: more)
    dsimp only
    split
    · rw [← htips.1, ← htips.2]
      exact turn_stay (b.withPipeline _)
    · split
      · exact turn_of_ended nofun rfl
      · have hev := sameTurn_onEvent ((tip :: more).foldl .onCanonicalUpdate b.pipeline)
        exact turn_withPipeline ⟨hev.1.trans htips.1, hev.2.trans htips.2⟩
  | quorum outcome => exact absurd rfl (h outcome)
  | executed seq => exact turn_stay { b with ownExecutedWatermark := some seq }
  | watermark =>
    dsimp only
    split
    · exact turn_stay b
    · exact turn_tryStartBuild b
  | candidate | release => exact turn_withPipeline (sameTurn_onEvent b.pipeline)
  | window =>
    dsimp only
    split
    · exact turn_stay b
    · exact turn_withPipeline (sameTurn_onWindow b.pipeline)

theorem turn_step (h : ∀ outcome, ev ≠ .quorum outcome) :
    Turn b.pipeline.data.currentSeq b.pipeline.isAwaitingQuorum (b.step ev) := by
  have hturn := (turn_select (b := b) h).loopHead
  unfold step
  cases ev with
  | executed seq => exact turn_stay { b with ownExecutedWatermark := some seq }
  | _ =>
    dsimp only
    split
    · exact turn_stay b
    · exact hturn

theorem step_of_ended (h : b.ended ≠ none) (ev : BuilderEvent) :
    (b.step ev).2.ended ≠ none ∧ startedSeq (b.step ev).1 = none := by
  have hsome : b.ended.isSome := Option.isSome_iff_ne_none.mpr h
  unfold step
  cases ev with
  | executed seq => exact ⟨h, rfl⟩
  | _ =>
    dsimp only
    rw [if_pos hsome]
    exact ⟨h, rfl⟩

def nextSeq (seq : Nat) : Except BatchBuilderError TaskOutcome → Nat
  | .ok (.quorumSucceeded _) => seq + 1
  | _ => seq

theorem turn_quorum (hend : b.ended = none) (hwts : b.pipeline.isAwaitingQuorum = true)
    (outcome : Except BatchBuilderError TaskOutcome) :
    Turn (nextSeq b.pipeline.data.currentSeq outcome) false (b.step (.quorum outcome)) := by
  have hturn : Turn (nextSeq b.pipeline.data.currentSeq outcome) false
      (b.handleQuorumResolution outcome) := by
    unfold handleQuorumResolution
    cases hphase : b.pipeline.phase with
    | awaitingQuorum eventArrived =>
      cases outcome with
      | error e => cases e <;> exact turn_of_ended nofun rfl
      | ok outcome =>
        cases outcome with
        | nothingToSeal | quorumFailed => exact ⟨nofun, fun _ => ⟨rfl, rfl⟩⟩
        | quorumSucceeded atCapacity =>
          unfold markInFlightAndAdvance
          dsimp only
          split
          · exact turn_of_ended nofun rfl
          · next p hp =>
            split at hp
            · cases hp
            · split at hp
              · cases hp
                exact ⟨nofun, fun _ => ⟨rfl, rfl⟩⟩
              · split at hp <;> cases hp <;> exact ⟨nofun, fun _ => ⟨rfl, rfl⟩⟩
    | _ =>
      rw [isAwaitingQuorum, hphase] at hwts
      cases hwts
  unfold step
  dsimp only
  rw [if_neg (by rw [hend]; nofun)]
  exact hturn.loopHead

theorem turn_start (wm : Option Nat) (persistedNext boundary tip : Nat) :
    Turn (resumeSeq wm persistedNext) false (start wm persistedNext boundary tip) := by
  have hinit (highest : Option Nat) := turn_tryStartBuild ⟨boundary,
      (new highest (resumeSeq wm persistedNext) tip).onEvent, wm, none⟩
  exact (hinit _).loopHead

end BatchBuilder

namespace SealStage

def received : SealStage → Bool
  | .attesting _ | .quorate _ | .stored _ | .sealed _ => true
  | _ => false

def succeeded : SealStage → Bool
  | .sealed _ | .finished (.ok (.quorumSucceeded _)) => true
  | _ => false

end SealStage

namespace BatchWorker

variable {w : BatchWorker} {low low' seq : Nat} {t : BuildTask} {stage : SealStage}
  {outcome : Except BatchBuilderError TaskOutcome} {event : WorkerEvent} {events : List WorkerEvent}

/-- A running builder waits for the task, at the number of the task. Every number that may still
reach a quorum is at least `low`. -/
structure From (low : Nat) (w : BatchWorker) : Prop where
  waits : ∀ b, w.builder = some b → b.ended = none → b.pipeline.isAwaitingQuorum = w.task.isSome
  seq : ∀ b, w.builder = some b → b.ended = none → ∀ t, w.task = some t →
    t.seq = b.pipeline.data.currentSeq
  idle : ∀ b, w.builder = some b → b.ended = none → w.task = none →
    low ≤ b.pipeline.data.currentSeq
  bounded : ∀ t, w.task = some t → t.stage.received = true → t.seq + 1 < 2 ^ 64
  task : ∀ t, w.task = some t → low ≤ t.seq ∨ t.seq + 1 = low ∧ t.stage.succeeded = true

theorem from_stop (w : BatchWorker) : w.stop.From low :=
  ⟨nofun, nofun, nofun, nofun, nofun⟩

section
variable (h : w.From low)
include h

theorem From.withStage (ht : w.task = some t) (hrecv : stage.received = true → t.seq + 1 < 2 ^ 64)
    (htask : low' ≤ t.seq ∨ t.seq + 1 = low' ∧ stage.succeeded = true) :
    (w.withStage t.seq stage).From low' :=
  { waits := by
      intro b hb hend
      rw [h.waits b hb hend, ht]
      rfl
    seq := by
      intro b hb hend t' ht'
      cases ht'
      exact h.seq b hb hend t ht
    idle := nofun
    bounded := by
      intro t' ht' hstg
      cases ht'
      exact hrecv hstg
    task := by
      intro t' ht'
      cases ht'
      exact htask }

omit h in
theorem From.onBuilder {r : BuilderResult}
    (hturn : BatchBuilder.Turn seq w.task.isSome r) (hseq : ∀ t, w.task = some t → t.seq = seq)
    (hidle : w.task = none → low ≤ seq)
    (hbdd : ∀ t, w.task = some t → t.stage.received = true → t.seq + 1 < 2 ^ 64)
    (htask : ∀ t, w.task = some t → low ≤ t.seq ∨ t.seq + 1 = low ∧ t.stage.succeeded = true) :
    (w.onBuilder r).From low := by
  cases hsta : startedSeq r.1 with
  | none =>
    have hsame : (w.onBuilder r).task = w.task := by
      rw [BatchWorker.onBuilder, hsta]
      rfl
    have hrng := hturn.running
    rw [hsta, Option.isSome_none, Bool.or_false] at hrng
    refine ⟨?_, ?_, ?_, hsame ▸ hbdd, hsame ▸ htask⟩
    · rintro b ⟨⟩ hend
      rw [hsame]
      exact (hrng hend).2
    · rintro b ⟨⟩ hend t ht
      rw [(hrng hend).1]
      exact hseq t (hsame ▸ ht)
    · rintro b ⟨⟩ hend hnone
      rw [(hrng hend).1]
      exact hidle (hsame ▸ hnone)
  | some s =>
    obtain ⟨rfl, hnone⟩ := hturn.started s hsta
    have hlow := hidle (Option.isSome_eq_false_iff.mp hnone |> Option.isNone_iff_eq_none.mp)
    have hnew : (w.onBuilder r).task = some ⟨s, .building⟩ := by
      rw [onBuilder, hsta]
      rfl
    have hrng := hturn.running
    rw [hsta, Option.isSome_some, Bool.or_true] at hrng
    refine ⟨?_, ?_, ?_, ?_, ?_⟩
    · rintro b ⟨⟩ hend
      rw [hnew]
      exact (hrng hend).2
    · rintro b ⟨⟩ hend t ht
      rw [hnew] at ht
      cases ht
      exact (hrng hend).1.symm
    · rintro b ⟨⟩ hend hnone
      rw [hnew] at hnone
      cases hnone
    · rintro t ht hrecv
      rw [hnew] at ht
      cases ht
      cases hrecv
    · rintro t ht
      rw [hnew] at ht
      cases ht
      exact .inl hlow

theorem From.builderStep {b : BatchBuilder} (hb : w.builder = some b) {event : BuilderEvent}
    (hev : ∀ outcome, event ≠ .quorum outcome) : (w.onBuilder (b.step event)).From low := by
  by_cases hend : b.ended = none
  · have hturn := turn_step (b := b) hev
    rw [h.waits b hb hend] at hturn
    exact .onBuilder hturn (h.seq b hb hend) (h.idle b hb hend) h.bounded h.task
  · -- an ended builder does nothing, and nothing is asked of it
    obtain ⟨hend', hsta⟩ := step_of_ended hend event
    have hsame : (w.onBuilder (b.step event)).task = w.task := by
      rw [BatchWorker.onBuilder, hsta]
      rfl
    refine ⟨?_, ?_, ?_, hsame ▸ h.bounded, hsame ▸ h.task⟩
    all_goals
      rintro b' ⟨⟩ hrng
      exact absurd hrng hend'

omit h in
theorem le_nextSeq (h : low ≤ seq ∨ seq + 1 = low ∧ (SealStage.finished outcome).succeeded = true) :
    low ≤ BatchBuilder.nextSeq seq outcome := by
  unfold SealStage.succeeded at h
  unfold BatchBuilder.nextSeq
  split <;> (simp_all; try omega)

omit h in
theorem from_dropTask (hend : ∀ b, w.builder = some b → b.ended ≠ none) :
    From low { w with task := none } := by
  refine ⟨?_, ?_, ?_, nofun, nofun⟩
  all_goals
    intro b hb hrng
    exact absurd hrng (hend b hb)

section
variable (ht : w.task = some t)
include ht

theorem From.onResolved (hstg : t.stage = .finished outcome) : (w.onResolved outcome).From low := by
  unfold BatchWorker.onResolved
  split
  · next hb =>
    apply from_dropTask
    rw [hb]
    nofun
  · next b hb =>
    split
    · next hsome =>
      apply from_dropTask
      rw [hb]
      rintro b' ⟨⟩
      exact Option.isSome_iff_ne_none.mp hsome
    · next hsome =>
      have hend : b.ended = none := by simpa using hsome
      have hwts := h.waits b hb hend
      rw [ht] at hwts
      have hlow := h.task t ht
      rw [hstg, h.seq b hb hend t ht] at hlow
      have hturn := turn_quorum hend hwts outcome
      exact .onBuilder hturn nofun (fun _ => le_nextSeq hlow) nofun nofun

theorem From.onBuilt (hlow : low ≤ t.seq) (res : Except Unit (Option BuiltBatch)) :
    (w.onBuilt t.seq res).From low := by
  have hfin {stage : SealStage} (hstg : stage.received = false) :
      (w.withStage t.seq stage).From low := by
    refine h.withStage ht (fun hr => ?_) (.inl hlow)
    rw [hstg] at hr
    cases hr
  unfold BatchWorker.onBuilt
  split
  · exact hfin rfl
  · exact hfin rfl
  · split
    · next hall =>
      apply from_dropTask
      intro b hb
      rw [hb] at hall
      exact Option.isSome_iff_ne_none.mp hall
    · exact hfin rfl

theorem From.onReceived (hlow : low ≤ t.seq) (batch : BuiltBatch) :
    (w.onReceived t.seq batch).2.From low := by
  unfold BatchWorker.onReceived
  split
  · exact from_stop w
  · next hmax =>
    have hbnd : t.seq + 1 < 2 ^ 64 := by omega
    split
    · exact h.withStage ht (fun _ => hbnd) (.inl hlow)
    · exact h.withStage ht (fun _ => hbnd) (.inl hlow)

theorem From.sealStep (event : WorkerEvent) : (w.sealStep t.seq t.stage event).2.From low := by
  have htask := h.task t ht
  have hlow (hfail : t.stage.succeeded = false) : low ≤ t.seq :=
    htask.resolve_right fun hs => by rw [hfail] at hs; exact Bool.false_ne_true hs.2
  have hbdd := h.bounded t ht
  -- a stage that has not succeeded yet, and a stage outside the seal loop
  have hnext {stage : SealStage} (hfail : t.stage.succeeded = false)
      (hrecv : t.stage.received = true) : (w.withStage t.seq stage).From low :=
    h.withStage ht (fun _ => hbdd hrecv) (.inl (hlow hfail))
  have hleave {stage : SealStage} (hrecv : stage.received = false)
      (hstg : low ≤ t.seq ∨ t.seq + 1 = low ∧ stage.succeeded = true) :
      (w.withStage t.seq stage).From low := by
    refine h.withStage ht (fun hr => ?_) hstg
    rw [hrecv] at hr
    cases hr
  unfold BatchWorker.sealStep
  split
  · next hstg => exact h.onBuilt ht (hlow (by rw [hstg]; rfl)) _
  · next hstg => exact h.onReceived ht (hlow (by rw [hstg]; rfl)) _
  · next hstg => exact hleave rfl (.inl (hlow (by rw [hstg]; rfl)))
  · next hstg => exact hnext (by rw [hstg]; rfl) (by rw [hstg]; rfl)
  · next hstg => exact hnext (by rw [hstg]; rfl) (by rw [hstg]; rfl)
  · next hstg =>
    exact { hnext (by rw [hstg]; rfl) (by rw [hstg]; rfl) with }
  · next hstg => exact hnext (by rw [hstg]; rfl) (by rw [hstg]; rfl)
  · next hstg => exact hnext (by rw [hstg]; rfl) (by rw [hstg]; rfl)
  · next hstg => exact hnext (by rw [hstg]; rfl) (by rw [hstg]; rfl)
  · next batch hstg =>
    rw [hstg] at htask
    have hdone : (w.withStage t.seq (.finished (.ok (.quorumSucceeded batch.atCapacity)))).From
      low := hleave rfl htask
    exact { hdone with }
  · next hstg =>
    rw [hstg] at htask
    exact hleave rfl htask
  · next hstg => exact h.onResolved ht hstg
  · exact h

end

def Resumes (low : Nat) (w : BatchWorker) : WorkerEvent → Prop
  | .restart env => ∀ seq, w.resolveInitialBatchSeq false env = .use seq →
    low ≤ resumeSeq env.watermark seq
  | _ => True

omit h in
theorem From.restart {env : BatchStart} (henv : Resumes low w (.restart env)) :
    (w.restart env).From low := by
  unfold BatchWorker.restart
  split
  · next seq hseq =>
    have hturn := turn_start env.watermark seq env.epochBoundary env.canonicalTimestamp
    exact .onBuilder hturn nofun (fun _ => henv seq hseq) nofun nofun
  · exact from_stop w
  · exact from_stop w

theorem From.step (hev : Resumes low w event) : (w.step event).2.From low := by
  unfold BatchWorker.step
  split
  · exact h
  · next event hnot =>
    split
    · exact h
    · next b hb => exact h.builderStep hb fun outcome heq => hnot outcome (by rw [heq])
  · exact { h with }
  · exact { h with }
  · exact .restart hev
  · split
    · exact h
    · next t ht => exact h.sealStep ht _

def Emits (w w' : BatchWorker) (t : BuildTask) : WorkerEffect → Prop
  | .reached seq _ => seq = t.seq ∧ t.stage.succeeded = false
  | .sealed seq _ => seq = t.seq ∧ (t.stage.received = false → t.seq + 1 < 2 ^ 64) ∧
      ∃ batch, w' = w.withStage t.seq (.sealed batch)
  | .recorded seq _ => seq = t.seq ∧ t.stage.received = true ∧
      w'.batchSeqCounter = some (t.seq + 1) ∧ ∃ atCapacity,
        w'.builder = w.builder ∧
          w'.task = some ⟨t.seq, .finished (.ok (.quorumSucceeded atCapacity))⟩

omit h in
theorem emits_sealStep (w : BatchWorker) (t : BuildTask) (event : WorkerEvent) :
    ∀ x ∈ (w.sealStep t.seq t.stage event).1, Emits w (w.sealStep t.seq t.stage event).2 t x := by
  unfold sealStep
  split
  case h_2 batch hstg =>
    unfold onReceived
    split
    · nofun
    · next hmax =>
      split
      · nofun
      · intro x hx
        cases mem_singleton.mp hx
        exact ⟨rfl, fun _ => Nat.lt_of_not_le hmax, batch, rfl⟩
  case h_4 batch hstg =>
    intro x hx
    cases mem_singleton.mp hx
    exact ⟨rfl, by rw [hstg]; rfl⟩
  case h_8 batch hstg =>
    intro x hx
    cases mem_singleton.mp hx
    exact ⟨rfl, by rw [hstg]; nofun, batch, rfl⟩
  case h_10 batch hstg =>
    intro x hx
    cases mem_singleton.mp hx
    exact ⟨rfl, by rw [hstg]; rfl, rfl, batch.atCapacity, rfl, rfl⟩
  all_goals nofun

omit h in
theorem emits_step {w : BatchWorker} {x : WorkerEffect} (hx : x ∈ (w.step event).1) :
    ∃ t, w.task = some t ∧ Emits w (w.step event).2 t x := by
  unfold step at hx ⊢
  split at hx
  case h_6 =>
    split at hx
    · cases hx
    · next t ht => exact ⟨t, ht, emits_sealStep w t event x hx⟩
  case h_2 => split at hx <;> cases hx
  all_goals cases hx

theorem from_of_sealed {dig : Nat} (hx : .sealed seq dig ∈ (w.step event).1) :
    (w.step event).2.From (seq + 1) := by
  obtain ⟨t, ht, rfl, hmax, batch, hw⟩ := emits_step hx
  rw [hw]
  refine h.withStage ht (fun _ => ?_) (.inr ⟨rfl, rfl⟩)
  cases hrecv : t.stage.received with
  | false => exact hmax hrecv
  | true => exact h.bounded t ht hrecv

def Counted (low : Nat) (w : BatchWorker) : Prop := ∃ c, w.batchSeqCounter = some c ∧ low ≤ c

theorem from_of_recorded {dig : Nat} (hx : .recorded seq dig ∈ (w.step event).1) :
    (w.step event).2.From (seq + 1) ∧ (w.step event).2.Counted (seq + 1) ∧ seq + 1 < 2 ^ 64 := by
  obtain ⟨t, ht, rfl, hrecv, hcounter, atCapacity, hbuilder, htask⟩ := emits_step hx
  have hdone : (w.withStage t.seq (.finished (.ok (.quorumSucceeded atCapacity)))).From
    (t.seq + 1) := h.withStage ht nofun (.inr ⟨rfl, rfl⟩)
  generalize (w.step event).2 = w' at hcounter hbuilder htask ⊢
  cases w'
  cases hbuilder
  cases htask
  exact ⟨{ hdone with }, ⟨_, hcounter, le_refl _⟩, h.bounded t ht hrecv⟩

omit h in
theorem batchSeqCounter_sealStep (w : BatchWorker) (t : BuildTask) (event : WorkerEvent) :
    (w.sealStep t.seq t.stage event).2.batchSeqCounter = w.batchSeqCounter ∨
      (w.sealStep t.seq t.stage event).2.batchSeqCounter = some (t.seq + 1) := by
  unfold sealStep
  split
  case h_1 =>
    unfold onBuilt
    split <;> first | exact .inl rfl | (split <;> exact .inl rfl)
  case h_2 =>
    unfold onReceived
    split <;> first | exact .inl rfl | (split <;> exact .inl rfl)
  case h_12 =>
    unfold onResolved
    split <;> first | exact .inl rfl | (split <;> exact .inl rfl)
  case h_10 => exact .inr rfl
  all_goals exact .inl rfl

theorem Counted.step (hctd : w.Counted low) (event : WorkerEvent) :
    (w.step event).2.Counted low := by
  obtain ⟨c, hc, hlow⟩ := hctd
  have hsame {w' : BatchWorker} (hw' : w'.batchSeqCounter = w.batchSeqCounter) : w'.Counted low :=
    ⟨c, hw'.trans hc, hlow⟩
  unfold BatchWorker.step
  split
  · exact hsame rfl
  · split <;> exact hsame rfl
  · exact hsame rfl
  · exact hsame rfl
  · apply hsame
    unfold restart
    split <;> rfl
  · split
    · exact hsame rfl
    · next t ht =>
      rcases batchSeqCounter_sealStep w t event with hw' | hw'
      · exact hsame hw'
      · have := h.task t ht
        exact ⟨t.seq + 1, hw', by omega⟩

def ReachedFrom (low : Nat) (fx : List WorkerEffect) : Prop :=
  ∀ seq digest, .reached seq digest ∈ fx → low ≤ seq

theorem From.reached (event : WorkerEvent) : ReachedFrom low (w.step event).1 := by
  intro seq dig hx
  obtain ⟨t, ht, rfl, hstg⟩ := emits_step hx
  refine (h.task t ht).resolve_right fun hs => ?_
  rw [hstg] at hs
  exact Bool.false_ne_true hs.2

def Safe (low : Nat) (fx : List WorkerEffect) (w : BatchWorker) : Prop :=
  ReachedFrom low fx ∧ w.From low

theorem From.safe : Safe low [] w :=
  ⟨nofun, h⟩

end

theorem Safe.step {fx : List WorkerEffect} (h : Safe low fx w) (hev : Resumes low w event) :
    Safe low (fx ++ (w.step event).1) (w.step event).2 := by
  refine ⟨fun seq dig hx => ?_, h.2.step hev⟩
  rcases mem_append.mp hx with hx | hx
  · exact h.1 seq dig hx
  · exact h.2.reached event seq dig hx

def OneLifetime (events : List WorkerEvent) : Prop := ∀ env, WorkerEvent.restart env ∉ events

def FindsNext (seq : Nat) : WorkerEvent → Prop
  | .restart env =>
    match env.watermark with
    | some executed => seq ≤ executed
    | none => env.counterRead = true
  | _ => True

theorem resumes_of_findsNext (hmax : seq + 1 < 2 ^ 64) (hctd : w.Counted (seq + 1))
    (h : FindsNext seq event) : Resumes (seq + 1) w event := by
  cases event with
  | restart env =>
    intro next hnext
    unfold FindsNext at h
    dsimp only at h
    split at h
    · next exec hw =>
      rw [hw, resumeSeq, Option.elim_some]
      omega
    · next hw =>
      obtain ⟨c, hc, hlow⟩ := hctd
      rw [resolveInitialBatchSeq, getPersistedBatchSeq, if_pos h, hc] at hnext
      cases hnext
      rw [hw]
      exact hlow
  | _ => exact trivial

theorem From.run_oneLifetime (h : w.From low)
    (hevs : OneLifetime events) : ReachedFrom low (w.run events).1 := by
  have halways : Reactor.Always BatchWorker.step (Resumes low) w events := by
    refine always_of_forall (fun event hev w => ?_) w
    cases event with
    | restart env => exact absurd hev (hevs env)
    | _ => exact trivial
  exact (run_history_of (fun _ _ _ => Safe.step) h.safe halways).1

theorem From.run_findsNext (h : w.From (seq + 1)) (hctd : w.Counted (seq + 1))
    (hmax : seq + 1 < 2 ^ 64)
    (hevs : ∀ event ∈ events, FindsNext seq event) : ReachedFrom (seq + 1) (w.run events).1 := by
  have halways : Reactor.Always BatchWorker.step (fun _ event => FindsNext seq event) w events :=
    always_of_forall (fun event hev _ => hevs event hev) w
  have hrun := run_history_of (Q := fun fx w => Safe (seq + 1) fx w ∧ w.Counted (seq + 1))
    (fun _ _ event hw hev =>
      ⟨hw.1.step (resumes_of_findsNext hmax hw.2 hev), hw.2.step hw.1.2 event⟩) ⟨h.safe, hctd⟩ halways
  exact hrun.1.1

theorem from_run (w : BatchWorker) (evs : List WorkerEvent) : (w.stop.run evs).2.From 0 := by
  have hresumes (w : BatchWorker) (event : WorkerEvent) : Resumes 0 w event := by
    cases event with
    | restart env => exact fun _ _ => Nat.zero_le _
    | _ => exact trivial
  exact (run_history (fun _ _ _ h => h.step (hresumes _ _)) (from_stop w).safe evs).2

theorem sealed_seq_not_reused (w : BatchWorker) (before : List WorkerEvent) (event : WorkerEvent)
    (after : List WorkerEvent) (seq digest seq' digest' : Nat) :
    let r := (w.stop.run before).2.step event
    .reached seq' digest' ∈ (r.2.run after).1 →
      (.sealed seq digest ∈ r.1 → OneLifetime after → seq < seq') ∧
      (.recorded seq digest ∈ r.1 → (∀ event ∈ after, FindsNext seq event) → seq < seq') := by
  intro r hreached
  have h := from_run w before
  constructor
  · intro hsealed hafter
    exact (from_of_sealed h hsealed).run_oneLifetime hafter seq' digest' hreached
  · intro hrecorded hafter
    obtain ⟨hfrom, hcounted, hmax⟩ := from_of_recorded h hrecorded
    exact hfrom.run_findsNext hcounted hmax hafter seq' digest' hreached

def freshWorker : BatchWorker := ⟨0, some 7, 1, true, none, none, none, ∅, []⟩

def freshStart : BatchStart := ⟨none, true, .ready, 100, 0⟩

def sealOf (digest : Nat) (acknowledged : Bool) : List WorkerEvent :=
  [.built (.ok (some ⟨digest, false⟩)), .received, .attested (.ok ()), .inserted true,
    .reported acknowledged]

theorem sealed_seq_not_reused_restart :
    let r := (freshWorker.stop.run (.restart freshStart :: sealOf 1 true)).2.step (.persisted true)
    .recorded 0 1 ∈ r.1 ∧ .reached 1 2 ∈ (r.2.run (.restart freshStart :: sealOf 2 true)).1 ∧
      0 < 1 := by
  refine ⟨by decide +kernel, by decide +kernel, ?_⟩
  refine (sealed_seq_not_reused freshWorker (.restart freshStart :: sealOf 1 true)
    (.persisted true) (.restart freshStart :: sealOf 2 true) 0 1 1 2 (by decide +kernel)).2
    (by decide +kernel) ?_
  intro event hevent
  rcases mem_cons.mp hevent with rfl | hevent
  · rfl
  · simp only [sealOf, mem_cons, not_mem_nil, or_false] at hevent
    rcases hevent with rfl | rfl | rfl | rfl | rfl <;> exact trivial

/-- The report of the first batch is lost, or the counter it wrote cannot be read after a restart,
and the second batch takes its number. -/
theorem two_batches_at_zero :
    (freshWorker.stop.run (.restart freshStart :: sealOf 1 false ++
      [.resolved, .builder .window] ++ sealOf 2 true)).1 =
      [.reached 0 1, .reached 0 2, .sealed 0 2] ∧
    (freshWorker.stop.run (.restart freshStart :: sealOf 1 true ++
      [.persisted true, .restart { freshStart with counterRead := false }] ++ sealOf 2 true)).1 =
      [.reached 0 1, .sealed 0 1, .recorded 0 1, .reached 0 2, .sealed 0 2] := by decide +kernel

end BatchWorker

end Axyl
