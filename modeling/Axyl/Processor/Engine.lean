import Axyl.Processor.Orchestrator
import Axyl.Lib.Reactor

/-! The engine: outputs are admitted in the order of their positions, wait in a bounded queue,
and are executed one at a time, each on the header the one before has returned. The answers of
the stream and of the result channel are inputs, so that a list of inputs is an interleaving. -/

namespace Axyl
open List ConsensusOutput Reactor

def ConsensusOutput.position (o : ConsensusOutput) : Position := o.subDag.position

def maxQueuedOutputs : Nat := 100

/-- The local number of the output only serves a warning and is left out. -/
structure LastAdmitted where
  position : Position
  subdagDigest : Nat

inductive RLEngineError where
  | execution (e : EngineError)
  | consensusFork (epoch round : Nat)
  | consensusOutputStreamClosed
  | channelClosed
  | emptyQueue
deriving DecidableEq, Repr

/-- The output in execution with the header it is executed on, and the anchor to publish. A task
without a job was spawned on an empty queue. -/
structure PendingTask where
  job : Option (ConsensusOutput × ExecHeader)
  anchor : ConsensusHeader

/-- The senders of the anchor and of the idle flag are optional. `returned` is what the future
has resolved to. -/
structure ExecutorEngine (σ : Type) where
  queued : List ConsensusOutput
  pendingTask : Option PendingTask
  parentHeader : ExecHeader
  lastAdmitted : Option LastAdmitted
  processor : Processor σ
  executedAnchor : Option ConsensusHeader
  engineIdle : Option Bool
  shutdownRequested : Bool
  returned : Option (Except RLEngineError Unit)

inductive StreamPoll where
  | ready (output : ConsensusOutput)
  | closed
  | pending

/-- What the receiver of the result answers: the result was sent, its sender is gone, or
neither. -/
inductive ReceiverPoll where
  | sent
  | closed
  | pending

/-- A poll is a look at the shutdown signal and then turns of the loop. -/
inductive EngineEvent where
  | shutdown
  | turn (stream : StreamPoll) (receiver : ReceiverPoll)

inductive EngineEffect where
  | admitted (output : ConsensusOutput)
  | started (output : ConsensusOutput) (parent : ExecHeader)
  | finished (output : ConsensusOutput) (header : ExecHeader)
  | published (anchor : ConsensusHeader)

inductive Admission where
  | dropped
  | fork
  | admitted
deriving DecidableEq

namespace ExecutorEngine

variable {σ : Type}

def new [HashFunction] (processor : Processor σ) (parentHeader : ExecHeader)
    (executedAnchor : Option ConsensusHeader) (engineIdle : Option Bool)
    (lastConsensusHeader : ConsensusHeader) : ExecutorEngine σ where
  queued := []
  pendingTask := none
  parentHeader := parentHeader
  lastAdmitted :=
    if 0 < lastConsensusHeader.number then
      some ⟨lastConsensusHeader.position, lastConsensusHeader.subDag.digest⟩
    else none
  processor := processor
  executedAnchor := executedAnchor
  engineIdle := engineIdle
  shutdownRequested := false
  returned := none

def returnWith (e : ExecutorEngine σ) (result : Except RLEngineError Unit) : ExecutorEngine σ :=
  { e with returned := some result }

def publishIdle (e : ExecutorEngine σ) : ExecutorEngine σ :=
  { e with engineIdle := e.engineIdle.map fun _ => e.pendingTask.isNone && e.queued.isEmpty }

def spawnExecutionTask (e : ExecutorEngine σ) : List EngineEffect × ExecutorEngine σ :=
  match e.queued with
  | [] => ([], { e with pendingTask := some ⟨none, .default⟩ })
  | output :: queued =>
    ([.started output e.parentHeader],
      { e with queued, pendingTask := some ⟨some (output, e.parentHeader), output.consensusHeader⟩ })

variable {e : ExecutorEngine σ} {finishes starts : List (ConsensusOutput × ExecHeader)}
    {output : ConsensusOutput}
  {parent : ExecHeader}

theorem spawnExecutionTask_cons {queued : List ConsensusOutput} (h : e.queued = output :: queued) :
    e.spawnExecutionTask = ([.started output e.parentHeader], { e with
        queued
        pendingTask := some ⟨some (output, e.parentHeader), output.consensusHeader⟩ }) := by
  rw [spawnExecutionTask, h]

section
variable [HashFunction]

def admission (e : ExecutorEngine σ) (output : ConsensusOutput) : Admission :=
  match e.lastAdmitted with
  | none => .admitted
  | some last =>
    match compare output.position last.position with
    | .lt => .dropped
    | .eq => if last.subdagDigest = output.subDag.digest then .dropped else .fork
    | .gt => .admitted

def admitOutput (e : ExecutorEngine σ) (output : ConsensusOutput) : ExecutorEngine σ :=
  { e with
    lastAdmitted := some ⟨output.position, output.subDag.digest⟩
    queued := e.queued ++ [output] }

variable [Evm σ]

def receive (cfg : ProcessorConfig) (e : ExecutorEngine σ) (task : PendingTask) :
    List EngineEffect × ExecutorEngine σ :=
  match task.job with
  | none => ([], e.returnWith (.error .emptyQueue))
  | some (output, parent) =>
    match { e.processor with head := parent }.executeConsensusOutput cfg output with
    | .error error => ([], e.returnWith (.error (.execution error)))
    | .ok (_, processor) =>
      (.finished output processor.head ::
          if e.executedAnchor.isSome then [.published task.anchor] else [],
        { e with
          parentHeader := processor.head
          processor
          executedAnchor := e.executedAnchor.map fun _ => task.anchor })

/-- The task is taken and put back if it is not done. A closed channel is benign only during
shutdown. -/
def pollReceiver (cfg : ProcessorConfig) (e : ExecutorEngine σ) (receiver : ReceiverPoll) :
    List EngineEffect × ExecutorEngine σ :=
  match e.pendingTask with
  | none => ([], e)
  | some task =>
    match receiver with
    | .pending => ([], e.publishIdle)
    | .closed =>
      ([], { e with pendingTask := none }.returnWith
        (if e.shutdownRequested then .ok () else .error .channelClosed))
    | .sent => { e with pendingTask := none }.receive cfg task

def proceed (cfg : ProcessorConfig) (e : ExecutorEngine σ) (receiver : ReceiverPoll) :
    List EngineEffect × ExecutorEngine σ :=
  match e.pendingTask with
  | some _ => e.pollReceiver cfg receiver
  | none =>
    if e.queued.isEmpty then ([], e.publishIdle)
    else
      let (effects, e) := e.spawnExecutionTask
      let (effects', e) := e.pollReceiver cfg receiver
      (effects ++ effects', e)

def turn (cfg : ProcessorConfig) (e : ExecutorEngine σ) (stream : StreamPoll)
    (receiver : ReceiverPoll) : List EngineEffect × ExecutorEngine σ :=
  match if maxQueuedOutputs ≤ e.queued.length then .pending else stream with
  | .ready output =>
    match e.admission output with
    | .dropped => ([], e)
    | .fork =>
      ([], e.returnWith (.error (.consensusFork output.epoch output.subDag.leaderRound)))
    | .admitted =>
      let (effects, e) := (e.admitOutput output).proceed cfg receiver
      (.admitted output :: effects, e)
  | .closed =>
    if e.pendingTask.isNone && e.queued.isEmpty then
      ([], e.returnWith
        (if e.shutdownRequested then .ok () else .error .consensusOutputStreamClosed))
    else e.proceed cfg receiver
  | .pending => e.proceed cfg receiver

def step (cfg : ProcessorConfig) (e : ExecutorEngine σ) (event : EngineEvent) :
    List EngineEffect × ExecutorEngine σ :=
  if e.returned.isSome then ([], e)
  else
    match event with
    | .shutdown =>
      let e := { e with shutdownRequested := true }
      if e.pendingTask.isNone && e.queued.isEmpty then ([], e.returnWith (.ok ())) else ([], e)
    | .turn stream receiver => e.turn cfg stream receiver

end

def admitted (effects : List EngineEffect) : List ConsensusOutput :=
  effects.filterMap fun
    | .admitted output => some output
    | _ => none

def started (effects : List EngineEffect) : List (ConsensusOutput × ExecHeader) :=
  effects.filterMap fun
    | .started output parent => some (output, parent)
    | _ => none

def finished (effects : List EngineEffect) : List (ConsensusOutput × ExecHeader) :=
  effects.filterMap fun
    | .finished output header => some (output, header)
    | _ => none

def published (effects : List EngineEffect) : List ConsensusHeader :=
  effects.filterMap fun
    | .published anchor => some anchor
    | _ => none

@[simp] theorem admitted_append (fx fx' : List EngineEffect) :
    admitted (fx ++ fx') = admitted fx ++ admitted fx' := filterMap_append

@[simp] theorem started_append (fx fx' : List EngineEffect) :
    started (fx ++ fx') = started fx ++ started fx' := filterMap_append

@[simp] theorem finished_append (fx fx' : List EngineEffect) :
    finished (fx ++ fx') = finished fx ++ finished fx' := filterMap_append

@[simp] theorem published_append (fx fx' : List EngineEffect) :
    published (fx ++ fx') = published fx ++ published fx' := filterMap_append

theorem effects_finished (anchored : Bool) (output : ConsensusOutput) (hdr : ExecHeader)
    (anchor : ConsensusHeader) :
    let fx := EngineEffect.finished output hdr :: if anchored then [.published anchor] else []
    admitted fx = [] ∧ started fx = [] ∧ finished fx = [(output, hdr)] ∧
      published fx = if anchored then [anchor] else [] := by
  cases anchored <;> exact ⟨rfl, rfl, rfl, rfl⟩

/-- How the executions stand: all that were started have returned, one has not, or the engine
has stopped. The headers an execution is started on are the first one and those returned. -/
inductive Progress (parent : ExecHeader) (starts finishes : List (ConsensusOutput × ExecHeader))
    (e : ExecutorEngine σ) : Prop where
  | idle (hpending : e.pendingTask = none) (houtputs : starts.map Prod.fst = finishes.map Prod.fst)
      (hheaders : starts.map Prod.snd ++ [e.parentHeader] = parent :: finishes.map Prod.snd)
  | busy (output : ConsensusOutput)
      (hpending : e.pendingTask = some ⟨some (output, e.parentHeader), output.consensusHeader⟩)
      (houtputs : starts.map Prod.fst = finishes.map Prod.fst ++ [output])
      (hheaders : starts.map Prod.snd = parent :: finishes.map Prod.snd)
  | stopped (hreturned : e.returned.isSome)
      (houtputs : finishes.map Prod.fst <+: starts.map Prod.fst)
      (hheaders : starts.map Prod.snd <+: parent :: finishes.map Prod.snd)

theorem Progress.prefixes (h : Progress parent starts finishes e) :
    finishes.map Prod.fst <+: starts.map Prod.fst ∧
      starts.map Prod.snd <+: parent :: finishes.map Prod.snd := by
  cases h with
  | idle _ houts hhs => exact ⟨⟨[], by rw [append_nil, houts]⟩, ⟨_, hhs⟩⟩
  | busy output _ houts hhs => exact ⟨⟨_, houts.symm⟩, ⟨[], by rw [append_nil, hhs]⟩⟩
  | stopped _ houts hhs => exact ⟨houts, hhs⟩

theorem Progress.of_eq {e' : ExecutorEngine σ} (h : Progress parent starts finishes e)
    (hpend : e'.pendingTask = e.pendingTask) (hpar : e'.parentHeader = e.parentHeader)
    (hretn : e'.returned = e.returned) : Progress parent starts finishes e' := by
  cases h with
  | idle h houts hhs => exact .idle (hpend.trans h) houts (hpar ▸ hhs)
  | busy output h houts hhs =>
    exact .busy output (by rw [hpend, h, hpar]) houts hhs
  | stopped h houts hhs => exact .stopped (hretn ▸ h) houts hhs

def Reaches (e : ExecutorEngine σ) (position : Position) : Prop :=
  ∃ last ∈ e.lastAdmitted, position ≤ last.position

theorem lt_of_admitted [HashFunction] (h : e.admission output = .admitted) {last : LastAdmitted}
    (hlast : last ∈ e.lastAdmitted) : last.position < output.position := by
  rw [admission, Option.mem_def.mp hlast] at h
  dsimp only at h
  split at h
  · cases h
  · split at h <;> cases h
  · rename_i hcompare
    exact compare_gt_iff_gt.mp hcompare

section
variable [HashFunction] [Evm σ]

/-- What holds of an engine and the outputs it has admitted, started and finished so far and the
anchors it has published, from its first state on. -/
structure History (cfg : ProcessorConfig) (e₀ : ExecutorEngine σ) (admits : List ConsensusOutput)
    (starts finishes : List (ConsensusOutput × ExecHeader)) (anchors : List ConsensusHeader)
    (e : ExecutorEngine σ) : Prop where
  fifo : admits = starts.map Prod.fst ++ e.queued
  increasing : (admits.map position).Pairwise (· < ·)
  aboveSeed : ∀ seed ∈ e₀.lastAdmitted, ∀ o ∈ admits, seed.position < o.position
  seedReached : ∀ seed ∈ e₀.lastAdmitted, e.Reaches seed.position
  reached : ∀ o ∈ admits, e.Reaches o.position
  bounded : e.queued.length ≤ maxQueuedOutputs
  progress : Progress e₀.parentHeader starts finishes e
  executed : ∃ results, Processor.run cfg { e₀.processor with head := e₀.parentHeader }
    (finishes.map Prod.fst) = .ok (results, { e.processor with head := e.parentHeader })
  anchors_eq : anchors =
    if e₀.executedAnchor.isSome then finishes.map fun x => x.1.consensusHeader else []
  anchor : e.executedAnchor = e₀.executedAnchor.map anchors.getLastD

namespace History

variable {cfg : ProcessorConfig} {e₀ e : ExecutorEngine σ} {admits : List ConsensusOutput}
  {starts fin : List (ConsensusOutput × ExecHeader)} {anchors : List ConsensusHeader}

theorem start (hqd : e.queued = []) (hpend : e.pendingTask = none) :
    History cfg e [] [] [] [] e where
  fifo := by
    rw [hqd]
    rfl
  increasing := List.Pairwise.nil
  aboveSeed _ _ := nofun
  seedReached seed hseed := ⟨seed, hseed, le_refl _⟩
  reached := nofun
  bounded := by
    rw [hqd]
    exact Nat.zero_le _
  progress := .idle hpend rfl rfl
  executed := ⟨[], rfl⟩
  anchors_eq := by
    split <;> rfl
  anchor := Option.map_id.symm ▸ rfl

section
variable (h : History cfg e₀ admits starts fin anchors e)
include h

theorem publishIdle : History cfg e₀ admits starts fin anchors e.publishIdle :=
  { h with progress := h.progress.of_eq rfl rfl rfl }

theorem returnWith {e' : ExecutorEngine σ} (res : Except RLEngineError Unit)
    (he' : e' = e.returnWith res ∨ e' = { e with pendingTask := none }.returnWith res) :
    History cfg e₀ admits starts fin anchors e' := by
  obtain ⟨houts, hhs⟩ := h.progress.prefixes
  rcases he' with rfl | rfl
  · exact { h with progress := .stopped rfl houts hhs }
  · exact { h with progress := .stopped rfl houts hhs }

end

variable {out : ConsensusOutput}

section
variable (h : History cfg e₀ admits starts fin anchors e)
include h

theorem admitOutput (hroom : e.queued.length < maxQueuedOutputs)
    (hadm : e.admission out = .admitted) :
    History cfg e₀ (admits ++ [out]) starts fin anchors (e.admitOutput out) := by
  -- all that was admitted before lies below the last position, and so below the new one
  have hbel : ∀ position, e.Reaches position → position < out.position := by
    rintro position ⟨last, hlast, hle⟩
    exact hle.trans_lt (lt_of_admitted hadm hlast)
  have hreach : ∀ position, position ≤ out.position → (e.admitOutput out).Reaches position :=
    fun position hle => ⟨_, rfl, hle⟩
  refine { h with
    fifo := ?_
    increasing := ?_
    aboveSeed := ?_
    seedReached := ?_
    reached := ?_
    bounded := ?_
    progress := h.progress.of_eq rfl rfl rfl }
  · rw [h.fifo, append_assoc]
    rfl
  · rw [map_append, pairwise_append]
    refine ⟨h.increasing, pairwise_singleton _ _, ?_⟩
    simp only [forall_mem_map, map_singleton, mem_singleton, forall_eq]
    exact fun o ho => hbel _ (h.reached o ho)
  · intro seed hseed
    rw [forall_mem_append]
    refine ⟨h.aboveSeed seed hseed, fun o ho => ?_⟩
    rw [mem_singleton.mp ho]
    exact hbel _ (h.seedReached seed hseed)
  · intro seed hseed
    exact hreach _ (hbel _ (h.seedReached seed hseed)).le
  · rw [forall_mem_append]
    refine ⟨fun o ho => hreach _ (hbel _ (h.reached o ho)).le, fun o ho => ?_⟩
    rw [mem_singleton.mp ho]
    exact hreach _ (le_refl _)
  · change (e.queued ++ [out]).length ≤ _
    rw [length_append]
    exact hroom

theorem spawn {queued : List ConsensusOutput} (hretn : e.returned = none)
    (hpend : e.pendingTask = none) (hqd : e.queued = out :: queued) :
    History cfg e₀ admits (starts ++ [(out, e.parentHeader)]) fin anchors { e with
        queued
        pendingTask := some ⟨some (out, e.parentHeader), out.consensusHeader⟩ } := by
  refine { h with
    fifo := ?_
    bounded := ?_
    progress := ?_ }
  · rw [h.fifo, hqd, map_append, append_assoc]
    rfl
  · have hbdd := h.bounded
    rw [hqd] at hbdd
    exact (Nat.le_succ _).trans hbdd
  · cases h.progress with
    | idle _ houts hhs =>
      refine .busy out rfl ?_ ?_
      · rw [map_append, houts]
        rfl
      · rw [map_append]
        exact hhs
    | busy _ hbusy => cases hpend.symm.trans hbusy
    | stopped hstop =>
      rw [hretn] at hstop
      cases hstop

theorem pending {task : PendingTask} (hretn : e.returned = none)
    (hpend : e.pendingTask = some task) :
    ∃ out, task = ⟨some (out, e.parentHeader), out.consensusHeader⟩ ∧
      starts.map Prod.fst = fin.map Prod.fst ++ [out] ∧
      starts.map Prod.snd = e₀.parentHeader :: fin.map Prod.snd := by
  cases h.progress with
  | idle hidle => cases hpend.symm.trans hidle
  | busy out hbusy houts hhs =>
    exact ⟨out, Option.some.inj (hpend.symm.trans hbusy), houts, hhs⟩
  | stopped hstop =>
    rw [hretn] at hstop
    cases hstop

theorem finish {r : OutputResult} {p : Processor σ}
    (houts : starts.map Prod.fst = fin.map Prod.fst ++ [out])
    (hhs : starts.map Prod.snd = e₀.parentHeader :: fin.map Prod.snd)
    (hok : { e.processor with head := e.parentHeader }.executeConsensusOutput cfg out = .ok (r, p)) :
    History cfg e₀ admits starts (fin ++ [(out, p.head)])
      (anchors ++ if e.executedAnchor.isSome then [out.consensusHeader] else []) { e with
        pendingTask := none
        parentHeader := p.head
        processor := p
        executedAnchor := e.executedAnchor.map fun _ => out.consensusHeader } := by
  refine { h with
    progress := ?_
    executed := ?_
    anchors_eq := ?_
    anchor := ?_ }
  · refine .idle rfl ?_ ?_
    · rw [houts, map_append]
      rfl
    · rw [hhs, map_append]
      rfl
  · obtain ⟨results, hrun⟩ := h.executed
    refine ⟨results ++ [r], ?_⟩
    rw [map_append]
    apply Machine.run_append_eq_ok.mpr
    exact ⟨results, _, [r], hrun, Machine.run_cons_eq_ok.mpr ⟨r, p, [], hok, rfl, rfl⟩, rfl⟩
  · rw [h.anchors_eq, h.anchor, Option.isSome_map]
    split
    · rw [map_append]
      rfl
    · rfl
  · rw [h.anchor]
    cases e₀.executedAnchor with
    | none => rfl
    | some a => exact congrArg some getLastD_concat.symm

end

end History

def HistoryOf (cfg : ProcessorConfig) (e₀ : ExecutorEngine σ) (fx : List EngineEffect)
    (e : ExecutorEngine σ) : Prop :=
  History cfg e₀ (admitted fx) (started fx) (finished fx) (published fx) e

namespace HistoryOf

variable {cfg : ProcessorConfig} {e₀ e : ExecutorEngine σ} {fx : List EngineEffect}

section
variable (h : HistoryOf cfg e₀ fx e)
include h

section
variable (hretn : e.returned = none)
include hretn

theorem pollReceiver (recv : ReceiverPoll) :
    HistoryOf cfg e₀ (fx ++ (e.pollReceiver cfg recv).1) (e.pollReceiver cfg recv).2 := by
  unfold ExecutorEngine.pollReceiver
  split
  · rw [append_nil]
    exact h
  · rename_i task hpend
    obtain ⟨output, rfl, houts, hhs⟩ := History.pending h hretn hpend
    cases recv with
    | pending =>
      rw [append_nil]
      exact .publishIdle h
    | closed =>
      rw [append_nil]
      exact .returnWith h _ (.inr rfl)
    | sent =>
      dsimp only [receive]
      split
      · rw [append_nil]
        exact .returnWith h _ (.inr rfl)
      · rename_i r p hok
        have hfinish := History.finish h houts hhs hok
        obtain ⟨h₁, h₂, h₃, h₄⟩ := effects_finished e.executedAnchor.isSome output p.head
          output.consensusHeader
        unfold HistoryOf
        rw [admitted_append, started_append, finished_append, published_append, h₁, h₂, h₃, h₄,
          append_nil, append_nil]
        exact hfinish

theorem proceed (recv : ReceiverPoll) :
    HistoryOf cfg e₀ (fx ++ (e.proceed cfg recv).1) (e.proceed cfg recv).2 := by
  unfold ExecutorEngine.proceed
  split
  · exact h.pollReceiver hretn recv
  · rename_i hpend
    split
    · rw [append_nil]
      exact .publishIdle h
    · rename_i hqd
      cases hcons : e.queued with
      | nil =>
        rw [hcons] at hqd
        exact absurd rfl hqd
      | cons output queued =>
        have hsp : HistoryOf cfg e₀ (fx ++ [.started output e.parentHeader])
            e.spawnExecutionTask.2 := by
          unfold HistoryOf
          rw [admitted_append, started_append, finished_append, published_append,
            spawnExecutionTask_cons hcons]
          change History cfg e₀ (admitted fx ++ []) (started fx ++ [_]) (finished fx ++ [])
            (published fx ++ []) _
          rw [append_nil, append_nil, append_nil]
          exact .spawn h hretn hpend hcons
        rw [spawnExecutionTask_cons hcons] at hsp ⊢
        rw [← append_assoc]
        exact hsp.pollReceiver hretn recv

theorem turn (stream : StreamPoll) (recv : ReceiverPoll) :
    HistoryOf cfg e₀ (fx ++ (e.turn cfg stream recv).1) (e.turn cfg stream recv).2 := by
  unfold ExecutorEngine.turn
  split
  · rename_i output hpoll
    have hroom : e.queued.length < maxQueuedOutputs := by
      by_contra hfull
      rw [if_pos (by omega)] at hpoll
      cases hpoll
    split
    · rw [append_nil]
      exact h
    · rw [append_nil]
      exact .returnWith h _ (.inl rfl)
    · rename_i hadm
      have hadmitted : HistoryOf cfg e₀ (fx ++ [.admitted output]) (e.admitOutput output) := by
        unfold HistoryOf
        rw [admitted_append, started_append, finished_append, published_append]
        change History cfg e₀ (admitted fx ++ [_]) (started fx ++ []) (finished fx ++ [])
          (published fx ++ []) _
        rw [append_nil, append_nil, append_nil]
        exact .admitOutput h hroom hadm
      have hproceed := hadmitted.proceed hretn recv
      rwa [append_assoc] at hproceed
  · split
    · rw [append_nil]
      exact .returnWith h _ (.inl rfl)
    · exact h.proceed hretn recv
  · exact h.proceed hretn recv

end

theorem step (ev : EngineEvent) : HistoryOf cfg e₀ (fx ++ (e.step cfg ev).1) (e.step cfg ev).2 := by
  unfold ExecutorEngine.step
  split
  · rw [append_nil]
    exact h
  · rename_i hrng
    have hretn : e.returned = none := Option.not_isSome_iff_eq_none.mp hrng
    cases ev with
    | shutdown =>
      have hrequested : HistoryOf cfg e₀ fx { e with shutdownRequested := true } :=
        { h with progress := h.progress.of_eq rfl rfl rfl }
      dsimp only
      split
      · rw [append_nil]
        exact .returnWith hrequested _ (.inl rfl)
      · rw [append_nil]
        exact hrequested
    | turn stream recv => exact h.turn hretn stream recv

end

end HistoryOf

variable {e : ExecutorEngine σ}

theorem run_historyOf (cfg : ProcessorConfig) (hqd : e.queued = [])
    (hpend : e.pendingTask = none) (evs : List EngineEvent) :
    HistoryOf cfg e (run (step cfg) e evs).1 (run (step cfg) e evs).2 := by
  have hst : HistoryOf cfg e [] e := History.start hqd hpend
  exact run_history (P := HistoryOf cfg e) (fun _ _ ev h => h.step ev) hst evs

theorem step_fork (cfg : ProcessorConfig) (hretn : e.returned = none)
    (hroom : e.queued.length < maxQueuedOutputs) {last : LastAdmitted} (hlast : last ∈ e.lastAdmitted)
    {output : ConsensusOutput} (hpos : output.position = last.position)
    (hdig : last.subdagDigest ≠ output.subDag.digest) (recv : ReceiverPoll) :
    e.step cfg (.turn (.ready output) recv) =
      ([], e.returnWith (.error (.consensusFork output.epoch output.subDag.leaderRound))) := by
  have hadm : e.admission output = .fork := by
    rw [admission, Option.mem_def.mp hlast]
    dsimp only
    rw [compare_eq_iff_eq.mpr hpos]
    exact if_neg hdig
  rw [step, hretn]
  simp only [Option.isSome_none, Bool.false_eq_true, if_false, turn,
    if_neg (Nat.not_le_of_lt hroom), hadm]

/-- Any stream of outputs and any answers of the executions. The outputs handed over for
execution have increasing positions above the seed, and each is executed on the header that the
one before has returned, as by the processor alone; the published anchor does not go back, the
queue is bounded, and a fork at the last admitted position ends the engine. -/
theorem run_admission (cfg : ProcessorConfig) (processor : Processor σ) (parentHeader : ExecHeader)
    (engineIdle : Option Bool) (last : ConsensusHeader) (hlast : last.number = 0 → last = .default)
    (events : List EngineEvent) :
    let e₀ := ExecutorEngine.new processor parentHeader (some last) engineIdle last
    let fx := (run (step cfg) e₀ events).1
    let e := (run (step cfg) e₀ events).2
    (((started fx).map fun x => x.1.position).Pairwise (· < ·) ∧
      (0 < last.number → ∀ x ∈ started fx, last.position < x.1.position)) ∧
    ((started fx).map Prod.snd <+: parentHeader :: (finished fx).map Prod.snd ∧
      (finished fx).map Prod.fst <+: (started fx).map Prod.fst ∧
      ∃ results, Processor.run cfg { processor with head := parentHeader }
        ((finished fx).map Prod.fst) = .ok (results, { e.processor with head := e.parentHeader })) ∧
    (((last :: published fx).map ConsensusHeader.position).Pairwise (· ≤ ·) ∧
      e.executedAnchor = some ((published fx).getLastD last)) ∧
    e.queued.length ≤ maxQueuedOutputs ∧
    ∀ output receiver, e.returned = none → e.queued.length < maxQueuedOutputs →
      ∀ admitted ∈ e.lastAdmitted, output.position = admitted.position →
        admitted.subdagDigest ≠ output.subDag.digest →
        e.step cfg (.turn (.ready output) receiver) =
          ([], e.returnWith (.error (.consensusFork output.epoch output.subDag.leaderRound))) := by
  intro e₀ fx e
  have h : HistoryOf cfg e₀ fx e := run_historyOf cfg rfl rfl events
  obtain ⟨hfinished, hheaders⟩ := h.progress.prefixes
  have hstarted : (started fx).map Prod.fst <+: admitted fx := ⟨e.queued, h.fifo.symm⟩
  have hincreasing : ((started fx).map fun x => x.1.position).Pairwise (· < ·) := by
    have hsub := (hstarted.map position).sublist
    rw [map_map] at hsub
    exact h.increasing.sublist hsub
  have habove : 0 < last.number → ∀ o ∈ admitted fx, last.position < o.position :=
    fun hpos => h.aboveSeed ⟨last.position, last.subDag.digest⟩ (if_pos hpos)
  have hpublished : published fx = (finished fx).map fun x => x.1.consensusHeader := h.anchors_eq
  refine ⟨⟨hincreasing, fun hpos x hx => ?_⟩, ⟨hheaders, hfinished, h.executed⟩,
    ⟨?_, h.anchor⟩, h.bounded, fun output receiver hreturned hroom l hl hposition hdigest =>
      step_fork cfg hreturned hroom hl hposition hdigest receiver⟩
  · exact habove hpos x.1 (hstarted.subset (mem_map_of_mem hx))
  · have hpre : (published fx).map ConsensusHeader.position <+:
        (started fx).map fun x => x.1.position := by
      have := hfinished.map position
      rw [map_map, map_map] at this
      rw [hpublished, map_map]
      exact this
    rw [map_cons, pairwise_cons]
    refine ⟨fun position hposition => ?_, (hincreasing.sublist hpre.sublist).imp le_of_lt⟩
    obtain ⟨x, hx, rfl⟩ := mem_map.mp (hpre.subset hposition)
    rcases Nat.eq_zero_or_pos last.number with hzero | hpos
    · rw [hlast hzero, ConsensusHeader.position_default, Prod.Lex.le_iff]
      simp only [ofLex_toLex]
      omega
    · exact (habove hpos x.1 (hstarted.subset (mem_map_of_mem hx))).le

end

/-- Two feeds: the second output comes while the first is in execution, and both come again. -/
theorem run_admission_redelivered :
    letI := HashFunction.polynomial
    let first := ofBatches 1 2 [numbered 1 11]
    let second := ofBatches 1 4 [numbered 2 12]
    let e₀ := ExecutorEngine.new .initial .genesis (some .default) (some false) .default
    let fx := (run (step .allActive) e₀ [.turn (.ready first) .pending,
      .turn (.ready second) .pending, .turn (.ready first) .pending, .turn .pending .sent,
      .turn (.ready second) .sent, .turn .pending .sent]).1
    (started fx).map (fun x => x.1.position) = [toLex (1, 2), toLex (1, 4)] ∧
      (finished fx).map (fun x => x.2.number) = [1, 2] ∧
      (published fx).map ConsensusHeader.position = [toLex (1, 2), toLex (1, 4)] ∧
      (started fx).map Prod.snd <+: .genesis :: (finished fx).map Prod.snd := by
  let _ := HashFunction.polynomial
  intro first second e₀ fx
  refine ⟨by decide +kernel, by decide +kernel, by decide +kernel, ?_⟩
  exact (run_admission .allActive .initial .genesis (some false) .default
    (fun _ => rfl) _).2.1.1

end ExecutorEngine

end Axyl
