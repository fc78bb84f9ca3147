import Axyl.Primary.VoteSteps

/-! One primary with its table of votes: at most one header of an author is voted for in a round. -/

namespace Axyl
open List
open Std (ExtTreeMap)

def writeVote (votes : ExtTreeMap Nat VoteInfo) (vote : Vote) : ExtTreeMap Nat VoteInfo :=
  votes.insert vote.origin vote.info

structure VotePrimary where
  handler : VoteHandler
  votes : ExtTreeMap Nat VoteInfo

namespace VotePrimary

def step (cfg : VoteConfig) (p : VotePrimary) (event : VoteEvent) : List VoteEffect × VotePrimary :=
  let r := p.handler.step cfg (fun author => .ok p.votes[author]?) event
  (r.1, ⟨r.2, (r.1.filterMap VoteEffect.wrote?).foldl writeVote p.votes⟩)

def run (cfg : VoteConfig) (p : VotePrimary) (events : List VoteEvent) :
    List VoteEffect × VotePrimary :=
  Reactor.run (step cfg) p events

/-- A task that writes its vote finds the row that it read: no other task has written a different
vote for this author in between. -/
def fresh (p : VotePrimary) : VoteEvent → Bool
  | .write i _ =>
    p.handler.tasks[i]?.all fun task =>
      match task.pc with
      | .write _ previous => p.votes[task.header.author]? = previous
      | _ => true
  | _ => true

structure OneRow (rows : List (Nat × VoteInfo)) (effects : List VoteEffect) (p : VotePrimary) :
    Prop where
  stored : ∀ a info, p.votes[a]? = some info → (a, info) ∈ rows ∧
    ∀ info', (a, info') ∈ rows → info'.epoch = info.epoch ∧ info'.round ≤ info.round
  absent : ∀ a, p.votes[a]? = none → ∀ info, (a, info) ∉ rows
  unique : ∀ a info info', (a, info) ∈ rows → (a, info') ∈ rows → info.round = info'.round →
    info = info'
  known : ∀ v, (∃ x ∈ effects, x.vote? = some v) ∨ p.handler.Holds v → (v.origin, v.info) ∈ rows
  writes : ∀ task ∈ p.handler.tasks, ∀ id previous, task.pc = .write id previous →
    VoteInfo.Allows previous task.header

theorem oneRow_new (votes : ExtTreeMap Nat VoteInfo) : OneRow votes.toList [] ⟨.new, votes⟩ := by
  have hmem : ∀ a info, (a, info) ∈ votes.toList ↔ votes[a]? = some info := fun _ _ =>
    ExtTreeMap.mem_toList_iff_getElem?_eq_some
  refine ⟨fun a info h => ⟨(hmem a info).mpr h, fun info' h' => ?_⟩, fun a h info hinfo => ?_,
    fun a info info' h h' _ => ?_, fun v h => ?_, nofun⟩
  · rw [hmem, show votes[a]? = some info from h] at h'
    cases h'
    exact ⟨rfl, le_refl _⟩
  · rw [hmem, show votes[a]? = none from h] at hinfo
    cases hinfo
  · rw [hmem] at h h'
    rw [h] at h'
    exact Option.some.inj h'
  · rcases h with ⟨_, h, _⟩ | h
    · cases h
    · exact absurd h (VoteHandler.not_holds_new v)

variable {cfg : VoteConfig} {rows : List (Nat × VoteInfo)} {effects : List VoteEffect}
  {p : VotePrimary} {event : VoteEvent}

theorem OneRow.write (h : OneRow rows effects p) {v : Vote} {handler : VoteHandler}
    {effects' : List VoteEffect}
    (hallows : ∀ info, p.votes[v.origin]? = some info → v.epoch = info.epoch ∧ info.round < v.round)
    (hkn : ∀ w, (∃ x ∈ effects', x.vote? = some w) ∨ handler.Holds w →
      (w.origin, w.info) ∈ rows ∨ w = v)
    (hws : ∀ task ∈ handler.tasks, ∀ id prev, task.pc = .write id prev →
      VoteInfo.Allows prev task.header) :
    OneRow (rows ++ [(v.origin, v.info)]) effects' ⟨handler, writeVote p.votes v⟩ := by
  -- rows of the author so far are older
  have holder : ∀ info, (v.origin, info) ∈ rows → info.epoch = v.epoch ∧ info.round < v.round := by
    intro info hinfo
    cases hrow : p.votes[v.origin]? with
    | none => exact absurd hinfo (h.absent _ hrow info)
    | some last =>
      obtain ⟨hep, hrnd⟩ := hallows last hrow
      obtain ⟨hep', hrnd'⟩ := (h.stored _ last hrow).2 info hinfo
      omega
  have hmem : ∀ {a : Nat} {info : VoteInfo}, (a, info) ∈ rows ++ [(v.origin, v.info)] →
      (a, info) ∈ rows ∨ a = v.origin ∧ info = v.info := by
    intro a info hinfo
    rcases mem_append.mp hinfo with hinfo | hinfo
    · exact .inl hinfo
    · exact .inr (Prod.ext_iff.mp (mem_singleton.mp hinfo))
  refine ⟨fun a info hrow => ?_, fun a hrow info hinfo => ?_, fun a info info' hi hi' hrnd => ?_,
    fun w hw => ?_, hws⟩
  · unfold writeVote at hrow
    rw [ExtTreeMap.getElem?_insert] at hrow
    split at hrow
    · next heq =>
      obtain rfl : v.origin = a := compare_eq_iff_eq.mp heq
      cases hrow
      refine ⟨mem_append_right _ mem_cons_self, fun info' hinfo' => ?_⟩
      rcases hmem hinfo' with hinfo' | ⟨-, rfl⟩
      · exact ⟨(holder info' hinfo').1, (holder info' hinfo').2.le⟩
      · exact ⟨rfl, le_refl _⟩
    · next hne =>
      obtain ⟨hmem', hlast⟩ := h.stored a info hrow
      refine ⟨mem_append_left _ hmem', fun info' hinfo' => ?_⟩
      rcases hmem hinfo' with hinfo' | ⟨rfl, -⟩
      · exact hlast info' hinfo'
      · exact absurd (compare_eq_iff_eq.mpr rfl) hne
  · unfold writeVote at hrow
    rw [ExtTreeMap.getElem?_insert] at hrow
    split at hrow
    · cases hrow
    · next hne =>
      rcases hmem hinfo with hinfo | ⟨rfl, -⟩
      · exact h.absent a hrow info hinfo
      · exact hne (compare_eq_iff_eq.mpr rfl)
  · rcases hmem hi with hi | ⟨rfl, rfl⟩ <;> rcases hmem hi' with hi' | ⟨ha, rfl⟩
    · exact h.unique a info info' hi hi' hrnd
    · subst ha
      exact absurd hrnd (holder info hi).2.ne
    · exact absurd hrnd.symm (holder info' hi').2.ne
    · rfl
  · rcases hkn w hw with hw | rfl
    · exact mem_append_left _ hw
    · exact mem_append_right _ mem_cons_self

theorem OneRow.step (h : OneRow rows effects p) (hfre : p.fresh event) :
    ∃ rows', OneRow rows' (effects ++ (p.step cfg event).1) (p.step cfg event).2 := by
  have hstep := VoteHandler.explained_step cfg (fun auth => .ok p.votes[auth]?) p.handler event
  unfold VotePrimary.step
  dsimp only
  generalize p.handler.step cfg (fun auth => .ok p.votes[auth]?) event = r at hstep ⊢
  -- every vote of the step is in a row, or is the one that it writes
  have hkn : ∀ v, (∃ x ∈ effects ++ r.1, x.vote? = some v) ∨ r.2.Holds v →
      (v.origin, v.info) ∈ rows ∨ .wrote v ∈ r.1 := by
    intro v hv
    have hcas : (∃ x ∈ effects, x.vote? = some v) ∨
        (∃ x ∈ r.1, x.vote? = some v) ∨ r.2.Holds v := by
      rcases hv with ⟨x, hx, hv⟩ | hv
      · rcases mem_append.mp hx with hx | hx
        · exact .inl ⟨x, hx, hv⟩
        · exact .inr (.inl ⟨x, hx, hv⟩)
      · exact .inr (.inr hv)
    rcases hcas with hv | hv
    · exact .inl (h.known v (.inl hv))
    · rcases hstep.votes v hv with hv | hv | hv
      · exact .inl (h.known v (.inr hv))
      · exact .inr hv
      · exact .inl (h.stored _ _ (Except.ok.inj hv)).1
  have hws : ∀ task ∈ r.2.tasks, ∀ id previous, task.pc = .write id previous →
      VoteInfo.Allows previous task.header := by
    intro task htask id previous hpc
    rcases hstep.writes task htask id previous hpc with hold | ⟨-, hallows⟩
    · exact h.writes task hold id previous hpc
    · exact hallows
  rcases hstep.wrote with hnone | ⟨i, task, id, previous, rfl, htask, hpc, hfx⟩
  · refine ⟨rows, ?_⟩
    rw [hnone]
    refine { h with known := fun v hv => ?_, writes := hws }
    exact (hkn v hv).resolve_right (VoteEffect.not_wrote hnone)
  · refine ⟨rows ++ [((Vote.new task.header id).origin, (Vote.new task.header id).info)], ?_⟩
    rw [hfx] at hkn ⊢
    refine h.write (v := Vote.new task.header id) (fun info hrow => ?_) (fun w hw => ?_) hws
    · have hrow' : p.votes[task.header.author]? = previous := by
        unfold fresh at hfre
        dsimp only at hfre
        rw [htask, Option.all_some, hpc] at hfre
        exact of_decide_eq_true hfre
      exact h.writes task (mem_of_getElem? htask) id previous hpc info (hrow'.symm.trans hrow)
    · rcases hkn w hw with hw | hw
      · exact .inl hw
      · cases mem_singleton.mp hw
        exact .inr rfl

/-- Tasks of any number of requests in any order, with entries of the cache that expire, are taken
over, dropped or evicted; a task that writes finds the row that it read. -/
theorem one_vote_per_round (cfg : VoteConfig) (votes : ExtTreeMap Nat VoteInfo)
    (events : List VoteEvent)
    (hfresh : Reactor.Always (step cfg) (fun p event => p.fresh event) ⟨.new, votes⟩ events)
    {v w : Vote} (hv : .answered (.vote v) ∈ (run cfg ⟨.new, votes⟩ events).1)
    (hw : .answered (.vote w) ∈ (run cfg ⟨.new, votes⟩ events).1) (horigin : v.origin = w.origin)
    (hround : v.round = w.round) : v.headerDigest = w.headerDigest := by
  obtain ⟨rows, h⟩ := Reactor.run_history_of (Q := fun effects p => ∃ rows, OneRow rows effects p)
    (fun _ _ _ ⟨_, h⟩ hfresh => h.step hfresh) ⟨_, oneRow_new votes⟩ hfresh
  have hv' := h.known v (.inl ⟨_, hv, rfl⟩)
  have hw' := h.known w (.inl ⟨_, hw, rfl⟩)
  rw [← horigin] at hw'
  exact congrArg VoteInfo.voteDigest (h.unique v.origin v.info w.info hv' hw' hround)

end VotePrimary

/-! A committee of two, and two headers of the first authority for round one. -/

namespace VotePrimary

def twoMembers : Committee where
  authorities := [⟨1, 1⟩, ⟨2, 1⟩]
  epoch := 0
  sorted := by decide
  nonempty := by decide

def voter : VoteConfig := ⟨twoMembers, 50, 1, some 2⟩

def genesisOf (author : Nat) : Certificate := ⟨⟨author, 0, 0, 0, [], [], author⟩⟩

def proposal (digest : Nat) : ProposedHeader := ⟨⟨1, 1, 0, 0, [], [1, 2], digest⟩, ⟨0, 0⟩⟩

def validated (task : Nat) : List VoteEvent :=
  [.check task 0 [], .parents task (.ok []), .certificates task (.ok [genesisOf 1, genesisOf 2]),
    .batches task (.ok ()), .clock task 0]

def given (task : Nat) : List VoteEvent :=
  [.write task none, .record task none, .complete task, .answer task 0]

theorem one_vote_per_round_once :
    let events := [.request 1 (proposal 7) [] 0] ++ validated 0 ++ [.read 0] ++ given 0
    .answered (.vote ⟨7, 1, 0, 1, 2⟩) ∈ (run voter ⟨.new, ∅⟩ events).1 ∧
      ∀ v : Vote, .answered (.vote v) ∈ (run voter ⟨.new, ∅⟩ events).1 →
        v.origin = 1 → v.round = 1 → v.headerDigest = 7 := by
  intro events
  have hgiven : .answered (.vote ⟨7, 1, 0, 1, 2⟩) ∈ (run voter ⟨.new, ∅⟩ events).1 := by
    decide +kernel
  refine ⟨hgiven, fun v hv horigin hround => ?_⟩
  exact one_vote_per_round voter ∅ events (by decide +kernel) hv hgiven horigin hround

/-- The second request comes when the entry of the first has expired. Both tasks read the table
before either writes to it, and both answer with a vote. -/
theorem two_votes_after_takeover :
    let events := [.request 1 (proposal 7) [] 0] ++ validated 0 ++
      [.request 1 (proposal 8) [] 15001] ++ validated 1 ++ [.read 0, .read 1] ++ given 0 ++ given 1
    .answered (.vote ⟨7, 1, 0, 1, 2⟩) ∈ (run voter ⟨.new, ∅⟩ events).1 ∧
      .answered (.vote ⟨8, 1, 0, 1, 2⟩) ∈ (run voter ⟨.new, ∅⟩ events).1 := by
  decide +kernel

end VotePrimary

end Axyl
