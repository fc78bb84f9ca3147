import Axyl.Primary.VoteHandler

/-! What a step of the vote handler does: where votes come from and where they can be. -/

namespace Axyl
open List VoteEffect VoteInner AuthEquivocationMap
open Std ExtTreeMap

namespace AuthEquivocationMap

variable {cache : AuthEquivocationMap} {hdr : ProposedHeader} {v : Vote}

def Caches (cache : AuthEquivocationMap) (v : Vote) : Prop :=
  ∃ (a : Nat) (state : AuthVoteState), cache[a]? = some state ∧ state.vote? = some v

variable {res : Except PrimaryNetworkError PrimaryResponse} {ps : List Certificate}
  {st : AuthVoteState}

theorem caches_insert {a : Nat}
    (h : Caches (cache.insert a st) v) : cache.Caches v ∨ st.vote? = some v := by
  obtain ⟨a', st', hget, hv⟩ := h
  rw [ExtTreeMap.getElem?_insert] at hget
  split at hget
  · cases hget
    exact .inr hv
  · exact .inl ⟨a', st', hget, hv⟩

theorem caches_erase {a : Nat} (h : Caches (cache.erase a) v) : cache.Caches v := by
  obtain ⟨a', st', hget, hv⟩ := h
  rw [getElem?_erase] at hget
  split at hget
  · cases hget
  · exact ⟨a', st', hget, hv⟩

theorem caches_foldl_erase {keys : List Nat} (h : Caches (keys.foldl erase cache) v) :
    cache.Caches v := by
  induction keys generalizing cache with
  | nil => exact h
  | cons a keys ih => exact caches_erase (ih h)

theorem caches_cleanup {now : Nat} (h : (cache.cleanup now).Caches v) : cache.Caches v := by
  unfold cleanup evictOldestCompleted at h
  have hexpired : (cache.evictExpiredInflight now).Caches v → cache.Caches v := by
    rintro ⟨a, st, hget, hv⟩
    unfold evictExpiredInflight at hget
    rw [getElem?_filter', Option.filter_eq_some_iff] at hget
    exact ⟨a, st, hget.1, hv⟩
  split at h
  · exact hexpired h
  · exact hexpired (caches_foldl_erase h)

theorem caches_dropGuard (h : (cache.dropGuard hdr).Caches v) : cache.Caches v := by
  unfold dropGuard at h
  split at h
  · split at h
    · exact caches_erase h
    · exact h
  · exact h

theorem caches_complete {resp : PrimaryResponse} (h : (cache.complete hdr resp).Caches v) :
    cache.Caches v ∨ resp.vote? = some v := by
  unfold complete at h
  split at h
  · exact .inl h
  · exact caches_insert h

theorem vote_checkResponse {resp : Option PrimaryResponse} (h : checkResponse ps resp = some res)
    (hv : (PrimaryResponse.ofResult res).vote? = some v) :
    resp.bind PrimaryResponse.vote? = some v := by
  unfold checkResponse at h
  split at h
  · cases h
  · cases h
  · split at h
    · cases h
      cases hv
    · split at h
      · cases h
        cases hv
      · split at h
        · cases h
          cases hv
        · cases h
  · cases h
    exact hv

theorem vote_checkState {now : Nat} (h : checkState hdr ps now st = some res)
    (hv : (PrimaryResponse.ofResult res).vote? = some v) : st.vote? = some v := by
  cases st with
  | inFlight ep round dig createdAt =>
    rw [checkState] at h
    split at h
    · cases h
    · split at h
      · cases h
      · cases h
        cases hv
  | completed ep round dig resp =>
    rw [checkState] at h
    split at h
    · exact vote_checkResponse h hv
    · split at h
      · cases h
        cases hv
      · cases h

theorem checkEquivocation_spec (cache : AuthEquivocationMap) (hdr : ProposedHeader)
    (ps : List Certificate) (now : Nat) (v : Vote) :
    ((cache.checkEquivocation hdr ps now).2.Caches v → cache.Caches v) ∧
      ∀ res, (cache.checkEquivocation hdr ps now).1 = some res →
        (PrimaryResponse.ofResult res).vote? = some v → cache.Caches v := by
  have hins : ∀ {ep round dig createdAt : Nat},
      Caches (cache.insert hdr.author (.inFlight ep round dig createdAt)) v →
        cache.Caches v := fun h => (caches_insert h).resolve_right nofun
  unfold checkEquivocation
  split
  · exact ⟨hins, nofun⟩
  · next st hget =>
    split
    · next res hres =>
      refine ⟨id, fun res' h hv => ?_⟩
      cases h
      exact ⟨hdr.author, st, hget, vote_checkState hres hv⟩
    · exact ⟨hins, nofun⟩

end AuthEquivocationMap

def VotePc.vote? : VotePc → Option Vote
  | .record vote => some vote
  | .complete result => (PrimaryResponse.ofResult result).vote?
  | .answer response => response.vote?
  | _ => none

def VoteEffect.wrote? : VoteEffect → Option Vote
  | .wrote vote => some vote
  | .answered _ => none

theorem VoteEffect.not_wrote {fx : List VoteEffect} (h : fx.filterMap wrote? = [])
    {v : Vote} : .wrote v ∉ fx := by
  intro hv
  have hmem : v ∈ fx.filterMap wrote? := mem_filterMap.mpr ⟨_, hv, rfl⟩
  rw [h] at hmem
  cases hmem

def VoteEffect.vote? : VoteEffect → Option Vote
  | .wrote _ => none
  | .answered response => response.vote?

def VoteInfo.Allows (previous : Option VoteInfo) (header : ProposedHeader) : Prop :=
  ∀ info, previous = some info → header.epoch = info.epoch ∧ info.round < header.round

theorem VoteInner.checkPrevious_spec {header : ProposedHeader} {id : Nat} {prev : Option VoteInfo} :
    (checkPrevious header id prev = .ok none → VoteInfo.Allows prev header) ∧
      ∀ v, checkPrevious header id prev = .ok (some v) →
        v = Vote.new header id ∧ prev = some v.info := by
  cases prev with
  | none => exact ⟨nofun, nofun⟩
  | some info =>
    rw [checkPrevious]
    split
    · exact ⟨nofun, nofun⟩
    · next hep =>
      split
      · exact ⟨nofun, nofun⟩
      · next hle =>
        split
        · next hrnd =>
          split
          · exact ⟨nofun, nofun⟩
          · next hdig =>
            refine ⟨nofun, fun v h => ?_⟩
            cases h
            obtain ⟨epoch, round, digest⟩ := info
            obtain rfl : header.epoch = epoch := not_not.mp hep
            obtain rfl : header.round = round := hrnd
            obtain rfl : (Vote.new header id).digest = digest := not_not.mp hdig
            exact ⟨rfl, rfl⟩
        · next hrnd =>
          refine ⟨fun _ info' h => ?_, nofun⟩
          cases h
          exact ⟨not_not.mp hep, by omega⟩

namespace VoteHandler

variable {s : VoteHandler} {v : Vote}

def Holds (s : VoteHandler) (v : Vote) : Prop :=
  (∃ task ∈ s.tasks, task.pc.vote? = some v) ∨ s.authLastVote.Caches v

theorem not_holds_new (v : Vote) : ¬ new.Holds v := by
  rintro (⟨_, h, _⟩ | ⟨a, state, h, _⟩)
  · cases h
  · have hemp : (∅ : AuthEquivocationMap)[a]? = some state := h
    cases hemp

/-- What a step does with votes. A vote that is answered, cached or about to be given was there
before, is written by the step or is the stored one. -/
structure Explained (stored : Nat → Except String (Option VoteInfo)) (s : VoteHandler)
    (event : VoteEvent) (r : List VoteEffect × VoteHandler) : Prop where
  wrote : r.1.filterMap wrote? = [] ∨ ∃ i task id previous, event = .write i none ∧
    s.tasks[i]? = some task ∧ task.pc = .write id previous ∧
      r.1 = [.wrote (Vote.new task.header id)]
  votes : ∀ v, (∃ x ∈ r.1, x.vote? = some v) ∨ r.2.Holds v →
    s.Holds v ∨ .wrote v ∈ r.1 ∨ stored v.origin = .ok (some v.info)
  writes : ∀ task ∈ r.2.tasks, ∀ id previous, task.pc = .write id previous →
    task ∈ s.tasks ∨
      stored task.header.author = .ok previous ∧ VoteInfo.Allows previous task.header

variable {std : Nat → Except String (Option VoteInfo)} {ev : VoteEvent} {i : Nat}
  {task : VoteTask} {pc : VotePc}

theorem Explained.of_wrote {r : List VoteEffect × VoteHandler} (h : Explained std s ev r)
    (hv : .wrote v ∈ r.1) : ∃ task ∈ s.tasks, ∃ id prev, task.pc = .write id prev ∧
      v = Vote.new task.header id := by
  rcases h.wrote with hnone | ⟨i, task, id, prev, -, htask, hpc, hfx⟩
  · exact absurd hv (not_wrote hnone)
  · rw [hfx] at hv
    cases mem_singleton.mp hv
    exact ⟨task, mem_of_getElem? htask, id, prev, hpc, rfl⟩

theorem Explained.refl : Explained std s ev ([], s) where
  wrote := .inl rfl
  votes v h := by
    rcases h with ⟨_, h, _⟩ | h
    · cases h
    · exact .inl h
  writes _ htask _ _ _ := .inl htask

theorem Explained.setPc {cache : AuthEquivocationMap} {fx : List VoteEffect}
    (hwrote : fx.filterMap wrote? = [] ∨ ∃ i task id prev, ev = .write i none ∧
      s.tasks[i]? = some task ∧ task.pc = .write id prev ∧ fx = [.wrote (Vote.new task.header id)])
    (hvotes : ∀ v, (∃ x ∈ fx, x.vote? = some v) ∨ pc.vote? = some v ∨ cache.Caches v →
      s.Holds v ∨ .wrote v ∈ fx ∨ std v.origin = .ok (some v.info))
    (hws : ∀ id prev, pc = .write id prev →
      std task.header.author = .ok prev ∧ VoteInfo.Allows prev task.header) :
    Explained std s ev (fx, { s.setPc i task pc with authLastVote := cache }) where
  wrote := hwrote
  votes v h := by
    rcases h with h | ⟨task', htask', hv⟩ | h
    · exact hvotes v (.inl h)
    · rcases mem_or_eq_of_mem_set htask' with hmem | rfl
      · exact .inl (.inl ⟨task', hmem, hv⟩)
      · exact hvotes v (.inr (.inl hv))
    · exact hvotes v (.inr (.inr h))
  writes task' htask' id prev hpc := by
    rcases mem_or_eq_of_mem_set htask' with hmem | rfl
    · exact .inl hmem
    · exact .inr (hws id prev hpc)

theorem Explained.silent {cache : AuthEquivocationMap}
    (hpc : ∀ v, pc.vote? = some v → s.Holds v ∨ std v.origin = .ok (some v.info))
    (hcache : ∀ v, cache.Caches v → s.Holds v) (hws : ∀ id prev, pc = .write id prev →
      std task.header.author = .ok prev ∧ VoteInfo.Allows prev task.header) :
    Explained std s ev ([], { s.setPc i task pc with authLastVote := cache }) := by
  refine .setPc (.inl rfl) (fun v h => ?_) hws
  rcases h with ⟨_, h, _⟩ | h | h
  · cases h
  · exact (hpc v h).imp_right .inr
  · exact .inl (hcache v h)

theorem Explained.move (hpc : pc.vote? = none) (hwrite : ∀ id prev, pc ≠ .write id prev) :
    Explained std s ev ([], s.setPc i task pc) := by
  refine .silent (fun v h => ?_) (fun _ => .inr) fun id prev h => absurd h (hwrite id prev)
  rw [hpc] at h
  cases h

theorem Explained.fail (e : PrimaryNetworkError) :
    Explained std s ev ([], s.setPc i task (.complete (.error e))) :=
  .move (PrimaryResponse.vote?_intoErrorRef e) nofun

theorem Explained.continueWith (res : Except PrimaryNetworkError Unit) (hpc : pc.vote? = none)
    (hwrite : ∀ id prev, pc ≠ .write id prev) :
    Explained std s ev ([], s.continueWith i task res pc) := by
  cases res with
  | ok _ => exact .move hpc hwrite
  | error e => exact .fail e

theorem Explained.cancel : Explained std s ev ([], { s.setPc i task .done with
      authLastVote := s.authLastVote.dropGuard task.header }) :=
  .silent nofun (fun _ h => .inr (caches_dropGuard h)) nofun

section
variable (cfg : VoteConfig)

theorem explained_stepTask (htask : s.tasks[i]? = some task) (hi : ev.task? = some i) :
    Explained std s ev (s.stepTask cfg std i task ev) := by
  have hheld : ∀ v, task.pc.vote? = some v → s.Holds v := fun v hv =>
    .inl ⟨task, mem_of_getElem? htask, hv⟩
  unfold stepTask
  split
  · exact .continueWith _ rfl nofun
  · split
    · exact .fail _
    · split
      · exact .move rfl nofun
      · exact .move rfl nofun
  · split
    · exact .fail _
    · exact .continueWith _ rfl nofun
  · exact .continueWith _ rfl nofun
  · exact .continueWith _ rfl nofun
  · next hpc =>
    split
    · exact .fail _
    · next id _ =>
      split
      · exact .fail _
      · next prev hstd =>
        split
        · exact .fail _
        · next vote hvote =>
          -- the vote that is stored
          obtain ⟨rfl, hprevious⟩ := checkPrevious_spec.2 _ hvote
          refine .silent (fun v h => ?_) (fun _ => .inr) nofun
          cases h
          rw [hprevious] at hstd
          exact .inr hstd
        · next hnone =>
          refine .silent nofun (fun _ => .inr) fun id' prev' h => ?_
          cases h
          exact ⟨hstd, checkPrevious_spec.1 hnone⟩
  · next id prev j fail hpc =>
    cases hi
    split
    · exact .fail _
    · refine .setPc (.inr ⟨_, task, id, prev, rfl, htask, hpc, rfl⟩) (fun v h => ?_) nofun
      · rcases h with ⟨x, h, hx⟩ | h | h
        · cases mem_singleton.mp h
          cases hx
        · cases h
          exact .inr (.inl mem_cons_self)
        · exact .inl (.inr h)
  · next vote _ fail hpc =>
    split
    · exact .fail _
    · refine .silent (fun v h => .inl (hheld v ?_)) (fun _ => .inr) nofun
      rw [hpc]
      exact h
  · next res _ hpc =>
    rw [hpc] at hheld
    refine .silent (fun v h => .inl (hheld v h)) (fun v h => ?_) nofun
    rcases caches_complete h with h | h
    · exact .inr h
    · exact hheld v h
  · next resp _ now hpc =>
    refine .setPc (.inl rfl) (fun v h => ?_) nofun
    · rcases h with ⟨x, h, hx⟩ | h | h
      · cases mem_singleton.mp h
        refine .inl (hheld v ?_)
        rw [hpc]
        exact hx
      · cases h
      · exact .inl (.inr (caches_cleanup h))
  · exact .cancel
  · exact .cancel
  · exact .cancel
  · exact .cancel
  · exact .refl

theorem explained_request (peer : Nat) (header : ProposedHeader) (ps : List Certificate)
    (now : Nat) :
    Explained std s ev (s.request cfg peer header ps now) := by
  have hrefuse : ∀ e, Explained std s ev ([.answered (.intoErrorRef e)], s) := by
    intro e
    refine ⟨.inl rfl, fun v h => ?_, fun _ htask _ _ _ => .inl htask⟩
    · rcases h with ⟨x, h, hx⟩ | h
      · rw [mem_singleton.mp h] at hx
        have hnone := (PrimaryResponse.vote?_intoErrorRef e).symm.trans hx
        cases hnone
      · exact .inl h
  unfold request
  split
  · exact hrefuse _
  · split
    · exact hrefuse _
    · have hspec := s.authLastVote.checkEquivocation_spec header ps now
      split
      · next res cache hchk =>
        rw [hchk] at hspec
        refine ⟨.inl rfl, fun v h => ?_, fun _ htask _ _ _ => .inl htask⟩
        · rcases h with ⟨x, h, hx⟩ | ⟨task, htask, hv⟩ | h
          · rw [mem_singleton.mp h] at hx
            exact .inl (.inr ((hspec v).2 res rfl hx))
          · exact .inl (.inl ⟨task, htask, hv⟩)
          · exact .inl (.inr ((hspec v).1 h))
      · next cache hchk =>
        rw [hchk] at hspec
        refine ⟨.inl rfl, fun v h => ?_, fun task htask id prev hpc => ?_⟩
        · rcases h with ⟨_, h, _⟩ | ⟨task, htask, hv⟩ | h
          · cases h
          · rcases mem_append.mp htask with hmem | hmem
            · exact .inl (.inl ⟨task, hmem, hv⟩)
            · cases mem_singleton.mp hmem
              cases hv
          · exact .inl (.inr ((hspec v).1 h))
        · rcases mem_append.mp htask with hmem | hmem
          · exact .inl hmem
          · cases mem_singleton.mp hmem
            cases hpc

theorem explained_step (std : Nat → Except String (Option VoteInfo)) (s : VoteHandler)
    (ev : VoteEvent) : Explained std s ev (s.step cfg std ev) := by
  unfold step
  split
  · exact explained_request ..
  · split
    · next htask =>
      obtain ⟨j, hj, hmap⟩ := Option.bind_eq_some_iff.mp htask
      obtain ⟨task', hget, heq⟩ := Option.map_eq_some_iff.mp hmap
      cases heq
      exact explained_stepTask cfg hget hj
    · exact .refl

end

end VoteHandler

end Axyl
