import Axyl.Primary.ProposedHeaders

/-! No digest that the proposer acknowledged is lost while it runs. -/

namespace Axyl
open List
open Std (ExtTreeMap)

def Carries (digests : List ProposerDigest) (d : Nat) : Prop := d ∈ digests.map Prod.fst

variable {d : Nat} {ys xs : List ProposerDigest}

theorem carries_append : Carries (xs ++ ys) d ↔ Carries xs d ∨ Carries ys d := by
  rw [Carries, map_append, mem_append]
  rfl

theorem Carries.mono (h : Carries xs d) (hle : ∀ e ∈ xs, e ∈ ys) : Carries ys d := by
  obtain ⟨e, he, rfl⟩ := mem_map.mp h
  exact mem_map.mpr ⟨e, hle e he, rfl⟩

theorem carries_indexMapInsert {m : List ProposerDigest} {e : ProposerDigest}
    (h : Carries m d ∨ d = e.1) : Carries (indexMapInsert m e) d := by
  unfold indexMapInsert
  split
  · next hmem =>
    have hkeys : (m.map fun x => if x.1 = e.1 then e else x).map Prod.fst = m.map Prod.fst := by
      rw [map_map]
      apply map_congr_left
      intro x _
      by_cases hx : x.1 = e.1 <;> simp [hx]
    rw [Carries, hkeys]
    rcases h with h | rfl
    · exact h
    · exact hmem
  · rw [carries_append]
    rcases h with h | rfl
    · exact .inl h
    · exact .inr (mem_singleton_self _)

theorem carries_indexMap {es : List ProposerDigest} (h : Carries es d) :
    Carries (indexMap es) d := by
  have hfold (xs m : List ProposerDigest) (h : Carries m d ∨ Carries xs d) :
      Carries (xs.foldl indexMapInsert m) d := by
    induction xs generalizing m with
    | nil => exact h.resolve_right not_mem_nil
    | cons e xs ih =>
      apply ih
      rcases h with h | h
      · exact .inl (carries_indexMapInsert (.inl h))
      · rcases mem_cons.mp h with rfl | h
        · exact .inl (carries_indexMapInsert (.inr rfl))
        · exact .inr h
  exact hfold es [] (.inr h)

def HeaderTask.header? : HeaderTask → Option Header
  | .storing header | .sending header | .done header => some header
  | .building _ _ _ | .failed _ _ => none

namespace Proposer

variable {cfg : ProposerConfig} {p q : Proposer} {created : List Header}
  {fx g : List ProposerEffect} {d : Nat}

/-- The digest is in the queue, with the task, in a tracked header that was made in this lifetime or
in a header that was reported committed while it was tracked. -/
inductive Located (created : List Header) (fx : List ProposerEffect) (p : Proposer) (d : Nat) : Prop
  | queued (h : Carries p.digests d)
  | pending (t : HeaderTask) (ht : p.pendingHeader = some t) (h : Carries t.digests d)
      (hmade : ∀ header, t.header? = some header → header ∈ created)
  | tracked (header : Header) (hmade : header ∈ created)
      (ht : p.proposedHeaders[header.round]? = some header) (h : Carries header.payload d)
  | committed (header : Header) (hx : .committed header ∈ fx) (h : Carries header.payload d)

def TaskKept (created : List Header) (p : Proposer) : HeaderTask → Prop
  | .building round _ _ => round ≤ p.round ∧ ∀ h ∈ created, h.round < round
  | .storing header => created ≠ [] → header ∈ created
  | .sending header | .done header =>
    (created ≠ [] → header ∈ created) ∧ p.lastProposed = some header
  | .failed _ _ => True

/-- `created` are the headers made in this lifetime, at most one a round. The row is one of them, so
that no header takes the place of another one under its round. -/
structure Kept (created : List Header) (fx : List ProposerEffect) (p : Proposer) : Prop where
  single : ∀ h ∈ created, ∀ h' ∈ created, h.round = h'.round → h = h'
  bound : ∀ h ∈ created, h.round ≤ p.round
  row : p.pendingHeader = none → created ≠ [] → ∃ h ∈ created, p.lastProposed = some h
  task : ∀ t, p.pendingHeader = some t → p.TaskKept created t
  located : ∀ d, .acked d ∈ fx → Located created fx p d

theorem TaskKept.mono {t : HeaderTask} (h : p.TaskKept created t)
    (hrow : q.lastProposed = p.lastProposed) (hrnd : p.round ≤ q.round) : q.TaskKept created t := by
  unfold TaskKept at h ⊢
  rw [hrow]
  cases t with
  | building round _ _ => exact ⟨le_trans h.1 hrnd, h.2⟩
  | _ => exact h

theorem Kept.move (h : Kept created fx p) (hfrm : q.lastProposed = p.lastProposed)
    (hrnd : p.round ≤ q.round) (htask : q.pendingHeader = p.pendingHeader)
    (hlocated : ∀ d, .acked d ∈ fx ++ g → Located created (fx ++ g) q d) :
    Kept created (fx ++ g) q :=
  { single := h.single
    bound := fun h' hh' => le_trans (h.bound h' hh') hrnd
    row := by
      rw [htask, hfrm]
      exact h.row
    task := by
      rw [htask]
      exact fun t ht => (h.task t ht).mono hfrm hrnd
    located := hlocated }

section
variable (h : Located created fx p d) (hdigs : ∀ e ∈ p.digests, e ∈ q.digests)
  (htask : q.pendingHeader = p.pendingHeader)
include h hdigs htask

theorem Located.retrack (htr : ∀ hdr ∈ created, p.proposedHeaders[hdr.round]? = some hdr →
      Carries hdr.payload d → Located created (fx ++ g) q d) : Located created (fx ++ g) q d := by
  cases h with
  | queued h => exact .queued (h.mono hdigs)
  | pending t ht h hmade => exact .pending t (htask.trans ht) h hmade
  | tracked hdr hmade ht h => exact htr hdr hmade ht h
  | committed hdr hx h => exact .committed hdr (mem_append_left _ hx) h

theorem Located.mono (htr : ∀ hdr : Header, p.proposedHeaders[hdr.round]? = some hdr →
      q.proposedHeaders[hdr.round]? = some hdr) : Located created (fx ++ g) q d :=
  h.retrack hdigs htask fun hdr hmade ht => .tracked hdr hmade (htr hdr ht)

end

theorem acked_of_append (hg : ∀ d, .acked d ∉ g) (h : .acked d ∈ fx ++ g) : .acked d ∈ fx :=
  (mem_append.mp h).resolve_right (hg d)

section
variable (h : Kept created fx p)
include h

theorem Kept.keep (hrow : q.lastProposed = p.lastProposed) (hrnd : p.round ≤ q.round)
    (htask : q.pendingHeader = p.pendingHeader) (hdigs : q.digests = p.digests)
    (htr : q.proposedHeaders = p.proposedHeaders) : Kept created fx q := by
  have hkept : Kept created (fx ++ []) q := by
    refine h.move hrow hrnd htask fun d hd => ?_
    refine (h.located d (acked_of_append (fun _ => not_mem_nil) hd)).mono ?_ htask ?_
    · rw [hdigs]
      exact fun _ he => he
    · rw [htr]
      exact fun _ ht => ht
  rw [append_nil] at hkept
  exact hkept

theorem Kept.requeueBelow (reason : RequeueReason) (round : Nat) :
    Kept created (fx ++ (p.requeueBelow reason round).1) (p.requeueBelow reason round).2 := by
  obtain ⟨hrow, hrnd, -, htask, -, -⟩ := sameFrame_requeueBelow p reason round
  refine h.move hrow (by omega) htask fun d hd => ?_
  have hacked : .acked d ∈ fx := by
    refine acked_of_append (fun d hx => ?_) hd
    obtain ⟨_, _, _, _, hx⟩ := mem_requeueBelow.mp hx
    cases hx
  obtain ⟨front, hdigs, hfront⟩ := digests_requeueBelow p reason round
  refine (h.located d hacked).retrack (fun e => mem_append_right _) htask fun hdr hmade ht h => ?_
  by_cases hlt : hdr.round < round
  · refine .queued (h.mono fun e he => ?_)
    rw [hdigs]
    exact mem_append_left _ (hfront _ _ hlt ht e he)
  · exact .tracked hdr hmade (getElem?_requeueBelow.mpr ⟨Nat.not_lt.mp hlt, ht⟩) h

theorem Kept.removeCommitted (rs : List Nat) :
    Kept created (fx ++ (p.removeCommitted rs).1) (p.removeCommitted rs).2 := by
  obtain ⟨hrow, hrnd, -, htask, -, -⟩ := sameFrame_removeCommitted p rs
  refine h.move hrow (by omega) htask fun d hd => ?_
  have hacked : .acked d ∈ fx := by
    refine acked_of_append (fun d hx => ?_) hd
    obtain ⟨_, hx⟩ := eq_committed_of_mem_removeCommitted hx
    cases hx
  have hque := digests_removeCommitted p rs
  refine (h.located d hacked).retrack (fun e => hque ▸ id) htask fun hdr hmade ht h => ?_
  by_cases hr : hdr.round ∈ rs
  · exact .committed hdr (mem_append_right _ (mem_removeCommitted p hr ht)) h
  · exact .tracked hdr hmade ((getElem?_removeCommitted p rs).mpr ⟨hr, ht⟩) h

theorem Kept.processCommittedHeaders (commitRound : Nat) (committedHeaders : List Nat) :
    Kept created (fx ++ (p.processCommittedHeaders commitRound committedHeaders).1)
      (p.processCommittedHeaders commitRound committedHeaders).2 := by
  unfold Proposer.processCommittedHeaders
  rw [← append_assoc]
  exact (h.removeCommitted committedHeaders).requeueBelow _ _

theorem Kept.evictOldProposedHeaders :
    Kept created (fx ++ (p.evictOldProposedHeaders cfg).1) (p.evictOldProposedHeaders cfg).2 := by
  rcases evictOldProposedHeaders_cases cfg p with heq | heq <;> rw [heq]
  · rwa [append_nil]
  · exact h.requeueBelow _ _

theorem Kept.track {header : Header} (ht : p.pendingHeader = some (.done header)) :
    Kept created fx { p with
      pendingHeader := none
      advanceRound := false
      proposedHeaders := p.proposedHeaders.insert header.round header } := by
  obtain ⟨hmade, hrow⟩ := h.task _ ht
  have hnow : (p.proposedHeaders.insert header.round header)[header.round]? = some header :=
    ExtTreeMap.getElem?_insert_self
  refine ⟨h.single, h.bound, fun _ hne => ⟨header, hmade hne, hrow⟩, nofun, fun d hd => ?_⟩
  cases h.located d hd with
  | queued h => exact .queued h
  | pending t ht' hd hmade =>
    cases ht.symm.trans ht'
    exact .tracked header (hmade header rfl) hnow hd
  | tracked other hoth hget hd =>
    by_cases hrnd : header.round = other.round
    · have heq := h.single header (hmade (ne_nil_of_mem hoth)) other hoth hrnd
      subst heq
      exact .tracked header hoth hnow hd
    · refine .tracked other hoth ?_ hd
      rw [ExtTreeMap.getElem?_insert]
      simp [hrnd, hget]
  | committed other hx h => exact .committed other hx h

theorem Kept.startTask (hidle : p.pendingHeader = none) {next : HeaderTask} {round : Nat}
    {parents : List Certificate} {digests : List ProposerDigest} (hrnd : p.round ≤ round)
    (hnext : TaskKept created { p with round } next) (hque : ∀ d, Carries p.digests d →
      Carries digests d ∨ Carries next.digests d ∧ next.header? = none) : Kept created (fx ++ [])
      { p with round, lastParents := parents, digests, pendingHeader := some next } := by
  rw [append_nil]
  refine ⟨h.single, fun h' hh' => le_trans (h.bound h' hh') hrnd, nofun, ?_, fun d hd => ?_⟩
  · rintro t ⟨⟩
    exact hnext.mono rfl (le_refl _)
  · cases h.located d hd with
    | queued hq =>
      rcases hque d hq with hq | ⟨hq, hnone⟩
      · exact .queued hq
      · exact .pending _ rfl hq fun _ hhdr => absurd (hnone.symm.trans hhdr) nofun
    | pending t ht => exact absurd (hidle.symm.trans ht) nofun
    | tracked other hmade ht hd => exact .tracked other hmade ht hd
    | committed other hx hd => exact .committed other hx hd

theorem Kept.takeParents (cs : List Certificate) (round : Nat) :
    Kept created (fx ++ []) (p.takeParents cfg cs round) := by
  rw [append_nil]
  unfold Proposer.takeParents
  split
  · next hlat =>
    dsimp only
    split
    · exact h.keep rfl (le_of_lt hlat) rfl rfl rfl
    · exact h
  · split
    · exact h
    · exact h.keep rfl (le_refl _) rfl rfl rfl

theorem Kept.pushDigest (e : ProposerDigest) :
    Kept created (fx ++ [.acked e.1]) (p.pushDigest e) := by
  refine h.move rfl (le_refl _) rfl fun d hd => ?_
  rcases mem_append.mp hd with hd | hd
  · exact (h.located d hd).mono (fun _ he => mem_append_left _ he) rfl fun _ ht => ht
  · cases mem_singleton.mp hd
    exact .queued (carries_append.mpr (.inr (mem_singleton_self _)))

end

variable {task : HeaderTask}

theorem Kept.nextTask (h : Kept created fx p) {next : HeaderTask} {made : List Header}
    {row : Option Header} (ht : p.pendingHeader = some task) (hmade : ∀ hdr ∈ created, hdr ∈ made)
    (hsingle : ∀ h ∈ made, ∀ h' ∈ made, h.round = h'.round → h = h')
    (hbnd : ∀ h ∈ made, h.round ≤ p.round) (hg : ∀ d, .acked d ∉ g)
    (hdigs : ∀ d, Carries task.digests d → Carries next.digests d)
    (hhdr : (∀ hdr, task.header? = some hdr → hdr ∈ created) →
      ∀ hdr, next.header? = some hdr → hdr ∈ made)
    (hnext : TaskKept made { p with lastProposed := row } next) :
    Kept made (fx ++ g) { p with lastProposed := row, pendingHeader := some next } := by
  refine ⟨hsingle, hbnd, nofun, ?_, fun d hd => ?_⟩
  · rintro t ⟨⟩
    exact hnext.mono rfl (le_refl _)
  · cases h.located d (acked_of_append hg hd) with
    | queued hq => exact .queued hq
    | pending t ht' hd hin =>
      cases ht.symm.trans ht'
      exact .pending next rfl (hdigs d hd) (hhdr hin)
    | tracked hdr hin hget hd => exact .tracked hdr (hmade hdr hin) hget hd
    | committed hdr hx hd => exact .committed hdr (mem_append_left _ hx) hd

theorem Kept.built (h : Kept created fx p) {round createdAt dig : Nat} {ps : List Certificate}
    {digs : List ProposerDigest} (ht : p.pendingHeader = some (.building round ps digs)) :
    let hdr := newHeader cfg round ps digs createdAt dig
    Kept (hdr :: created) (fx ++ []) { p with pendingHeader := some (.storing hdr) } := by
  intro hdr
  obtain ⟨hrnd, hbel⟩ := h.task _ ht
  refine h.nextTask ht (fun _ hin => mem_cons_of_mem _ hin) ?_ ?_ (fun _ => not_mem_nil)
    (fun _ hd => carries_indexMap hd) ?_ fun _ => mem_cons_self
  · intro a ha b hb heq
    rcases mem_cons.mp ha with rfl | ha <;> rcases mem_cons.mp hb with rfl | hb
    · rfl
    · exact absurd heq (ne_of_gt (hbel b hb))
    · exact absurd heq (ne_of_lt (hbel a ha))
    · exact h.single a ha b hb heq
  · intro a ha
    rcases mem_cons.mp ha with rfl | ha
    · exact hrnd
    · exact h.bound a ha
  · rintro - a ⟨⟩
    exact mem_cons_self

def Keeps (fx : List ProposerEffect) (p : Proposer) : Prop :=
  p.ended = none → ∃ created, Kept created fx p

theorem Keeps.change {p₀ : Proposer} {event : ProposerEvent} (hev : ∀ r, event ≠ .restart r)
    (hchg : Change cfg event p₀ p g q) (h : Keeps fx p) : Keeps (fx ++ g) q := by
  intro hend
  obtain ⟨created, hkept⟩ := h (hchg.running hev hend)
  have happ : fx ++ [] = fx := append_nil fx
  -- the row is the header that is proposed again
  have hrow {header : Header} (hidle : p.pendingHeader = none)
      (hlast : p.lastProposed = some header) (hne : created ≠ []) : header ∈ created := by
    obtain ⟨made, hmade, hrow⟩ := hkept.row hidle hne
    cases hrow.symm.trans hlast
    exact hmade
  cases hchg with
  | quiet hsame =>
    rw [happ]
    exact ⟨created, hkept.keep hsame.row (le_of_eq hsame.round.symm) hsame.task hsame.digests
      hsame.headers⟩
  | acked _ d => exact ⟨created, hkept.pushDigest d⟩
  | took => exact ⟨created, hkept.takeParents _ _⟩
  | noticed => exact ⟨created, hkept.processCommittedHeaders _ _⟩
  | handled _ ht => exact ⟨created, (hkept.track ht).evictOldProposedHeaders⟩
  | gaveUp | stopped => cases hend
  | again hidle hlast =>
    exact ⟨created, hkept.startTask hidle (le_refl _) (hrow hidle hlast) fun _ => .inl⟩
  | repeated hidle _ hlast =>
    exact ⟨created, hkept.startTask hidle (Nat.le_succ _) (hrow hidle hlast) fun _ => .inl⟩
  | building _ hidle =>
    refine ⟨created, hkept.startTask hidle (Nat.le_succ _) ⟨le_refl _, fun h' hh' => ?_⟩ ?_⟩
    · exact Nat.lt_succ_of_le (hkept.bound h' hh')
    · intro d hd
      rw [← take_append_drop cfg.maxHeaderNumOfBatches p.digests, carries_append] at hd
      exact hd.symm.imp_right fun hd => ⟨hd, rfl⟩
  | built ht => exact ⟨_, hkept.built ht⟩
  | stored ht =>
    exact ⟨created, hkept.nextTask ht (fun _ hin => hin) hkept.single hkept.bound
      (fun _ => not_mem_nil) (fun _ hd => hd) (fun hin => hin) ⟨hkept.task _ ht, rfl⟩⟩
  | sent ht =>
    exact ⟨created, hkept.nextTask ht (fun _ hin => hin) hkept.single hkept.bound (by simp)
      (fun _ hd => hd) (fun hin => hin) (hkept.task (.sending _) ht)⟩
  | failed ht =>
    exact ⟨created, hkept.nextTask ht (fun _ hin => hin) hkept.single hkept.bound
      (fun _ => not_mem_nil) (fun _ hd => hd) nofun trivial⟩
  | watched =>
    rw [happ]
    exact ⟨created, hkept.keep rfl (le_refl _) rfl rfl rfl⟩
  | restarted heq => exact absurd heq (hev _)

theorem kept_new (cfg : ProposerConfig) (round : Nat) (row : Option Header) :
    Kept [] [] (new cfg round row) :=
  ⟨nofun, nofun, fun _ hne => absurd rfl hne, nofun, nofun⟩

inductive Accounted (fx : List ProposerEffect) (p : Proposer) (d : Nat) : Prop
  | queued (h : Carries p.digests d)
  | building (t : HeaderTask) (ht : p.pendingHeader = some t) (h : Carries t.digests d)
  | proposed (round : Nat) (header : Header) (ht : p.proposedHeaders[round]? = some header)
      (h : Carries header.payload d)
  | committed (header : Header) (hx : .committed header ∈ fx) (h : Carries header.payload d)

theorem Located.accounted (h : Located created fx p d) : Accounted fx p d := by
  cases h with
  | queued h => exact .queued h
  | pending t ht h _ => exact .building t ht h
  | tracked hdr _ ht h => exact .proposed hdr.round hdr ht h
  | committed hdr hx h => exact .committed hdr hx h

/-- One lifetime: the events hold no restart. -/
theorem acknowledged_digest_accounted (cfg : ProposerConfig) (committedRound : Nat)
    (row : Option Header) (events : List ProposerEvent)
    (hlifetime : ∀ r, ProposerEvent.restart r ∉ events) (d : Nat)
    (hrunning : ((new cfg committedRound row).run cfg events).2.ended = none)
    (hacked : .acked d ∈ ((new cfg committedRound row).run cfg events).1) :
    Accounted ((new cfg committedRound row).run cfg events).1
      ((new cfg committedRound row).run cfg events).2 d := by
  have halways : Reactor.Always (step cfg) (fun _ event => ∀ r, event ≠ .restart r)
      (new cfg committedRound row) events := by
    refine Reactor.always_of_forall (fun event hevent _ r heq => ?_) _
    exact hlifetime r (heq ▸ hevent)
  have hstart : Keeps [] (new cfg committedRound row) :=
    fun _ => ⟨[], kept_new cfg committedRound row⟩
  obtain ⟨created, hkept⟩ := Reactor.run_history_of (Q := Keeps) (fun _ p event h hevent =>
      (changes_step p cfg event).preserves (fun _ _ _ _ hchange => .change hevent hchange) h)
    hstart halways hrunning
  exact (hkept.located d hacked).accounted

def missedCommit : List ProposerEvent :=
  [.select (.digest (7, 0)) calm, .built 101 101, .stored true, .sent true, .select .result calm,
    .select (.committed 6 []) calm]

theorem acknowledged_digest_accounted_missed :
    let r := (new firstProposer 0 none).run firstProposer missedCommit
    r.2.ended = none ∧ r.2.digests = [(7, 0)] ∧ .acked 7 ∈ r.1 ∧ Accounted r.1 r.2 7 := by
  refine ⟨by decide +kernel, by decide +kernel, by decide +kernel, ?_⟩
  refine acknowledged_digest_accounted firstProposer 0 none missedCommit ?_ 7 (by decide +kernel)
    (by decide +kernel)
  intro r hr
  simp [missedCommit] at hr

end Proposer

end Axyl
