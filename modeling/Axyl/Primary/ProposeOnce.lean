import Axyl.Primary.ProposedHeaders

/-! When the proposer sends one header a round. -/

namespace Axyl
open List

def sentHeaders (fx : List ProposerEffect) : List Header :=
  fx.filterMap fun
    | .sent header => some header
    | _ => none

theorem sentHeaders_append (fx gx : List ProposerEffect) :
    sentHeaders (fx ++ gx) = sentHeaders fx ++ sentHeaders gx := filterMap_append

namespace Proposer

variable {cfg : ProposerConfig} {p q : Proposer} {fx : List ProposerEffect}

theorem sentHeaders_requeueBelow (p : Proposer) (reason : RequeueReason) (round : Nat) :
    sentHeaders (p.requeueBelow reason round).1 = [] := by
  rw [requeueBelow, sentHeaders, filterMap_map]
  exact filterMap_eq_nil_iff.mpr fun _ _ => rfl

theorem sentHeaders_processCommittedHeaders (p : Proposer) (commitRound : Nat) (own : List Nat) :
    sentHeaders (p.processCommittedHeaders commitRound own).1 = [] := by
  unfold processCommittedHeaders
  rw [sentHeaders_append, sentHeaders_requeueBelow, append_nil]
  refine filterMap_eq_nil_iff.mpr fun x hx => ?_
  obtain ⟨_, rfl⟩ := eq_committed_of_mem_removeCommitted hx
  rfl

theorem sentHeaders_evictOldProposedHeaders (p : Proposer) :
    sentHeaders (p.evictOldProposedHeaders cfg).1 = [] := by
  rcases evictOldProposedHeaders_cases cfg p with heq | heq <;> rw [heq]
  · rfl
  · exact sentHeaders_requeueBelow p _ _

def RowBefore (cfg : ProposerConfig) (p : Proposer) (round : Nat) : Prop :=
  ∀ last, p.lastProposed = some last → last.epoch = cfg.committee.epoch → last.round < round

instance decidableRowBefore (cfg : ProposerConfig) (p : Proposer) (round : Nat) :
    Decidable (p.RowBefore cfg round) :=
  inferInstanceAs (Decidable (∀ last ∈ p.lastProposed,
    last.epoch = cfg.committee.epoch → last.round < round))

variable {round : Nat}

theorem RowBefore.mono {round' : Nat} (h : p.RowBefore cfg round) (hle : round ≤ round') :
    p.RowBefore cfg round' :=
  fun last hlast hep => lt_of_lt_of_le (h last hlast hep) hle

def TaskOnce (cfg : ProposerConfig) (p : Proposer) : HeaderTask → Prop
  | .building round _ _ => round ≤ p.round ∧ p.RowBefore cfg round
  | .storing header => header.epoch = cfg.committee.epoch ∧
      (p.lastProposed = some header ∨ header.round ≤ p.round ∧ p.RowBefore cfg header.round)
  | .sending header => header.epoch = cfg.committee.epoch ∧ p.lastProposed = some header
  | .done _ | .failed _ _ => True

/-- Every header that was sent is the row or is of an earlier round than the row. -/
structure Once (cfg : ProposerConfig) (fx : List ProposerEffect) (p : Proposer) : Prop where
  covered : ∀ h ∈ sentHeaders fx, ∃ last, p.lastProposed = some last ∧
    last.epoch = cfg.committee.epoch ∧ (h = last ∨ h.round < last.round)
  single : ∀ h ∈ sentHeaders fx, ∀ h' ∈ sentHeaders fx, h.round = h'.round → h = h'
  parents : p.lastParents ≠ [] → p.RowBefore cfg (p.round + 2)
  task : ∀ t, p.pendingHeader = some t → p.TaskOnce cfg t

theorem TaskOnce.mono {t : HeaderTask} (h : p.TaskOnce cfg t)
    (hrow : q.lastProposed = p.lastProposed) (hrnd : p.round ≤ q.round) : q.TaskOnce cfg t := by
  unfold TaskOnce RowBefore at h ⊢
  rw [hrow]
  cases t with
  | building round _ _ => exact ⟨le_trans h.1 hrnd, h.2⟩
  | storing hdr =>
    refine ⟨h.1, h.2.imp_right fun hfre => ⟨le_trans hfre.1 hrnd, hfre.2⟩⟩
  | sending hdr => exact h
  | done _ | failed _ _ => exact trivial

theorem Once.move (h : Once cfg fx p) {g : List ProposerEffect} (hsent : sentHeaders g = [])
    (hrow : q.lastProposed = p.lastProposed)
    (hpars : q.lastParents ≠ [] → q.RowBefore cfg (q.round + 2))
    (htask : ∀ t, q.pendingHeader = some t → q.TaskOnce cfg t) : Once cfg (fx ++ g) q := by
  have hsame : sentHeaders (fx ++ g) = sentHeaders fx := by
    rw [sentHeaders_append, hsent, append_nil]
  exact
    { covered := by
        rw [hsame, hrow]
        exact h.covered
      single := by
        rw [hsame]
        exact h.single
      parents := hpars
      task := htask }

section
variable (h : Once cfg fx p)
include h

theorem Once.keep {g : List ProposerEffect} (hsent : sentHeaders g = [])
    (hrow : q.lastProposed = p.lastProposed) (hrnd : q.round = p.round)
    (hpars : q.lastParents = p.lastParents) (htask : q.pendingHeader = p.pendingHeader) :
    Once cfg (fx ++ g) q := by
  apply h.move hsent hrow
  · unfold RowBefore
    rw [hrow, hrnd, hpars]
    exact h.parents
  · rw [htask]
    exact fun t ht => (h.task t ht).mono hrow (by omega)

theorem Once.takeParents (cs : List Certificate)
    (hrow : p.round ≤ round → p.RowBefore cfg (round + 2)) :
    Once cfg (fx ++ []) (p.takeParents cfg cs round) := by
  have hstay : Once cfg (fx ++ []) p := by rwa [append_nil]
  unfold Proposer.takeParents
  split
  · next hlat =>
    dsimp only
    split
    · refine h.move rfl rfl (fun _ => hrow (by omega)) fun t ht => ?_
      exact (h.task t ht).mono rfl (le_of_lt hlat)
    · exact hstay
  · next hlat =>
    split
    · exact hstay
    · next hearl =>
      have heq : round = p.round := by omega
      refine h.move rfl rfl (fun _ => ?_) fun t ht => (h.task t ht).mono rfl (le_refl _)
      rw [heq] at hrow
      exact hrow (le_refl _)

end

/-- The row is not ahead of the round that parents are delivered for by more than one round, and a
proposer that starts from the genesis certificates finds no row beyond round one. -/
def NotBehindRow (cfg : ProposerConfig) (p : Proposer) : ProposerEvent → Prop
  | .select (.parents _ round) _ => p.round ≤ round → p.RowBefore cfg (round + 2)
  | .restart committedRound => committedRound = 0 → p.RowBefore cfg 2
  | _ => True

instance decidableNotBehindRow (cfg : ProposerConfig) (p : Proposer) :
    (event : ProposerEvent) → Decidable (NotBehindRow cfg p event)
  | .select (.parents _ _) _ | .restart _ => inferInstanceAs (Decidable (_ → _))
  | .select .shutdown _ | .select (.digest _) _ | .select (.committed _ _) _ | .select .result _
  | .select .maxTick _ | .select .minTick _ | .built _ _ | .stored _ | .sent _ | .dropped
  | .committedRound _ => isTrue trivial

theorem Once.stored (h : Once cfg fx p) {hdr : Header}
    (htask : p.pendingHeader = some (.storing hdr)) : Once cfg (fx ++ []) { p with
      lastProposed := some hdr
      pendingHeader := some (.sending hdr) } := by
  obtain ⟨hep, hfre⟩ := h.task _ htask
  rcases hfre with hrow | ⟨hrnd, hbef⟩
  · refine h.move rfl hrow.symm ?_ ?_
    · intro hpars
      rw [← hrow]
      exact h.parents hpars
    · rintro t ⟨⟩
      exact ⟨hep, rfl⟩
  · rw [append_nil]
    exact
      { covered := by
          intro h' hh'
          obtain ⟨last, hlast, hlastEpoch, hcovs⟩ := h.covered h' hh'
          have hlt := hbef last hlast hlastEpoch
          refine ⟨hdr, rfl, hep, .inr ?_⟩
          rcases hcovs with rfl | hcovs
          · exact hlt
          · omega
        single := h.single
        parents := by
          rintro - last ⟨⟩ -
          exact lt_of_le_of_lt hrnd (Nat.lt_add_of_pos_right (Nat.succ_pos 1))
        task := by
          rintro t ⟨⟩
          exact ⟨hep, rfl⟩ }

theorem Once.sent (h : Once cfg fx p) {header : Header}
    (htask : p.pendingHeader = some (.sending header)) :
    Once cfg (fx ++ [.sent header]) { p with pendingHeader := some (.done header) } := by
  obtain ⟨hep, hrow⟩ := h.task _ htask
  have hsent : sentHeaders (fx ++ [.sent header]) = sentHeaders fx ++ [header] :=
    sentHeaders_append fx _
  -- an earlier header of this round is the row, and so is the header
  have hearl : ∀ h' ∈ sentHeaders fx, h'.round = header.round → h' = header := by
    intro h' hh' heq
    obtain ⟨last, hlast, -, hcovs⟩ := h.covered h' hh'
    cases hrow.symm.trans hlast
    exact hcovs.resolve_right (by omega)
  refine ⟨?_, ?_, h.parents, ?_⟩
  · rw [hsent]
    intro h' hh'
    rcases mem_append.mp hh' with hh' | hh'
    · exact h.covered h' hh'
    · exact ⟨header, hrow, hep, .inl (mem_singleton.mp hh')⟩
  · rw [hsent]
    intro h₁ hh₁ h₂ hh₂ heq
    rcases mem_append.mp hh₁ with hh₁ | hh₁ <;> rcases mem_append.mp hh₂ with hh₂ | hh₂
    · exact h.single h₁ hh₁ h₂ hh₂ heq
    · cases mem_singleton.mp hh₂
      exact hearl h₁ hh₁ heq
    · cases mem_singleton.mp hh₁
      exact (hearl h₂ hh₂ heq.symm).symm
    · rw [mem_singleton.mp hh₁, mem_singleton.mp hh₂]
  · rintro t ⟨⟩
    exact trivial

theorem Once.restarted (h : Once cfg fx p) {committedRound : Nat}
    (hev : NotBehindRow cfg p (.restart committedRound)) :
    Once cfg (fx ++ []) (new cfg committedRound p.lastProposed) := by
  refine h.move rfl rfl (fun hpars => ?_) nofun
  by_cases hpos : 0 < committedRound
  · exact absurd (if_pos hpos) hpars
  · have hzero : committedRound = 0 := by omega
    subst hzero
    exact hev rfl

theorem Once.change {p₀ : Proposer} {ev : ProposerEvent} {gx : List ProposerEffect}
    (hev : NotBehindRow cfg p₀ ev) (hchg : Change cfg ev p₀ p gx q)
    (h : Once cfg fx p) : Once cfg (fx ++ gx) q := by
  cases hchg with
  | quiet hsame => exact h.keep rfl hsame.row hsame.round hsame.parents hsame.task
  | acked _ | watched _ => exact h.keep rfl rfl rfl rfl rfl
  | took heq =>
    subst heq
    exact h.takeParents _ hev
  | noticed =>
    obtain ⟨hrow, hrnd, hpars, htask, -, -⟩ := sameFrame_processCommittedHeaders p _ _
    exact h.keep (sentHeaders_processCommittedHeaders p _ _) hrow hrnd hpars htask
  | handled =>
    obtain ⟨hrow, hrnd, hpars, htask, -, -⟩ := sameFrame_handleProposalResult cfg _ _ _
    have htk : Once cfg fx { p with pendingHeader := none } :=
      append_nil fx ▸ h.move rfl rfl h.parents nofun
    exact htk.keep (sentHeaders_evictOldProposedHeaders _) hrow hrnd hpars htask
  | gaveUp => exact h.move rfl rfl h.parents nofun
  | stopped _ hidle hne hle =>
    -- the round moves only with parents
    refine h.move rfl rfl (fun _ => (h.parents hne).mono (Nat.add_le_add_right hle 2)) ?_
    exact fun t ht => absurd (hidle.symm.trans ht) nofun
  | again _ hlast hep =>
    refine h.move rfl rfl h.parents ?_
    rintro t ⟨⟩
    exact ⟨hep, .inl hlast⟩
  | repeated _ hne hlast hep =>
    refine h.move rfl rfl (fun hne' => absurd rfl hne') ?_
    rintro t ⟨⟩
    exact ⟨hep, .inl hlast⟩
  | building _ _ hne hfre =>
    refine h.move rfl rfl (fun hne' => absurd rfl hne') ?_
    rintro t ⟨⟩
    refine ⟨le_refl _, fun last hlast hep => ?_⟩
    have hlt := h.parents hne last hlast hep
    have hne := hfre last hlast hep
    omega
  | built ht =>
    refine h.move rfl rfl h.parents ?_
    rintro t ⟨⟩
    exact ⟨rfl, .inr (h.task _ ht)⟩
  | stored ht => exact h.stored ht
  | sent ht => exact h.sent ht
  | failed =>
    refine h.move rfl rfl h.parents ?_
    rintro t ⟨⟩
    exact trivial
  | restarted heq =>
    subst heq
    exact h.restarted hev

theorem once_new {row : Option Header} (hrow : ∀ h, row = some h → h.epoch ≠ cfg.committee.epoch)
    (committedRound : Nat) : Once cfg [] (new cfg committedRound row) :=
  { covered := nofun
    single := nofun
    parents := fun _ last hlast hep => absurd hep (hrow last hlast)
    task := nofun }

/-- All lifetimes of one epoch. -/
theorem sends_one_header_per_round (cfg : ProposerConfig) (committedRound : Nat)
    (row : Option Header) (hrow : ∀ h, row = some h → h.epoch ≠ cfg.committee.epoch)
    (events : List ProposerEvent)
    (hevents : Reactor.Always (step cfg) (NotBehindRow cfg) (new cfg committedRound row) events) :
    ∀ h ∈ sentHeaders ((new cfg committedRound row).run cfg events).1,
      ∀ h' ∈ sentHeaders ((new cfg committedRound row).run cfg events).1,
        h.epoch = h'.epoch → h.round = h'.round → h = h' := by
  have honce := Reactor.run_history_of (Q := Once cfg) (fun _ p event h hevent =>
      (changes_step p cfg event).preserves (fun _ _ _ _ hchange => .change hevent hchange) h)
    (once_new hrow committedRound) hevents
  intro h hh h' hh' _ hround
  exact honce.single h hh h' hh' hround

/-- The header of round one is sent again after the restart. -/
theorem sends_one_header_per_round_restart :
    let events := proposal 101 ++ [.restart 0, .select .maxTick calm, .stored true, .sent true]
    let sent := sentHeaders ((new firstProposer 0 none).run firstProposer events).1
    sent.map Header.digest = [101, 101] ∧
      ∀ h ∈ sent, ∀ h' ∈ sent, h.epoch = h'.epoch → h.round = h'.round → h = h' := by
  refine ⟨by decide +kernel, ?_⟩
  exact sends_one_header_per_round firstProposer 0 none nofun _ (by decide +kernel)

/-- The row is of round two when the proposer starts again from the genesis certificates, and a
second header of round one is sent. -/
theorem two_headers_of_round_one :
    let events := proposal 101 ++ [.select (.parents (certsOf 1) 1) calm] ++ proposal 102 ++
      [.restart 0] ++ proposal 103
    (sentHeaders ((new firstProposer 0 none).run firstProposer events).1).map
        (fun h => (h.epoch, h.round, h.digest)) =
      [(1, 1, 101), (1, 2, 102), (1, 1, 103)] := by decide +kernel

def Logged (p : Proposer) : Prop :=
  ∀ h, p.pendingHeader = some (.sending h) → p.lastProposed = some h

theorem Logged.change {p₀ : Proposer} {ev : ProposerEvent} (hchg : Change cfg ev p₀ p fx q)
    (h : p.Logged) : q.Logged := by
  unfold Logged at h ⊢
  cases hchg with
  | quiet hsame => rwa [hsame.row, hsame.task]
  | noticed =>
    have hsame := sameFrame_processCommittedHeaders p
    rwa [(hsame _ _).row, (hsame _ _).task]
  | handled => simp [(sameFrame_handleProposalResult cfg _ _ _).task]
  | took =>
    simp only [takeParents]
    split_ifs <;> exact h
  | acked | watched | stopped => exact h
  | _ => simp [finish, failTask, new]

/-- With restarts at any point, a header on its way to the certifier is the stored row. -/
theorem run_logged (cfg : ProposerConfig) (round : Nat) (row : Option Header)
    (events : List ProposerEvent) : ((new cfg round row).run cfg events).2.Logged := by
  refine @Reactor.run_history _ _ _ _ [] _ (fun _ => Logged) (fun fx p ev => ?_) ?_ events
  · exact @Changes.preserves _ _ _ _ _ fx _ (fun _ => Logged) (changes_step p cfg ev)
      fun _ _ _ _ => .change
  · simp [Logged, new]

end Proposer

end Axyl
