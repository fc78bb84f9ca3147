import Axyl.Primary.ProposeOnce

/-! What the proposer does with the parents that it holds: they stay with the round until a header
is made of all of them, or until the proposer moves on without them. `G` is what is known of the
parents of a round and `H` of the headers made of them. -/

namespace Axyl

def HeaderTask.Uses (G : Nat → List Certificate → Prop) (H : Header → Prop) : HeaderTask → Prop
  | .building round parents _ => ∃ r, round = r + 1 ∧ G r parents
  | .storing header | .sending header | .done header => H header
  | .failed _ _ => True

section
variable {G G' : Nat → List Certificate → Prop} {H H' : Header → Prop}

theorem HeaderTask.Uses.mono {t : HeaderTask} (h : t.Uses G H)
    (hG : ∀ r ps, G r ps → G' r ps) (hH : ∀ h, H h → H' h) : t.Uses G' H' := by
  cases t with
  | building round ps digs =>
    obtain ⟨r, hrnd, hpars⟩ := h
    exact ⟨r, hrnd, hG r ps hpars⟩
  | storing hdr | sending hdr | done hdr => exact hH hdr h
  | failed e digs => exact trivial

end

namespace Proposer

variable {cfg : ProposerConfig} {p q : Proposer} {fx : List ProposerEffect}
  {G G' : Nat → List Certificate → Prop} {H H' : Header → Prop}

/-- A proposer that stopped holds parents of any round, and uses none of them. -/
structure Uses (G : Nat → List Certificate → Prop) (H : Header → Prop) (fx : List ProposerEffect)
    (p : Proposer) : Prop where
  parents : p.ended = none → p.lastParents ≠ [] → G p.round p.lastParents
  task : ∀ t, p.pendingHeader = some t → t.Uses G H
  row : ∀ h, p.lastProposed = some h → H h
  sent : ∀ h ∈ sentHeaders fx, H h

theorem Uses.mono (h : Uses G H fx p) (hG : ∀ r parents, G r parents → G' r parents)
    (hH : ∀ h, H h → H' h) : Uses G' H' fx p where
  parents := by
    intro hend hne
    exact hG _ _ (h.parents hend hne)
  task := by
    intro t ht
    exact (h.task t ht).mono hG hH
  row := by
    intro hdr hrow
    exact hH hdr (h.row hdr hrow)
  sent := by
    intro hdr hsent
    exact hH hdr (h.sent hdr hsent)

variable {g : List ProposerEffect} {ev : ProposerEvent}

theorem Uses.keep (h : Uses G H fx p) (hsent : sentHeaders g = [])
    (hrow : q.lastProposed = p.lastProposed) (htask : ∀ t, q.pendingHeader = some t → t.Uses G H)
    (hpars : q.ended = none → q.lastParents ≠ [] → G q.round q.lastParents) :
    Uses G H (fx ++ g) q where
  parents := hpars
  task := htask
  row := by
    rw [hrow]
    exact h.row
  sent := by
    rw [sentHeaders_append, hsent, List.append_nil]
    exact h.sent

def Advances (p q : Proposer) : Prop :=
  q.ended = none → p.ended = none ∧ (q.round = p.round ∧ q.lastParents = p.lastParents ∨
    p.round < q.round ∧ q.lastParents = [])

theorem Advances.refl (p : Proposer) : p.Advances p := by
  intro h
  exact ⟨h, .inl ⟨rfl, rfl⟩⟩

theorem Advances.trans {r : Proposer} (h : p.Advances q) (h' : q.Advances r) : p.Advances r := by
  intro hr
  obtain ⟨hq, hqr⟩ := h' hr
  obtain ⟨hp, hpq⟩ := h hq
  refine ⟨hp, ?_⟩
  rcases hqr with ⟨hrnd, hpars⟩ | ⟨hrnd, hpars⟩
  · rw [hrnd, hpars]
    exact hpq
  · exact .inr ⟨by omega, hpars⟩

theorem Uses.takeParents (h : Uses G H fx p) (cs : List Certificate) (round : Nat)
    (hpars : (p.takeParents cfg cs round).lastParents ≠ [] →
      G (p.takeParents cfg cs round).round (p.takeParents cfg cs round).lastParents) :
    Uses G H (fx ++ []) (p.takeParents cfg cs round) := by
  have hstay : Uses G H (fx ++ []) p := by rwa [List.append_nil]
  unfold Proposer.takeParents at *
  split
  · dsimp only at *
    split
    · next hlat hquo =>
      rw [if_pos hlat, if_pos hquo] at hpars
      exact h.keep rfl rfl h.task fun _ => hpars
    · exact hstay
  · split
    · exact hstay
    · next hlat hearl =>
      rw [if_neg hlat, if_neg hearl] at hpars
      exact h.keep rfl rfl h.task fun _ => hpars

def bringsNoParents : ProposerEvent → Bool
  | .select (.parents _ _) _ | .restart _ => false
  | _ => true

/-- What is known of the parents and of the headers stays known in every change that brings no
parents. -/
theorem Uses.change {p₀ : Proposer} (hev : bringsNoParents ev = true)
    (hbui : ∀ r ps digs createdAt dig, G r ps → H (newHeader cfg (r + 1) ps digs createdAt dig))
    (hchg : Change cfg ev p₀ p g q) (h : Uses G H fx p) : Uses G H (fx ++ g) q ∧ p.Advances q := by
  have hstay : q.ended = none → p.ended = none := by
    refine hchg.running ?_
    rintro r rfl
    cases hev
  have hmove (hsent : sentHeaders g = []) (hrow : q.lastProposed = p.lastProposed)
      (hrnd : q.round = p.round ∧ q.lastParents = p.lastParents ∨
        p.round < q.round ∧ q.lastParents = [])
      (htask : ∀ t, q.pendingHeader = some t → t.Uses G H) :
      Uses G H (fx ++ g) q ∧ p.Advances q := by
    refine ⟨h.keep hsent hrow htask fun hq hne => ?_, fun hq => ⟨hstay hq, hrnd⟩⟩
    rcases hrnd with ⟨hrnd, hpars⟩ | ⟨-, hpars⟩
    · rw [hrnd, hpars]
      exact h.parents (hstay hq) (hpars ▸ hne)
    · exact absurd hpars hne
  cases hchg with
  | quiet hsame =>
    refine hmove rfl hsame.row (.inl ⟨hsame.round, hsame.parents⟩) ?_
    rw [hsame.task]
    exact h.task
  | acked | watched => exact hmove rfl rfl (.inl ⟨rfl, rfl⟩) h.task
  | took heq | restarted heq =>
    subst heq
    cases hev
  | noticed =>
    obtain ⟨hrow, hrnd, hpars, htask, -, -⟩ := sameFrame_processCommittedHeaders p _ _
    refine hmove (sentHeaders_processCommittedHeaders p _ _) hrow (.inl ⟨hrnd, hpars⟩) ?_
    rw [htask]
    exact h.task
  | handled =>
    obtain ⟨hrow, hrnd, hpars, htask, -, -⟩ := sameFrame_handleProposalResult cfg _ _ _
    refine hmove (sentHeaders_evictOldProposedHeaders _) hrow (.inl ⟨hrnd, hpars⟩) ?_
    rw [htask]
    exact nofun
  | gaveUp => exact hmove rfl rfl (.inl ⟨rfl, rfl⟩) nofun
  | stopped _ hidle =>
    exact ⟨h.keep rfl rfl (fun t ht => absurd (hidle.symm.trans ht) nofun) nofun, nofun⟩
  | again _ hlast =>
    refine hmove rfl rfl (.inl ⟨rfl, rfl⟩) ?_
    rintro t ⟨⟩
    exact h.row _ hlast
  | repeated _ _ hlast =>
    refine hmove rfl rfl (.inr ⟨Nat.lt_succ_self _, rfl⟩) ?_
    rintro t ⟨⟩
    exact h.row _ hlast
  | building hend _ hne =>
    refine hmove rfl rfl (.inr ⟨Nat.lt_succ_self _, rfl⟩) ?_
    rintro t ⟨⟩
    exact ⟨p.round, rfl, h.parents hend hne⟩
  | built ht =>
    refine hmove rfl rfl (.inl ⟨rfl, rfl⟩) ?_
    rintro t ⟨⟩
    obtain ⟨r, rfl, hpars⟩ := h.task _ ht
    exact hbui r _ _ _ _ hpars
  | stored ht =>
    have huses := h.task _ ht
    rw [List.append_nil]
    refine ⟨⟨h.parents, ?_, ?_, h.sent⟩, .refl p⟩
    · rintro t ⟨⟩
      exact huses
    · rintro h' ⟨⟩
      exact huses
  | sent ht =>
    have huses := h.task _ ht
    refine ⟨⟨h.parents, ?_, h.row, ?_⟩, .refl p⟩
    · rintro t ⟨⟩
      exact huses
    · intro h' hh'
      rw [sentHeaders_append] at hh'
      rcases List.mem_append.mp hh' with hh' | hh'
      · exact h.sent h' hh'
      · cases List.mem_singleton.mp hh'
        exact huses
  | failed =>
    refine hmove rfl rfl (.inl ⟨rfl, rfl⟩) ?_
    rintro t ⟨⟩
    exact trivial

theorem Uses.changes {p₀ : Proposer} (h : Uses G H fx p) (hchgs : Changes cfg ev p₀ p g q)
    (hev : bringsNoParents ev = true) (hbui : ∀ r ps digs createdAt dig, G r ps →
      H (newHeader cfg (r + 1) ps digs createdAt dig)) : Uses G H (fx ++ g) q ∧ p.Advances q := by
  refine hchgs.preserves (P := fun fx q => Uses G H fx q ∧ p.Advances q) ?_ ⟨h, .refl p⟩
  rintro fx p' g q' hchg ⟨huses, hadv⟩
  obtain ⟨huses, hlat⟩ := Uses.change hev hbui hchg huses
  exact ⟨huses, hadv.trans hlat⟩

end Proposer

end Axyl
