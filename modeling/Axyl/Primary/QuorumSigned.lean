import Axyl.Lib.Except
import Axyl.Primary.CertificateIntake
import Axyl.Primary.OneVote

/-! Every certificate that a peer sends is verified before it gets to the certificate manager. -/

namespace Axyl
open List SignedCertificate CertificateManager Fallible
open Std (ExtTreeMap ExtTreeSet)

namespace CertIntake

variable {cfg : CertConfig} {owns : SignedCertificate → Prop} {s : CertIntake}

def Good (cfg : CertConfig) (owns : SignedCertificate → Prop) (c : SignedCertificate) : Prop :=
  1 ≤ c.round → c.QuorumSigned cfg.toSigningConfig ∨ owns c

def Fits (cfg : CertConfig) (owns : SignedCertificate → Prop) (task : CertTask) : Prop :=
  ∀ c ∈ task.remaining,
    (task.source = .own → owns c) ∧ (task.source ≠ .own → c.Trusted cfg.toSigningConfig)

structure Sound (cfg : CertConfig) (owns : SignedCertificate → Prop) (s : CertIntake) : Prop where
  pending : s.manager.pending.All (Good cfg owns)
  queue : ∀ command ∈ s.queue, ∀ c ∈ command.2, Good cfg owns c
  tasks : ∀ task ∈ s.tasks, Fits cfg owns task

def Keeps (cfg : CertConfig) (owns : SignedCertificate → Prop) (r : IntakeResult) : Prop :=
  (∀ x ∈ r.1, ∀ c ∈ x.certificates, Good cfg owns c) ∧ r.2.Sound cfg owns

theorem sound_new (store : CertificateStore) (gcRound highestProcessedRound primaryRound : Nat) :
    (new store gcRound highestProcessedRound primaryRound).Sound cfg owns :=
  ⟨PendingCertificateManager.all_new, nofun, nofun⟩

section
variable (h : s.Sound cfg owns)
include h

theorem Sound.keeps : Keeps cfg owns ([], s) :=
  ⟨nofun, h⟩

theorem Sound.keeps_one {x : CertEffect} (hx : x.certificates = []) : Keeps cfg owns ([x], s) := by
  refine ⟨fun y hy c hc => ?_, h⟩
  rw [mem_singleton.mp hy, hx] at hc
  cases hc

omit h in
theorem Keeps.append {fx : List CertEffect} {r : IntakeResult}
    (hfx : ∀ x ∈ fx, ∀ c ∈ x.certificates, Good cfg owns c) (h : Keeps cfg owns r) :
    Keeps cfg owns (fx ++ r.1, r.2) := by
  refine ⟨fun x hx => ?_, h.2⟩
  rcases mem_append.mp hx with hx | hx
  · exact hfx x hx
  · exact h.1 x hx

variable {ver rem : List SignedCertificate} {src : CertSource}

theorem Sound.spawn {stage : CertStage} (hfits : Fits cfg owns ⟨src, rem, stage⟩) :
    (s.spawn src rem stage).Sound cfg owns := by
  exact { h with tasks := forall_mem_append.mpr ⟨h.tasks, forall_mem_singleton.mpr hfits⟩ }

variable {i : Nat} {task : CertTask}

theorem Sound.setTask (hfits : Fits cfg owns task) : (s.setTask i task).Sound cfg owns := by
  refine { h with tasks := fun task' htask' => ?_ }
  rcases mem_or_eq_of_mem_set htask' with hmem | rfl
  · exact h.tasks task' hmem
  · exact hfits

end

theorem fits_of_unverified (hsrc : src ≠ .own) (h : ∀ c ∈ rem, c.isVerified = false)
    (stage : CertStage) : Fits cfg owns ⟨src, rem, stage⟩ :=
  fun c hc => ⟨fun heq => absurd heq hsrc, fun _ => .of_unverified (h c hc)⟩

variable {cs : List SignedCertificate}

theorem unverified_of_mapM {received : List SignedCertificate}
    (h : cs.mapM validateReceived = .ok received) : ∀ c ∈ received, c.isVerified = false := by
  intro c hc
  obtain ⟨_, _, hrecv⟩ := exists_of_mapM h c hc
  exact (validateReceived_spec hrecv).1

theorem good_validateAndVerify {gcRound : Nat} {c d : SignedCertificate}
    (hc : c.Trusted cfg.toSigningConfig) (h : validateAndVerify cfg gcRound c = .ok d) :
    Good cfg owns d := by
  unfold validateAndVerify at h
  split at h
  · cases h
  · split at h
    · cases h
    · next hvrf =>
      cases h
      exact fun hrnd => .inl (validateAndVerify_spec hvrf hc hrnd)

variable {gcRound : Nat → Nat}

theorem good_verifyChunk {chunk : List (SignedCertificate × Nat)}
    (hchunk : ∀ e ∈ chunk, e.1.Trusted cfg.toSigningConfig)
    (h : verifyChunk cfg gcRound chunk = .ok ver) : ∀ c ∈ ver, Good cfg owns c := by
  induction chunk generalizing ver with
  | nil =>
    cases h
    exact nofun
  | cons e chunk ih =>
    obtain ⟨hcert, hchunk⟩ := forall_mem_cons.mp hchunk
    rw [verifyChunk] at h
    split at h
    · next hvrf =>
      obtain ⟨rest, hrest, h⟩ := bind_eq_ok.mp ((map_eq_pure_bind _ _).symm.trans h)
      cases h
      exact forall_mem_cons.mpr ⟨good_validateAndVerify hcert hvrf, ih hchunk hrest⟩
    · exact ih hchunk h
    · cases h

theorem mem_of_mem_chunks {α : Type} {n fuel : Nat} {xs chunk : List α} {x : α}
    (hchunk : chunk ∈ chunks n fuel xs) (hx : x ∈ chunk) : x ∈ xs := by
  induction fuel generalizing xs with
  | zero => cases hchunk
  | succ fuel ih =>
    cases xs with
    | nil => cases hchunk
    | cons y ys =>
      rcases mem_cons.mp hchunk with rfl | hchunk
      · exact mem_of_mem_take hx
      · exact mem_of_mem_drop (ih hchunk)

theorem good_verifyCollection (hcs : ∀ c ∈ cs, c.Trusted cfg.toSigningConfig)
    (h : verifyCollection cfg gcRound cs = .ok ver) : ∀ c ∈ ver, Good cfg owns c := by
  obtain ⟨groups, hgroups, h⟩ := bind_eq_ok.mp ((map_eq_pure_bind _ _).symm.trans h)
  cases h
  intro c hc
  obtain ⟨group, hgroup, hc⟩ := mem_flatten.mp hc
  obtain ⟨chunk, hchunk, hvrf⟩ := exists_of_mapM hgroups group hgroup
  refine good_verifyChunk (fun e he => hcs e.1 ?_) hvrf c hc
  exact fst_mem_of_mem_zipIdx (mem_of_mem_chunks hchunk he)

theorem good_verified (hfits : Fits cfg owns task) (h : s.verified cfg gcRound task = .ok cs) :
    ∀ c ∈ cs, Good cfg owns c := by
  obtain ⟨src, rem, stage⟩ := task
  -- one certificate from a peer
  have hsingle : ∀ {cert rest}, src ≠ .own → rem = cert :: rest →
      (fun cert => [cert]) <$> validateAndVerify cfg s.manager.gcRound cert = .ok cs →
        ∀ c ∈ cs, Good cfg owns c := by
    rintro cert rest hsrc rfl h
    obtain ⟨d, hvrf, h⟩ := bind_eq_ok.mp ((map_eq_pure_bind _ _).symm.trans h)
    cases h
    intro c hc
    cases mem_singleton.mp hc
    exact good_validateAndVerify ((hfits cert mem_cons_self).2 hsrc) hvrf
  cases src with
  | fetched => exact good_verifyCollection (fun c hc => (hfits c hc).2 nofun) h
  | own =>
    cases rem with
    | nil =>
      cases h
      exact nofun
    | cons cert rest =>
      cases h
      intro c hc _
      cases mem_singleton.mp hc
      exact .inr ((hfits cert mem_cons_self).1 rfl)
  | gossip =>
    cases rem with
    | nil =>
      cases h
      exact nofun
    | cons cert rest => exact hsingle nofun rfl h
  | parents auth =>
    cases rem with
    | nil =>
      cases h
      exact nofun
    | cons cert rest => exact hsingle nofun rfl h

section
variable (h : s.Sound cfg owns)
include h

section
variable (hfits : Fits cfg owns task)
include hfits

theorem keeps_finish (res : CertManagerResult Unit) : Keeps cfg owns (s.finish i task res) := by
  have hdone : Fits cfg owns { task with stage := .done } := hfits
  exact (h.setTask hdone).keeps_one rfl

theorem keeps_nextParent {cert : SignedCertificate} {rest : List SignedCertificate}
    (hrem : task.remaining = cert :: rest) : Keeps cfg owns (s.nextParent i task rest) := by
  unfold nextParent
  split
  · exact keeps_finish h hfits _
  · have hrest : Fits cfg owns { task with remaining := rest, stage := .check } := by
      intro c hc
      apply hfits c
      rw [hrem]
      exact mem_cons_of_mem cert hc
    exact (h.setTask hrest).keeps

theorem keeps_afterCert (res : CertManagerResult Unit) :
    Keeps cfg owns (s.afterCert i task res) := by
  unfold afterCert
  split
  · next hrem =>
    split
    · have hs : ∀ requestedParents, Sound cfg owns { s with requestedParents } :=
        fun _ => { h with }
      exact keeps_nextParent (hs _) hfits hrem
    · exact keeps_nextParent h hfits hrem
    · exact keeps_finish h hfits _
  · exact keeps_finish h hfits _

theorem keeps_checkCert (cert : SignedCertificate) (fail : Option String) :
    Keeps cfg owns (s.checkCert cfg i task cert fail) := by
  have hvrf : Fits cfg owns { task with stage := .verify } := hfits
  unfold checkCert
  split
  · exact keeps_afterCert h hfits _
  · split
    · exact keeps_afterCert h hfits _
    · split
      · exact keeps_afterCert h hfits _
      · exact (h.setTask hvrf).keeps

end

theorem keeps_forwardVerifiedCerts {highestRound : Nat} (hcs : ∀ c ∈ cs, Good cfg owns c)
    {env : ForwardEnv} {fx : List CertEffect} {res : CertManagerResult Unit} {s' : CertIntake}
    (hfwd : s.forwardVerifiedCerts cfg i highestRound cs env = (fx, res, s')) :
    Keeps cfg owns (fx, s') := by
  have hnote : (s.noteReceived highestRound env.activeCvv).Sound cfg owns := { h with }
  have hslide : ((s.noteReceived highestRound env.activeCvv).slideWindow cfg env.committedRound
      cs).Sound cfg owns := { h with }
  unfold forwardVerifiedCerts at hfwd
  dsimp only at hfwd
  generalize s.noteReceived highestRound env.activeCvv = received at hnote hslide hfwd
  have hpars : ∀ x ∈ if env.activeCvv then []
      else [CertEffect.parents (received.highestReceivedRound - 1)],
      ∀ c ∈ x.certificates, Good cfg owns c := by
    intro x hx c hc
    split at hx
    · cases hx
    · rw [mem_singleton.mp hx] at hc
      cases hc
  split at hfwd
  · cases hfwd
    exact hnote.keeps
  · split at hfwd
    · cases hfwd
      exact ⟨hpars, hslide⟩
    · cases hfwd
      refine ⟨?_, hslide.pending, ?_, hslide.tasks⟩
      · exact forall_mem_append.mpr ⟨hpars, forall_mem_singleton.mpr hcs⟩
      · exact forall_mem_append.mpr ⟨hslide.queue, forall_mem_singleton.mpr hcs⟩

theorem keeps_verifyCerts (hfits : Fits cfg owns task) (gcRound : Nat → Nat) (env : ForwardEnv) :
    Keeps cfg owns (s.verifyCerts cfg i task gcRound env) := by
  have hwait : Fits cfg owns { task with stage := .waiting } := hfits
  unfold verifyCerts
  split
  · exact keeps_afterCert h hfits _
  · next hver =>
    have hgood := good_verified hfits hver
    split
    · next hfwd =>
      have hkp := keeps_forwardVerifiedCerts h hgood hfwd
      exact (keeps_afterCert hkp.2 hfits _).append hkp.1
    · next hfwd =>
      have hkp := keeps_forwardVerifiedCerts h hgood hfwd
      exact ⟨hkp.1, hkp.2.setTask hwait⟩

theorem keeps_reply (i : Nat) (res : CertManagerResult Unit) : Keeps cfg owns (s.reply i res) := by
  unfold reply
  split
  · exact h.keeps
  · next htask => exact keeps_afterCert h (h.tasks _ (mem_of_getElem? htask)) res

theorem keeps_manage (env : ManagerEnv) : Keeps cfg owns (s.manage cfg env) := by
  unfold manage
  split
  · exact h.keeps
  · next i cs que hque =>
    have hcs : ∀ c ∈ cs, Good cfg owns c := by
      apply h.queue (i, cs)
      rw [hque]
      exact mem_cons_self
    have hque' : ∀ cmd ∈ que, ∀ c ∈ cmd.2, Good cfg owns c := by
      intro cmd hcmd
      apply h.queue cmd
      rw [hque]
      exact mem_cons_of_mem _ hcmd
    split
    · have hsnd : CertificateManager.Sound (Good cfg owns)
          (s.manager.processVerifiedCertificates cfg env cs) :=
        sound_processVerifiedCertificates h.pending hcs
      dsimp only
      split
      · refine (keeps_reply ?_ i _).append hsnd.1
        exact ⟨hsnd.2, hque', h.tasks⟩
      · refine (keeps_reply ?_ i _).append hsnd.1
        exact ⟨hsnd.2, hque', h.tasks⟩
    · refine keeps_reply ?_ i _
      exact { h with queue := hque' }

theorem keeps_collect (round comm : Nat) (activeCvv : Bool) (env : ManagerEnv) :
    Keeps cfg owns (s.collect cfg round comm activeCvv env) := by
  unfold collect
  split
  · have hpend : { s.manager with gcRound := round }.pending.All (Good cfg owns) := h.pending
    have hsnd : CertificateManager.Sound (Good cfg owns)
        ({ s.manager with gcRound := round }.processGcRound cfg env comm activeCvv) :=
      sound_processGcRound hpend
    dsimp only
    split
    · exact ⟨hsnd.1, hsnd.2, h.queue, h.tasks⟩
    · exact ⟨hsnd.1, hsnd.2, h.queue, h.tasks⟩
  · exact h.keeps

theorem keeps_processGossip (cert : SignedCertificate) (topicValid inMemory behind : Bool) :
    Keeps cfg owns (s.processGossip cfg cert topicValid inMemory behind) := by
  unfold processGossip
  split
  · exact h.keeps_one rfl
  · split
    · exact h.keeps
    · split
      · exact h.keeps_one rfl
      · next unverified _ =>
        split
        · exact h.keeps
        · next keys hkeys =>
          split
          · exact h.keeps
          · next ver hvrf =>
            have hcom : unverified.epoch = cfg.committee.epoch →
                keys = cfg.committee.blsKeys := by
              intro hep
              unfold getCommittee at hkeys
              rw [if_pos hep] at hkeys
              exact (Option.some.inj hkeys).symm
            have htrusted := (verifyCert_spec hvrf hcom).2
            split
            · exact h.keeps
            · refine (h.spawn fun c hc => ?_).keeps
              cases mem_singleton.mp hc
              exact ⟨nofun, fun _ => htrusted⟩

theorem keeps_tryAcceptUnknownCerts (auth : Nat) (ps : List SignedCertificate) :
    Keeps cfg owns (s.tryAcceptUnknownCerts auth ps) := by
  unfold tryAcceptUnknownCerts
  split
  · exact h.keeps_one rfl
  · next received hrecv =>
    dsimp only
    split
    · exact h.keeps
    · refine (h.spawn (fits_of_unverified ?_ (fun c hc => ?_) _)).keeps
      · exact nofun
      · exact unverified_of_mapM hrecv c (mem_filter.mp hc).1

theorem keeps_processFetched (cs : List SignedCertificate) :
    Keeps cfg owns (s.processFetched cfg cs) := by
  unfold processFetched
  dsimp only
  split
  · exact h.keeps_one rfl
  · split
    · exact h.keeps_one rfl
    · next hrecv =>
      refine (h.spawn (fits_of_unverified ?_ (unverified_of_mapM hrecv) _)).keeps
      exact nofun

theorem Sound.taskAt {stage : CertStage} (htask : s.taskAt i stage = some task) :
    Fits cfg owns task := by
  obtain ⟨hget, -⟩ := Option.filter_eq_some_iff.mp htask
  exact h.tasks task (mem_of_getElem? hget)

theorem keeps_step {ev : CertEvent} (hown : ∀ c, ev = .own c → owns c) :
    Keeps cfg owns (s.step cfg ev) := by
  cases ev with
  | own cert =>
    refine (h.spawn fun c hc => ?_).keeps
    cases mem_singleton.mp hc
    exact ⟨fun _ => hown cert rfl, fun hne => absurd rfl hne⟩
  | gossip cert topicValid inMemory behind => exact keeps_processGossip h ..
  | requestParents hdr unknown limit =>
    rw [step, checkForMissingParents]
    split
    · exact h.keeps_one rfl
    · have hs : ∀ requestedParents, Sound cfg owns { s with requestedParents } :=
        fun _ => { h with }
      exact (hs _).keeps_one rfl
  | parents auth ps => exact keeps_tryAcceptUnknownCerts h auth ps
  | fetched cs => exact keeps_processFetched h cs
  | check i fail =>
    rw [step]
    split
    · next htask => exact keeps_checkCert h (h.taskAt htask) _ fail
    · exact h.keeps
  | verify i gcRound env =>
    rw [step]
    split
    · next htask => exact keeps_verifyCerts h (h.taskAt htask) gcRound env
    · exact h.keeps
  | manage env => exact keeps_manage h env
  | gc round comm activeCvv env => exact keeps_collect h round comm activeCvv env
  | drain comm steps env =>
    rw [step]
    split
    · have hsnd : CertificateManager.Sound (Good cfg owns)
          (s.manager.drainPending cfg env comm steps) :=
        sound_drainPending h.pending
      exact ⟨hsnd.1, hsnd.2, h.queue, h.tasks⟩
    · exact h.keeps
  | stop => exact Sound.keeps { h with }

end

/-- Whatever the peers send, in any order and with any answers of the rest of the node: a certificate
of round one or above that is handed to the certificate manager, stored or forwarded to consensus is
signed by a quorum, or this node made it. -/
theorem only_quorum_signed (cfg : CertConfig) (store : CertificateStore)
    (gcRound highestProcessedRound primaryRound : Nat) (events : List CertEvent)
    {x : CertEffect} {c : SignedCertificate}
    (hx : x ∈ (run cfg (new store gcRound highestProcessedRound primaryRound) events).1)
    (hc : c ∈ x.certificates) (hround : 1 ≤ c.round) :
    c.QuorumSigned cfg.toSigningConfig ∨ .own c ∈ events := by
  let owns : SignedCertificate → Prop := fun c => .own c ∈ events
  have hown : Reactor.Always (step cfg) (fun _ event => ∀ c, event = .own c → owns c)
      (new store gcRound highestProcessedRound primaryRound) events := by
    refine Reactor.always_of_forall (fun event hevent _ c heq => ?_) _
    subst heq
    exact hevent
  have hrun := Reactor.run_history_of (Q := fun fx s => Keeps cfg owns (fx, s))
    (fun _ _ _ h hown => (keeps_step h.2 hown).append h.1) (sound_new store _ _ _).keeps hown
  exact hrun.1 x hx c hc hround

/-! Two members whose keys are in the other order than their identifiers. A signature is the sum of
the digest and the keys. -/

def twoKeys : KeyedCommittee where
  toCommittee := VotePrimary.twoMembers
  protocolKey id := 10 - id
  keys_nodup := by decide

def sums : CertConfig where
  committee := twoKeys
  genesisDigest author := author
  verifySecure sig digest pks := sig = digest + pks.sum
  order := ⟨ExtTreeSet.toList, fun set => List.Perm.refl _⟩
  gcDepth := 50
  otherCommitteeKeys _ := none
  certificateVerificationChunkSize := 2
  chunkSize_pos := by decide
  maxDiff := 100

def ofFirst (state : SignatureVerificationState) (signers : Bitmap) : SignedCertificate :=
  ⟨⟨⟨1, 1, 0, 0, [], [1, 2], 7⟩⟩, state, signers⟩

def bothSign : Bitmap := ⟨[0, 1], by decide⟩

def accepted : List CertEvent :=
  [.check 0 none, .verify 0 (fun _ => 0) ⟨true, 0, none, none⟩, .manage .good]

theorem only_quorum_signed_gossip :
    let cert := ofFirst (.verifiedDirectly 24) bothSign
    let r := run sums (new .empty 0 0 0) (.gossip cert true false false :: accepted)
    CertEffect.forwarded cert ∈ r.1 ∧
      (cert.QuorumSigned sums.toSigningConfig ∨
        .own cert ∈ CertEvent.gossip cert true false false :: accepted) := by
  intro cert r
  have hsent : CertEffect.forwarded cert ∈ r.1 := by decide +kernel
  exact ⟨hsent, only_quorum_signed sums .empty 0 0 0 _ hsent mem_cons_self (by decide)⟩

/-- A state that says verified is worth nothing on the wire. -/
example :
    let forged := ofFirst (.verifiedDirectly 0) bothSign
    let gossip := CertEvent.gossip forged true false false :: accepted
    let fetched := CertEvent.fetched [forged] :: accepted.drop 1
    (run sums (new .empty 0 0 0) gossip).1 = [] ∧
      (run sums (new .empty 0 0 0) fetched).1 =
        [.answered 0 (.error (.certificate .invalidSignature))] := by
  decide +kernel

end CertIntake

end Axyl
