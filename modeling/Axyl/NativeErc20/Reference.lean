import Axyl.Lib.Erc20
import Axyl.Lib.Reactor
import Axyl.NativeErc20.Effects

/-! The native token against the reference ERC-20. -/

namespace Axyl
open Reactor

namespace NativeErc20
open Fallible (bind_eq_ok)
open Erc20 (Op Token)

def Event.erc20 : Event → Option (Erc20.Event Address)
  | .transfer sender receiver value => some (.transfer sender receiver value)
  | .approval owner spender value => some (.approval owner spender value)
  | _ => none

def toCall : Op Address → Call
  | .transfer receiver amount => .transfer receiver amount
  | .approve spender amount => .approve spender amount
  | .transferFrom sender receiver amount => .transferFrom sender receiver amount

namespace State
variable {Digest : Type} {crypto : Crypto Digest} {s s' : State} {env : Env}

def token (s : State) : Token Address where
  balances := s.getBalance
  allowances := s.allowances
  logs := s.logs.filterMap Event.erc20

def step (crypto : Crypto Digest) (s : State) (input : Env × Op Address) : List Bool × State :=
  match s.call crypto input.1 (toCall input.2) with
  | .ok (_, s') => ([true], s')
  | .error _ => ([false], s)

/-- Where the debit is covered it leaves no account empty that must not be, and the credit is
still a word. -/
def Accepted (s : State) (env : Env) (sender receiver : Address) (amount : Nat) : Prop :=
  amount ≤ s.getBalance sender →
    (env.rejectEmptyDebits && (s.accounts sender).emptyWith (s.getBalance sender - amount)) = false
      ∧ s.getBalance receiver + amount ≤ maxWord

/-- The calls that take none of the ways around the standard: no zero address, no amount of
zero, no transfer to oneself without the event or the balance for it. -/
def Regular (s : State) (env : Env) : Op Address → Prop
  | .transfer receiver amount =>
    env.caller ≠ 0 ∧ receiver ≠ 0 ∧ amount ≠ 0 ∧ receiver ≠ env.caller ∧
      s.Accepted env env.caller receiver amount
  | .approve spender _ => env.caller ≠ 0 ∧ spender ≠ 0
  | .transferFrom sender receiver amount =>
    sender ≠ 0 ∧ receiver ≠ 0 ∧ amount ≠ 0 ∧
      if receiver = sender then amount ≤ s.getBalance sender
      else s.Accepted env sender receiver amount

/-! ### Single calls -/

variable {op : Op Address} {out : PrecompileOutput} {t : Token Address} {spd : Address}

theorem step_of_ok (h : s.call crypto env (toCall op) = .ok (out, s')) :
    s.step crypto (env, op) = ([true], s') := by
  unfold step
  rw [h]

theorem step_of_not_ok (h : ∀ out s', s.call crypto env (toCall op) ≠ .ok (out, s')) :
    s.step crypto (env, op) = ([false], s) := by
  unfold step
  split
  next hcall => exact absurd hcall (h _ _)
  · rfl

variable {snd rcv : Address} {amount : Nat}

theorem debits_of_accepted (h : s.Accepted env snd rcv amount) (hle : amount ≤ s.getBalance snd) :
    s.Debits snd amount env.rejectEmptyDebits ∧ s.getBalance rcv + amount ≤ maxWord :=
  ⟨⟨hle, (h hle).1⟩, (h hle).2⟩

theorem getBalance_move (s : State) (snd rcv : Address) (amount : Nat) :
    (s.move snd rcv amount).getBalance = Erc20.moved s.getBalance snd rcv amount := by
  unfold move Erc20.moved
  rw [getBalance_setBalance, getBalance_setBalance]

theorem allowances_allowanceLeft (s : State) (owner spd : Address) (amount : Nat) :
    (s.allowanceLeft owner spd amount).allowances =
      Erc20.used maxWord s.allowances owner spd amount := by
  unfold allowanceLeft Erc20.used
  split <;> rfl

theorem token_ext (hbals : s.getBalance = t.balances) (hallowances : s.allowances = t.allowances)
    (hlogs : s.logs.filterMap Event.erc20 = t.logs) : s.token = t := by
  unfold token
  rw [hbals, hallowances, hlogs]

theorem filterMap_log (s : State) (e : Event) {e' : Erc20.Event Address} (h : e.erc20 = some e') :
    (s.log e).logs.filterMap Event.erc20 = s.logs.filterMap Event.erc20 ++ [e'] := by
  unfold log
  simp [h]

theorem handleTransfer_of_debits {guard : Bool} (hsend : snd ≠ 0) (hrcv : rcv ≠ 0)
    (hamt : amount ≠ 0) (hne : rcv ≠ snd) (hdeb : s.Debits snd amount guard)
    (hfits : s.getBalance rcv + amount ≤ maxWord) : s.handleTransfer snd rcv amount guard =
      .ok (⟨gasTransfer, true⟩, (s.move snd rcv amount).log (.transfer snd rcv amount)) := by
  have hs : checkSender snd = .ok () := if_neg hsend
  have hr : checkReceiver rcv = .ok () := if_neg hrcv
  unfold handleTransfer
  rw [hs, hr, if_neg hamt, if_neg (Ne.symm hne), (transferBalance_eq_ok hne).mpr ⟨hdeb, hfits, rfl⟩]
  rfl

theorem handleApprove_of_ne {owner : Address} (amount : Nat) (howner : owner ≠ 0)
    (hspender : spd ≠ 0) : s.handleApprove owner spd amount = .ok (⟨gasApprove, true⟩,
        (s.setAllowance owner spd amount).log (.approval owner spd amount)) := by
  have ho : checkApprover owner = .ok () := if_neg howner
  have hs : checkSpender spd = .ok () := if_neg hspender
  unfold handleApprove
  rw [ho, hs]
  rfl

section TransferFrom
variable {spd snd : Address} {amt : Nat} {guard : Bool}

theorem handleTransferFrom_self (hsend : snd ≠ 0) (hamt : amt ≠ 0)
    (hallow : s.allowances snd spd = maxWord ∨ amt ≤ s.allowances snd spd) :
    s.handleTransferFrom spd snd snd amt guard = .ok (⟨gasTransferFrom, true⟩,
        (s.allowanceLeft snd spd amt).log (.transfer snd snd amt)) := by
  have hchk : checkAllowance spd (s.allowances snd spd) amt
      (s.allowances snd spd == maxWord) = .ok () := by
    rw [checkAllowance_eq_ok, beq_iff_eq]
    exact hallow
  have hs : checkSender snd = .ok () := if_neg hsend
  have hr : checkReceiver snd = .ok () := if_neg hsend
  unfold handleTransferFrom
  dsimp only
  rw [hs, hr, if_neg hamt, if_pos rfl, hchk, decreaseAllowance_eq_ok.mpr ⟨hallow, rfl⟩]
  rfl

theorem handleTransferFrom_of_debits (hsend : snd ≠ 0) (hrcv : rcv ≠ 0) (hamt : amt ≠ 0)
    (hne : rcv ≠ snd) (hallow : s.allowances snd spd = maxWord ∨ amt ≤ s.allowances snd spd)
    (hdeb : s.Debits snd amt guard) (hfits : s.getBalance rcv + amt ≤ maxWord) :
    s.handleTransferFrom spd snd rcv amt guard = .ok (⟨gasTransferFrom, true⟩,
        ((s.move snd rcv amt).allowanceLeft snd spd amt).log (.transfer snd rcv amt)) := by
  have hchk : checkAllowance spd (s.allowances snd spd) amt
      (s.allowances snd spd == maxWord) = .ok () := by
    rw [checkAllowance_eq_ok, beq_iff_eq]
    exact hallow
  have hleft : (s.move snd rcv amt).decreaseAllowance snd spd amt .transfer =
      .ok ((s.move snd rcv amt).allowanceLeft snd spd amt) :=
    decreaseAllowance_eq_ok.mpr ⟨hallow, rfl⟩
  have hs : checkSender snd = .ok () := if_neg hsend
  have hr : checkReceiver rcv = .ok () := if_neg hrcv
  unfold handleTransferFrom
  dsimp only
  rw [hs, hr, if_neg hamt, if_neg (Ne.symm hne), hchk,
    (transferBalance_eq_ok hne).mpr ⟨hdeb, hfits, rfl⟩]
  change ((s.move snd rcv amt).decreaseAllowance snd spd amt .transfer >>= _) = _
  rw [hleft]
  rfl

end TransferFrom

/-! ### Agreement of a step -/

def Agrees (crypto : Crypto Digest) (s : State) (env : Env) (op : Op Address) : Prop :=
  ((s.step crypto (env, op)).1, (s.step crypto (env, op)).2.token) =
    s.token.step maxWord (env.caller, op)

theorem agrees_of_ok (h : s.call crypto env (toCall op) = .ok (out, s'))
    (hexec : s.token.exec maxWord env.caller op = some t) (ht : s'.token = t) :
    s.Agrees crypto env op := by
  unfold Agrees Token.step
  rw [step_of_ok h, hexec, ht]

theorem agrees_of_fail (h : ∀ out s', s.call crypto env (toCall op) ≠ .ok (out, s'))
    (hexec : s.token.exec maxWord env.caller op = none) : s.Agrees crypto env op := by
  unfold Agrees Token.step
  rw [step_of_not_ok h, hexec]

theorem agrees_transfer (h : s.Regular env (.transfer rcv amount)) :
    s.Agrees crypto env (.transfer rcv amount) := by
  obtain ⟨hcaller, hrcv, hamt, hne, hacpt⟩ := h
  by_cases hle : amount ≤ s.getBalance env.caller
  · obtain ⟨hdeb, hfits⟩ := debits_of_accepted hacpt hle
    refine agrees_of_ok (handleTransfer_of_debits hcaller hrcv hamt hne hdeb hfits) (if_pos hle) ?_
    exact token_ext (getBalance_move s env.caller rcv amount) rfl (filterMap_log _ _ rfl)
  · refine agrees_of_fail ?_ (if_neg hle)
    intro out s' hcall
    rcases handleTransfer_of_ok hcall with ⟨hzero | heq, -⟩ | ⟨-, hdeb, -⟩
    · exact hamt hzero
    · exact hne heq
    · exact hle hdeb.1

theorem agrees_approve (h : s.Regular env (.approve spd amount)) :
    s.Agrees crypto env (.approve spd amount) :=
  agrees_of_ok (handleApprove_of_ne amount h.1 h.2) rfl
    (token_ext rfl rfl (filterMap_log _ _ rfl))

theorem token_allowanceLeft (t : State) (spd snd rcv : Address) (amount : Nat) :
    ((t.allowanceLeft snd spd amount).log (.transfer snd rcv amount)).token =
      { balances := t.getBalance
        allowances := Erc20.used maxWord t.allowances snd spd amount
        logs := t.token.logs ++ [.transfer snd rcv amount] } := by
  have hlogs : (t.allowanceLeft snd spd amount).logs = t.logs := by
    unfold allowanceLeft
    split <;> rfl
  refine token_ext ?_ (allowances_allowanceLeft t _ _ _) ?_
  · funext a
    exact congrArg (fun f => (f a).balance) (allowanceLeft_accounts t _ _ _)
  · rw [filterMap_log _ _ rfl, hlogs]
    rfl

theorem agrees_transferFrom_self (hsend : snd ≠ 0) (hamt : amount ≠ 0)
    (hle : amount ≤ s.getBalance snd)
    (hallow : s.allowances snd env.caller = maxWord ∨ amount ≤ s.allowances snd env.caller) :
    s.Agrees crypto env (.transferFrom snd snd amount) := by
  refine agrees_of_ok (handleTransferFrom_self hsend hamt hallow) (if_pos ⟨hle, hallow⟩) ?_
  rw [token_allowanceLeft]
  have hmoved : Erc20.moved s.token.balances snd snd amount = s.getBalance :=
    Erc20.moved_self s.getBalance snd hle
  rw [hmoved]
  rfl

theorem agrees_transferFrom_other (hsend : snd ≠ 0) (hrcv : rcv ≠ 0) (hamt : amount ≠ 0)
    (hne : rcv ≠ snd) (hacpt : s.Accepted env snd rcv amount) (hle : amount ≤ s.getBalance snd)
    (hallow : s.allowances snd env.caller = maxWord ∨ amount ≤ s.allowances snd env.caller) :
    s.Agrees crypto env (.transferFrom snd rcv amount) := by
  obtain ⟨hdeb, hfits⟩ := debits_of_accepted hacpt hle
  refine agrees_of_ok (handleTransferFrom_of_debits hsend hrcv hamt hne hallow hdeb hfits)
    (if_pos ⟨hle, hallow⟩) ?_
  rw [token_allowanceLeft, getBalance_move]
  rfl

theorem agrees_transferFrom (h : s.Regular env (.transferFrom snd rcv amount)) :
    s.Agrees crypto env (.transferFrom snd rcv amount) := by
  obtain ⟨hsend, hrcv, hamt, hacpt⟩ := h
  by_cases hcov : amount ≤ s.getBalance snd ∧
      (s.allowances snd env.caller = maxWord ∨ amount ≤ s.allowances snd env.caller)
  · split at hacpt
    next heq =>
      subst heq
      exact agrees_transferFrom_self hsend hamt hcov.1 hcov.2
    next hne =>
      exact agrees_transferFrom_other hsend hrcv hamt hne hacpt hcov.1 hcov.2
  · refine agrees_of_fail ?_ (if_neg hcov)
    intro out s' hcall
    rcases handleTransferFrom_of_ok hcall with ⟨hzero, -⟩ | ⟨hallow, hself | ⟨-, hdeb, -⟩⟩
    · exact hamt hzero
    · rw [if_pos hself.1] at hacpt
      exact hcov ⟨hacpt, hallow⟩
    · exact hcov ⟨hdeb.1, hallow⟩

theorem agrees_of_regular (h : s.Regular env op) : s.Agrees crypto env op := by
  cases op with
  | transfer rcv amount => exact agrees_transfer h
  | approve spd amount => exact agrees_approve h
  | transferFrom snd rcv amount => exact agrees_transferFrom h

/-! ### Runs -/

/-- Calls that are all regular succeed or fail as the reference does, one after the other, and
leave the same balances, allowances and events. -/
theorem run_token (crypto : Crypto Digest) (s : State) (inputs : List (Env × Op Address))
    (h : Reactor.Always (step crypto) (fun s input => s.Regular input.1 input.2) s inputs) :
    ((run (step crypto) s inputs).1, (run (step crypto) s inputs).2.token) =
      run (Token.step maxWord) s.token
        (inputs.map fun input => (input.1.caller, input.2)) := by
  induction inputs generalizing s with
  | nil => rfl
  | cons input inputs ih =>
    have hagrees : s.Agrees crypto input.1 input.2 := agrees_of_regular h.1
    have hrest := ih (s.step crypto input).2 h.2
    have hflag := congrArg Prod.fst hagrees
    have htoken := congrArg Prod.snd hagrees
    simp only [run, List.map_cons]
    rw [← hflag, ← htoken, ← hrest]

/-- Account 1 has sent transactions before, account 2 has not, and the balance of account 4 can
not grow. Every allowance is unlimited. -/
def funded : State where
  accounts a :=
    if a = 1 then { balance := 10, nonce := 1 }
    else if a = 2 then { balance := 10 }
    else if a = 4 then { balance := maxWord, nonce := 1 }
    else {}
  totalSupply := maxWord
  allowances _ _ := maxWord

def noSignatures : Crypto Unit where
  signingHash _ := ()
  recover _ _ _ _ := .error "signature error"

def regularInputs : List (Env × Op Address) :=
  [(⟨1, 0, true⟩, .approve 2 4), (⟨2, 0, true⟩, .transferFrom 1 3 3),
    (⟨3, 0, true⟩, .transfer 2 5)]

theorem run_token_regular :
    (run (step noSignatures) funded regularInputs).1 = [true, true, false] ∧
      ((run (step noSignatures) funded regularInputs).1,
          (run (step noSignatures) funded regularInputs).2.token) =
        run (Token.step maxWord) funded.token
          (regularInputs.map fun input => (input.1.caller, input.2)) := by
  refine ⟨by decide +kernel, run_token noSignatures funded regularInputs ?_⟩
  refine And.intro ⟨by decide, by decide⟩ (And.intro ?_ (And.intro ?_ trivial))
  · exact ⟨by decide, by decide, by decide, fun _ => ⟨by decide +kernel, by decide +kernel⟩⟩
  · refine ⟨by decide, by decide, by decide, by decide, fun hle => ?_⟩
    exact absurd hle (by decide +kernel)

/-- Where the native token is not the reference: no event for an amount of zero, transfers to
oneself of more than the balance, the zero address, a debit that empties an account, and a credit
that is no word. -/
theorem funded_disagrees :
    (funded.step noSignatures (⟨1, 0, true⟩, .transfer 2 0)).2.token.logs = [] ∧
      (funded.token.step maxWord (1, .transfer 2 0)).2.logs = [.transfer 1 2 0] ∧
      (funded.step noSignatures (⟨1, 0, true⟩, .transfer 1 11)).1 = [true] ∧
      (funded.token.step maxWord (1, .transfer 1 11)).1 = [false] ∧
      (funded.step noSignatures (⟨2, 0, true⟩, .transferFrom 1 1 11)).1 = [true] ∧
      (funded.token.step maxWord (2, .transferFrom 1 1 11)).1 = [false] ∧
      (funded.step noSignatures (⟨1, 0, true⟩, .transfer 0 1)).1 = [false] ∧
      (funded.token.step maxWord (1, .transfer 0 1)).1 = [true] ∧
      (funded.step noSignatures (⟨1, 0, true⟩, .transferFrom 2 3 10)).1 = [false] ∧
      (funded.token.step maxWord (1, .transferFrom 2 3 10)).1 = [true] ∧
      (funded.step noSignatures (⟨1, 0, true⟩, .transfer 4 1)).1 = [false] ∧
      (funded.token.step maxWord (1, .transfer 4 1)).1 = [true] := by
  decide +kernel

end State

end NativeErc20

end Axyl
