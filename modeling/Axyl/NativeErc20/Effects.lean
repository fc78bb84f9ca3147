import Axyl.NativeErc20.Precompile

/-! What a call of the native token does when it succeeds. -/

namespace Axyl

namespace NativeErc20
open Fallible (bind_eq_ok guard_eq_ok ite_error_eq_ok)

/-! ### Checks -/

section Checks
variable {u : Unit}

@[simp] theorem checkedAdd_eq_ok {a b c : Nat} {e : Erc20Error} :
    checkedAdd a b e = .ok c ↔ a + b ≤ maxWord ∧ c = a + b := by
  unfold checkedAdd
  split <;> simp_all [eq_comm]

@[simp] theorem checkedSub_eq_ok {a b c : Nat} {e : Erc20Error} :
    checkedSub a b e = .ok c ↔ b ≤ a ∧ c = a - b := by
  unfold checkedSub
  split <;> simp_all [eq_comm]

variable {a : Address}

@[simp] theorem checkSender_eq_ok : checkSender a = .ok u ↔ a ≠ 0 := guard_eq_ok

@[simp] theorem checkReceiver_eq_ok : checkReceiver a = .ok u ↔ a ≠ 0 := guard_eq_ok

@[simp] theorem checkBalance_eq_ok {balance needed : Nat} :
    checkBalance a balance needed = .ok u ↔ needed ≤ balance :=
  guard_eq_ok.trans Nat.not_lt

@[simp] theorem checkAllowance_eq_ok {allowance needed : Nat} {isUnlimited : Bool} :
    checkAllowance a allowance needed isUnlimited = .ok u ↔
      isUnlimited = true ∨ needed ≤ allowance := by
  rw [checkAllowance, guard_eq_ok, not_and_or, Bool.not_eq_false, Nat.not_lt]

@[simp] theorem checkSigner_eq_ok {signer : Address} :
    checkSigner a signer = .ok u ↔ signer = a :=
  guard_eq_ok.trans not_not

@[simp] theorem checkNotLeftEmpty_eq_ok {s : State} {bal : Nat} {guard : Bool} :
    s.checkNotLeftEmpty a bal guard = .ok u ↔ (guard && (s.accounts a).emptyWith bal) = false := by
  rw [State.checkNotLeftEmpty, guard_eq_ok, Bool.not_eq_true]

@[simp] theorem checkUnused_eq_ok {s : State} {nonce : Nat} :
    s.checkUnused a nonce = .ok u ↔ s.authorizations a nonce = false := by
  rw [State.checkUnused, guard_eq_ok, Bool.not_eq_true]

@[simp] theorem checkWindow_eq_ok {env : Env} {a : Authorization} :
    State.checkWindow env a = .ok u ↔
      a.validAfter ≤ env.timestamp ∧ env.timestamp < a.validBefore := by
  rw [State.checkWindow, ite_error_eq_ok, guard_eq_ok, Nat.not_lt, Nat.not_le]

end Checks

/-! ### Transfers of balance -/

namespace State
variable {s s' : State} {sender receiver : Address} {amount : Nat} {guard : Bool}

@[simp] theorem getBalance_setBalance_self (s : State) (a : Address) (v : Nat) :
    (s.setBalance a v).getBalance a = v := by
  simp [getBalance, setBalance]

theorem getBalance_setBalance_of_ne {a b : Address} (h : b ≠ a) (v : Nat) :
    (s.setBalance a v).getBalance b = s.getBalance b := by
  simp [getBalance, setBalance, h]

theorem getBalance_setBalance (s : State) (a : Address) (v : Nat) :
    (s.setBalance a v).getBalance = Function.update s.getBalance a v := by
  funext b
  by_cases hb : b = a
  · subst hb
    simp
  · rw [getBalance_setBalance_of_ne hb, Function.update_of_ne hb]

def move (s : State) (sender receiver : Address) (amount : Nat) : State :=
  let t := s.setBalance sender (s.getBalance sender - amount)
  t.setBalance receiver (t.getBalance receiver + amount)

def Debits (s : State) (sender : Address) (amount : Nat) (guard : Bool) : Prop :=
  amount ≤ s.getBalance sender ∧
    (guard && (s.accounts sender).emptyWith (s.getBalance sender - amount)) = false

theorem transferBalance_eq_ok (hne : receiver ≠ sender) :
    s.transferBalance sender receiver amount guard = .ok s' ↔
      s.Debits sender amount guard ∧ s.getBalance receiver + amount ≤ maxWord ∧
        s' = s.move sender receiver amount := by
  unfold transferBalance Debits move
  simp only [bind_eq_ok, checkBalance_eq_ok, checkedSub_eq_ok, checkNotLeftEmpty_eq_ok,
    checkedAdd_eq_ok, getBalance_setBalance_of_ne hne]
  constructor
  · rintro ⟨-, hle, v, ⟨-, rfl⟩, -, hguard, w, ⟨hfits, rfl⟩, h⟩
    cases h
    exact ⟨⟨hle, hguard⟩, hfits, rfl⟩
  · rintro ⟨⟨hle, hguard⟩, hfits, rfl⟩
    exact ⟨(), hle, _, ⟨hle, rfl⟩, (), hguard, _, ⟨hfits, rfl⟩, rfl⟩

theorem burnBalance_eq_ok : s.burnBalance sender amount guard = .ok s' ↔
      s.Debits sender amount guard ∧ amount ≤ s.totalSupply ∧
        s' = { s with totalSupply := s.totalSupply - amount }.setBalance sender
          (s.getBalance sender - amount) := by
  unfold burnBalance Debits
  simp only [bind_eq_ok, checkBalance_eq_ok, checkedSub_eq_ok, checkNotLeftEmpty_eq_ok]
  constructor
  · rintro ⟨-, hle, v, ⟨-, rfl⟩, -, hguard, w, ⟨hsup, rfl⟩, h⟩
    cases h
    exact ⟨⟨hle, hguard⟩, hsup, rfl⟩
  · rintro ⟨⟨hle, hguard⟩, hsup, rfl⟩
    exact ⟨(), hle, _, ⟨hle, rfl⟩, (), hguard, _, ⟨hsup, rfl⟩, rfl⟩

def allowanceLeft (s : State) (owner spender : Address) (amount : Nat) : State :=
  if s.allowances owner spender = maxWord then s
  else s.setAllowance owner spender (s.allowances owner spender - amount)

variable {spd : Address}

theorem decreaseAllowance_eq_ok {owner : Address} {m : Method} :
    s.decreaseAllowance owner spd amount m = .ok s' ↔
      (s.allowances owner spd = maxWord ∨ amount ≤ s.allowances owner spd) ∧
        s' = s.allowanceLeft owner spd amount := by
  unfold decreaseAllowance allowanceLeft
  split
  next h => simp [h, eq_comm]
  next h =>
    simp only [bind_eq_ok, checkedSub_eq_ok, h, false_or]
    constructor
    · rintro ⟨v, ⟨hle, rfl⟩, h⟩
      cases h
      exact ⟨hle, rfl⟩
    · rintro ⟨hle, rfl⟩
      exact ⟨_, ⟨hle, rfl⟩, rfl⟩

@[simp] theorem allowanceLeft_accounts (s : State) (owner spd : Address) (amount : Nat) :
    (s.allowanceLeft owner spd amount).accounts = s.accounts := by
  unfold allowanceLeft
  split <;> rfl

@[simp] theorem allowanceLeft_totalSupply (s : State) (owner spd : Address) (amount : Nat) :
    (s.allowanceLeft owner spd amount).totalSupply = s.totalSupply := by
  unfold allowanceLeft
  split <;> rfl

/-! ### The calls -/

variable {output : PrecompileOutput}

theorem handleTransfer_of_ok
    (h : s.handleTransfer sender receiver amount guard = .ok (output, s')) :
    (amount = 0 ∨ receiver = sender) ∧ s' = s ∨ receiver ≠ sender ∧ s.Debits sender amount guard ∧
        s.getBalance receiver + amount ≤ maxWord ∧
        s' = (s.move sender receiver amount).log (.transfer sender receiver amount) := by
  unfold handleTransfer at h
  simp only [bind_eq_ok, checkSender_eq_ok, checkReceiver_eq_ok] at h
  obtain ⟨-, -, -, -, h⟩ := h
  split at h
  next hamt =>
    cases h
    exact .inl ⟨.inl hamt, rfl⟩
  split at h
  next heq =>
    cases h
    exact .inl ⟨.inr heq.symm, rfl⟩
  next hne =>
  obtain ⟨t, ht, h⟩ := bind_eq_ok.mp h
  obtain ⟨hdeb, hfits, rfl⟩ := (transferBalance_eq_ok (Ne.symm hne)).mp ht
  cases h
  exact .inr ⟨Ne.symm hne, hdeb, hfits, rfl⟩

theorem handleTransferFrom_of_ok
    (h : s.handleTransferFrom spd sender receiver amount guard = .ok (output, s')) :
    amount = 0 ∧ s' = s ∨ (s.allowances sender spd = maxWord ∨ amount ≤ s.allowances sender spd) ∧
        (receiver = sender ∧ s' = (s.allowanceLeft sender spd amount).log
            (.transfer sender receiver amount) ∨ receiver ≠ sender ∧ s.Debits sender amount guard ∧
            s.getBalance receiver + amount ≤ maxWord ∧
            s' = ((s.move sender receiver amount).allowanceLeft sender spd amount).log
              (.transfer sender receiver amount)) := by
  unfold handleTransferFrom at h
  simp only [bind_eq_ok] at h
  obtain ⟨-, -, -, -, h⟩ := h
  split at h
  next hamt =>
    cases h
    exact .inl ⟨hamt, rfl⟩
  right
  obtain ⟨_, hallow, h⟩ := bind_eq_ok.mp h
  rw [checkAllowance_eq_ok, beq_iff_eq] at hallow
  refine ⟨hallow, ?_⟩
  split at h
  next heq =>
    obtain ⟨t, ht, h⟩ := bind_eq_ok.mp h
    obtain ⟨-, rfl⟩ := decreaseAllowance_eq_ok.mp ht
    cases h
    exact .inl ⟨heq.symm, rfl⟩
  next hne =>
    obtain ⟨t, ht, h⟩ := bind_eq_ok.mp h
    obtain ⟨t', ht', h⟩ := bind_eq_ok.mp h
    obtain ⟨hdeb, hfits, rfl⟩ := (transferBalance_eq_ok (Ne.symm hne)).mp ht
    obtain ⟨-, rfl⟩ := decreaseAllowance_eq_ok.mp ht'
    cases h
    exact .inr ⟨Ne.symm hne, hdeb, hfits, rfl⟩

inductive Effect (s s' : State) : Prop
  | same (haccounts : s'.accounts = s.accounts) (hsupply : s'.totalSupply = s.totalSupply)
  | moved (sender receiver : Address) (amount : Nat) (hne : receiver ≠ sender)
      (hle : amount ≤ s.getBalance sender)
      (haccounts : s'.accounts = (s.move sender receiver amount).accounts)
      (hsupply : s'.totalSupply = s.totalSupply)
  | minted (receiver : Address) (amount : Nat) (hfits : s.totalSupply + amount ≤ maxWord)
      (haccounts : s'.accounts =
        (s.setBalance receiver (s.getBalance receiver + amount)).accounts)
      (hsupply : s'.totalSupply = s.totalSupply + amount)
  | burned (sender : Address) (amount : Nat) (hle : amount ≤ s.getBalance sender)
      (hsupply_le : amount ≤ s.totalSupply)
      (haccounts : s'.accounts = (s.setBalance sender (s.getBalance sender - amount)).accounts)
      (hsupply : s'.totalSupply = s.totalSupply - amount)

theorem effect_transfer (h : s.handleTransfer sender receiver amount guard = .ok (output, s')) :
    Effect s s' := by
  rcases handleTransfer_of_ok h with ⟨-, rfl⟩ | ⟨hne, hdeb, -, rfl⟩
  · exact .same rfl rfl
  · exact .moved sender receiver amount hne hdeb.1 rfl rfl

theorem effect_approve {owner : Address}
    (h : s.handleApprove owner spd amount = .ok (output, s')) : Effect s s' := by
  unfold handleApprove at h
  simp only [bind_eq_ok] at h
  obtain ⟨-, -, -, -, h⟩ := h
  cases h
  exact .same rfl rfl

theorem effect_transferFrom
    (h : s.handleTransferFrom spd sender receiver amount guard = .ok (output, s')) :
    Effect s s' := by
  rcases handleTransferFrom_of_ok h with ⟨-, rfl⟩ | ⟨-, ⟨-, rfl⟩ | ⟨hne, hdeb, -, rfl⟩⟩
  · exact .same rfl rfl
  · exact .same (allowanceLeft_accounts _ _ _ _) (allowanceLeft_totalSupply _ _ _ _)
  · exact .moved sender receiver amount hne hdeb.1 (allowanceLeft_accounts _ _ _ _)
      (allowanceLeft_totalSupply _ _ _ _)

variable {caller : Address}

theorem effect_mint (h : s.handleMint caller receiver amount = .ok (output, s')) : Effect s s' := by
  unfold handleMint at h
  simp only [bind_eq_ok, checkedAdd_eq_ok] at h
  obtain ⟨-, -, -, -, -, -, supply, ⟨hfits, rfl⟩, bal, ⟨-, rfl⟩, h⟩ := h
  cases h
  exact .minted receiver amount hfits rfl rfl

theorem effect_burn (h : s.handleBurn caller amount guard = .ok (output, s')) : Effect s s' := by
  unfold handleBurn at h
  simp only [bind_eq_ok, burnBalance_eq_ok] at h
  obtain ⟨-, -, -, -, -, -, t, ⟨hdeb, hsup, rfl⟩, h⟩ := h
  cases h
  exact .burned caller amount hdeb.1 hsup rfl rfl

theorem effect_burnFrom (h : s.handleBurnFrom caller sender amount guard = .ok (output, s')) :
    Effect s s' := by
  unfold handleBurnFrom at h
  simp only [bind_eq_ok, burnBalance_eq_ok, decreaseAllowance_eq_ok] at h
  obtain ⟨-, -, -, -, -, -, -, -, t, ⟨hdeb, hsup, rfl⟩, t', ⟨-, rfl⟩, h⟩ := h
  cases h
  exact .burned sender amount hdeb.1 hsup (allowanceLeft_accounts _ _ _ _)
    (allowanceLeft_totalSupply _ _ _ _)

variable {authorizer : Address}

theorem Effect.of_marked {nonce : Nat} {e : Event}
    (h : Effect (s.markNonceUsed authorizer nonce) s') : Effect s (s'.log e) := by
  cases h with
  | same haccs hsup => exact .same haccs hsup
  | moved sender receiver amount hne hle haccs hsup =>
    exact .moved sender receiver amount hne hle haccs hsup
  | minted receiver amount hfits haccs hsup =>
    exact .minted receiver amount hfits haccs hsup
  | burned sender amount hle hsupply_le haccs hsup =>
    exact .burned sender amount hle hsupply_le haccs hsup

variable {Digest : Type} {crypto : Crypto Digest} {env : Env} {a : Authorization} {sig : Sig}

/-- What a transfer by authorization has checked, and the transfer it makes. -/
structure Authorized (s s' : State) (crypto : Crypto Digest) (env : Env) (a : Authorization)
    (sig : Sig) : Prop where
  notBefore : a.validAfter ≤ env.timestamp
  notAfter : env.timestamp < a.validBefore
  unused : s.authorizations a.sender a.nonce = false
  verified : verifyTransferAuthorization crypto a sig = .ok a.sender
  transferred : ∃ output t, (s.markNonceUsed a.sender a.nonce).handleTransfer a.sender a.receiver
    a.value env.rejectEmptyDebits = .ok (output, t) ∧
      s' = t.log (.authorizationUsed a.sender a.nonce)

theorem transferWithAuthorization_of_ok
    (h : s.handleTransferWithAuthorization crypto env a sig = .ok (output, s')) :
    Authorized s s' crypto env a sig := by
  unfold handleTransferWithAuthorization at h
  simp only [bind_eq_ok, checkWindow_eq_ok, checkUnused_eq_ok, checkSigner_eq_ok] at h
  obtain ⟨-, hwindow, -, hunused, signer, hver, -, rfl, ⟨out', t⟩, ht, h⟩ := h
  cases h
  exact ⟨hwindow.1, hwindow.2, hunused, hver, out', t, ht, rfl⟩

theorem receiveWithAuthorization_of_ok
    (h : s.handleReceiveWithAuthorization crypto env a sig = .ok (output, s')) :
    env.caller = a.receiver ∧ Authorized s s' crypto env a sig := by
  unfold handleReceiveWithAuthorization at h
  split at h
  · cases h
  -- the rest is a transfer by authorization, at the same price
  next hcaller => exact ⟨not_not.mp hcaller, transferWithAuthorization_of_ok h⟩

theorem cancelAuthorization_of_ok {nonce : Nat}
    (h : s.handleCancelAuthorization crypto authorizer nonce sig = .ok (output, s')) :
    s.authorizations authorizer nonce = false ∧
      s' = (s.markNonceUsed authorizer nonce).log (.authorizationCanceled authorizer nonce) := by
  unfold handleCancelAuthorization at h
  simp only [bind_eq_ok, checkUnused_eq_ok] at h
  obtain ⟨-, hunused, -, -, -, -, h⟩ := h
  cases h
  exact ⟨hunused, rfl⟩

theorem Authorized.effect (h : Authorized s s' crypto env a sig) : Effect s s' := by
  obtain ⟨output, t, ht, rfl⟩ := h.transferred
  exact (effect_transfer ht).of_marked

theorem effect {c : Call} (h : s.call crypto env c = .ok (output, s')) : Effect s s' := by
  cases c with
  | transfer receiver amount => exact effect_transfer h
  | approve spd amount => exact effect_approve h
  | transferFrom sender receiver amount => exact effect_transferFrom h
  | mint receiver amount => exact effect_mint h
  | burn amount => exact effect_burn h
  | burnFrom sender amount => exact effect_burnFrom h
  | transferWithAuthorization a sig => exact (transferWithAuthorization_of_ok h).effect
  | receiveWithAuthorization a sig => exact (receiveWithAuthorization_of_ok h).2.effect
  | cancelAuthorization authorizer nonce sig =>
    obtain ⟨-, rfl⟩ := cancelAuthorization_of_ok h
    exact .same rfl rfl

theorem effect_afterCall (s : State) (crypto : Crypto Digest) (env : Env) (c : Call) :
    Effect s (s.afterCall crypto env c) := by
  unfold afterCall
  split
  next h => exact effect h
  · exact .same rfl rfl

end State

end NativeErc20

end Axyl
