import Axyl.Lib.Except
import Axyl.Types.Address
import Mathlib.Logic.Function.Basic

/-! The native token as an ERC-20: the precompile at address 0x0400. Balances are those of the
accounts; the supply, the allowances and the used authorizations are in its storage. -/

namespace Axyl
open Function

namespace NativeErc20

def maxWord : Nat :=
  115792089237316195423570985008687907853269984665640564039457584007913129639935

def mintingModuleAddress : Address := 0x07e17e17e17e17e17e17e17e17e17e17e17e17e6

def gasTransfer : Nat := 9000
def gasApprove : Nat := 5000
def gasTransferFrom : Nat := 12000
def gasMint : Nat := 10000
def gasBurn : Nat := 10000
def gasTransferWithAuthorization : Nat := 35000
def gasReceiveWithAuthorization : Nat := 35000
def gasCancelAuthorization : Nat := 25000

inductive Erc20Error where
  | invalidSender (address : Address)
  | invalidReceiver (address : Address)
  | insufficientBalance (sender : Address) (balance needed : Nat)
  | invalidApprover (address : Address)
  | invalidSpender (address : Address)
  | insufficientAllowance (spender : Address) (allowance needed : Nat)
  | notWhitelisted (caller : Address)
  | other (message : String)
  | transferWouldEmptyAccount (account : Address)
  | authorizationNotYetValid (validAfter currentTime : Nat)
  | authorizationExpired (validBefore currentTime : Nat)
  | authorizationAlreadyUsed (nonce : Nat)
  | invalidAuthorizer (sender signer : Address)
  | callerNotReceiver (caller receiver : Address)
  | signatureMalleability
deriving DecidableEq, Repr

abbrev Erc20M := Except Erc20Error

inductive Resource where
  | allowance
  | totalSupply
  | balance
deriving DecidableEq, Repr

def Resource.display : Resource → String
  | .allowance => "Allowance"
  | .totalSupply => "TotalSupply"
  | .balance => "Balance"

inductive Method where
  | transfer
  | mint
  | burn
deriving DecidableEq, Repr

def Method.display : Method → String
  | .transfer => "Transfer"
  | .mint => "Mint"
  | .burn => "Burn"

def overflowError (resource : Resource) (method : Method) : Erc20Error :=
  .other (resource.display ++ " overflow during " ++ method.display)

def zeroAmountError (method : Method) : Erc20Error :=
  .other ("Cannot " ++ method.display ++ " zero amount")

inductive Event where
  | transfer (sender receiver : Address) (value : Nat)
  | approval (owner spender : Address) (value : Nat)
  | mint (receiver : Address) (value : Nat)
  | burn (sender : Address) (value : Nat)
  | authorizationUsed (authorizer : Address) (nonce : Nat)
  | authorizationCanceled (authorizer : Address) (nonce : Nat)
deriving DecidableEq, Repr

structure Account where
  balance : Nat := 0
  nonce : Nat := 0
  hasCode : Bool := false
deriving DecidableEq, Repr

def Account.emptyWith (account : Account) (balance : Nat) : Bool :=
  balance == 0 && account.nonce == 0 && !account.hasCode

/-- The accounts, the storage of the precompile by its slots, which are hashes and taken as
distinct, and the events logged so far. Reads and writes of the database do not fail here: where
one does, the call fails and leaves no change. -/
structure State where
  accounts : Address → Account := fun _ => {}
  totalSupply : Nat := 0
  allowances : Address → Address → Nat := fun _ _ => 0
  authorizations : Address → Nat → Bool := fun _ _ => false
  logs : List Event := []

structure PrecompileOutput where
  gasUsed : Nat
  value : Bool
deriving DecidableEq, Repr

abbrev PrecompileResult := Erc20M (PrecompileOutput × State)

def checkedAdd (a b : Nat) (e : Erc20Error) : Erc20M Nat :=
  if a + b ≤ maxWord then .ok (a + b) else .error e

def checkedSub (a b : Nat) (e : Erc20Error) : Erc20M Nat :=
  if b ≤ a then .ok (a - b) else .error e

def checkApprover (approver : Address) : Erc20M Unit :=
  if approver = 0 then .error (.invalidApprover 0) else .ok ()

def checkSpender (spender : Address) : Erc20M Unit :=
  if spender = 0 then .error (.invalidSpender 0) else .ok ()

def checkSender (sender : Address) : Erc20M Unit :=
  if sender = 0 then .error (.invalidSender 0) else .ok ()

def checkReceiver (receiver : Address) : Erc20M Unit :=
  if receiver = 0 then .error (.invalidReceiver 0) else .ok ()

def checkWhitelist (caller : Address) : Erc20M Unit :=
  if caller ≠ mintingModuleAddress then .error (.notWhitelisted caller) else .ok ()

def checkBalance (sender : Address) (balance needed : Nat) : Erc20M Unit :=
  if balance < needed then .error (.insufficientBalance sender balance needed) else .ok ()

def checkAllowance (spender : Address) (allowance needed : Nat) (isUnlimited : Bool) :
    Erc20M Unit :=
  if isUnlimited = false ∧ allowance < needed then
    .error (.insufficientAllowance spender allowance needed)
  else .ok ()

def checkNonZero (method : Method) (amount : Nat) : Erc20M Unit :=
  if amount = 0 then .error (zeroAmountError method) else .ok ()

namespace State

def getBalance (s : State) (a : Address) : Nat := (s.accounts a).balance

def setBalance (s : State) (a : Address) (balance : Nat) : State :=
  { s with accounts := update s.accounts a { s.accounts a with balance } }

def setAllowance (s : State) (owner spender : Address) (amount : Nat) : State :=
  { s with allowances :=
      update s.allowances owner (update (s.allowances owner) spender amount) }

def markNonceUsed (s : State) (authorizer : Address) (nonce : Nat) : State :=
  let used := update (s.authorizations authorizer) nonce true
  { s with authorizations := update s.authorizations authorizer used }

def log (s : State) (e : Event) : State := { s with logs := s.logs ++ [e] }

def checkNotLeftEmpty (s : State) (account : Address) (newBalance : Nat)
    (rejectEmptyDebits : Bool) : Erc20M Unit :=
  if rejectEmptyDebits && (s.accounts account).emptyWith newBalance then
    .error (.transferWouldEmptyAccount account)
  else .ok ()

def transferBalance (s : State) (sender receiver : Address) (amount : Nat)
    (rejectEmptyDebits : Bool) : Erc20M State := do
  let balance := s.getBalance sender
  checkBalance sender balance amount
  let newBalance ← checkedSub balance amount (overflowError .balance .transfer)
  s.checkNotLeftEmpty sender newBalance rejectEmptyDebits
  let s := s.setBalance sender newBalance
  let newBalance ← checkedAdd (s.getBalance receiver) amount (overflowError .balance .transfer)
  return s.setBalance receiver newBalance

/-! ### The ERC-20 calls -/

def handleTransfer (s : State) (sender receiver : Address) (amount : Nat)
    (rejectEmptyDebits : Bool) : PrecompileResult := do
  checkSender sender
  checkReceiver receiver
  if amount = 0 then return (⟨gasTransfer, true⟩, s)
  else if sender = receiver then return (⟨gasTransfer, true⟩, s)
  else
    let s ← s.transferBalance sender receiver amount rejectEmptyDebits
    return (⟨gasTransfer, true⟩, s.log (.transfer sender receiver amount))

def handleApprove (s : State) (owner spender : Address) (amount : Nat) : PrecompileResult := do
  checkApprover owner
  checkSpender spender
  return (⟨gasApprove, true⟩,
    (s.setAllowance owner spender amount).log (.approval owner spender amount))

def decreaseAllowance (s : State) (owner spender : Address) (amount : Nat) (method : Method) :
    Erc20M State :=
  if s.allowances owner spender = maxWord then .ok s
  else do
    let allowance ←
      checkedSub (s.allowances owner spender) amount (overflowError .allowance method)
    return s.setAllowance owner spender allowance

def handleTransferFrom (s : State) (spender sender receiver : Address) (amount : Nat)
    (rejectEmptyDebits : Bool) : PrecompileResult := do
  checkSender sender
  checkReceiver receiver
  if amount = 0 then return (⟨gasTransferFrom, true⟩, s)
  else
    let allowance := s.allowances sender spender
    checkAllowance spender allowance amount (allowance == maxWord)
    if sender = receiver then
      let s ← s.decreaseAllowance sender spender amount .transfer
      return (⟨gasTransferFrom, true⟩, s.log (.transfer sender receiver amount))
    else
      let s ← s.transferBalance sender receiver amount rejectEmptyDebits
      let s ← s.decreaseAllowance sender spender amount .transfer
      return (⟨gasTransferFrom, true⟩, s.log (.transfer sender receiver amount))

/-! ### Minting and burning -/

def handleMint (s : State) (caller receiver : Address) (amount : Nat) : PrecompileResult := do
  checkWhitelist caller
  checkReceiver receiver
  checkNonZero .mint amount
  let totalSupply ← checkedAdd s.totalSupply amount (overflowError .totalSupply .mint)
  let s := { s with totalSupply }
  let balance ← checkedAdd (s.getBalance receiver) amount (overflowError .balance .mint)
  let s := s.setBalance receiver balance
  return (⟨gasMint, true⟩, (s.log (.mint receiver amount)).log (.transfer 0 receiver amount))

def burnBalance (s : State) (sender : Address) (amount : Nat) (rejectEmptyDebits : Bool) :
    Erc20M State := do
  let balance := s.getBalance sender
  checkBalance sender balance amount
  let newBalance ← checkedSub balance amount (overflowError .balance .burn)
  s.checkNotLeftEmpty sender newBalance rejectEmptyDebits
  let totalSupply ← checkedSub s.totalSupply amount (overflowError .totalSupply .burn)
  return { s with totalSupply }.setBalance sender newBalance

def logBurn (s : State) (sender : Address) (amount : Nat) : State :=
  (s.log (.burn sender amount)).log (.transfer sender 0 amount)

def handleBurn (s : State) (caller : Address) (amount : Nat) (rejectEmptyDebits : Bool) :
    PrecompileResult := do
  checkWhitelist caller
  checkSender caller
  checkNonZero .burn amount
  let s ← s.burnBalance caller amount rejectEmptyDebits
  return (⟨gasBurn, true⟩, s.logBurn caller amount)

def handleBurnFrom (s : State) (caller sender : Address) (amount : Nat)
    (rejectEmptyDebits : Bool) : PrecompileResult := do
  checkWhitelist caller
  checkSender sender
  checkNonZero .burn amount
  let allowance := s.allowances sender caller
  checkAllowance caller allowance amount (allowance == maxWord)
  let s ← s.burnBalance sender amount rejectEmptyDebits
  let s ← s.decreaseAllowance sender caller amount .burn
  return (⟨gasBurn, true⟩, s.logBurn sender amount)

end State

/-! ### Authorizations -/

structure Authorization where
  sender : Address
  receiver : Address
  value : Nat
  validAfter : Nat
  validBefore : Nat
  nonce : Nat
deriving DecidableEq, Repr

inductive TypedData where
  | transferWithAuthorization (a : Authorization)
  | receiveWithAuthorization (a : Authorization)
  | cancelAuthorization (authorizer : Address) (nonce : Nat)
deriving DecidableEq, Repr

structure Sig where
  v : Nat
  r : Nat
  s : Nat
deriving DecidableEq, Repr

/-- Hashing of typed data in the domain of the precompile, and recovery of the signer from a
digest, the parity and the scalars of a signature. -/
structure Crypto (Digest : Type) where
  signingHash : TypedData → Digest
  recover : Digest → Bool → Nat → Nat → Except String Address

def secp256k1nHalf : Nat := 0x7FFFFFFFFFFFFFFFFFFFFFFFFFFFFFFEBAAEDCE6AF48A03BBFD25E8CD0364140

def yParity (v : Nat) : Erc20M Bool :=
  if v = 27 ∨ v = 0 then .ok false
  else if v = 28 ∨ v = 1 then .ok true
  else .error (.other "Invalid signature")

variable {Digest : Type}

def recoverSigner (crypto : Crypto Digest) (hash : Digest) (sig : Sig) : Erc20M Address := do
  let parity ← yParity sig.v
  if secp256k1nHalf < sig.s then .error .signatureMalleability
  else
    match crypto.recover hash parity sig.r sig.s with
    | .ok signer => .ok signer
    | .error message => .error (.other message)

def verifyTransferAuthorization (crypto : Crypto Digest) (a : Authorization)
    (sig : Sig) : Erc20M Address :=
  recoverSigner crypto (crypto.signingHash (.transferWithAuthorization a)) sig

def verifyCancelAuthorization (crypto : Crypto Digest) (authorizer : Address)
    (nonce : Nat) (sig : Sig) : Erc20M Address :=
  recoverSigner crypto (crypto.signingHash (.cancelAuthorization authorizer nonce)) sig

def checkSigner (sender signer : Address) : Erc20M Unit :=
  if signer ≠ sender then .error (.invalidAuthorizer sender signer) else .ok ()

/-- The account that calls, the time of the block and whether the guard against debits that
leave an account empty is active in it. -/
structure Env where
  caller : Address
  timestamp : Nat
  rejectEmptyDebits : Bool
deriving DecidableEq, Repr

namespace State

def checkUnused (s : State) (authorizer : Address) (nonce : Nat) : Erc20M Unit :=
  if s.authorizations authorizer nonce then .error (.authorizationAlreadyUsed nonce) else .ok ()

def checkWindow (env : Env) (a : Authorization) : Erc20M Unit :=
  if env.timestamp < a.validAfter then
    .error (.authorizationNotYetValid a.validAfter env.timestamp)
  else if a.validBefore ≤ env.timestamp then
    .error (.authorizationExpired a.validBefore env.timestamp)
  else .ok ()

def handleTransferWithAuthorization (s : State) (crypto : Crypto Digest)
    (env : Env) (a : Authorization) (sig : Sig) : PrecompileResult := do
  checkWindow env a
  s.checkUnused a.sender a.nonce
  let signer ← verifyTransferAuthorization crypto a sig
  checkSigner a.sender signer
  let s := s.markNonceUsed a.sender a.nonce
  let (output, s) ← s.handleTransfer a.sender a.receiver a.value env.rejectEmptyDebits
  return ({ output with gasUsed := gasTransferWithAuthorization },
    s.log (.authorizationUsed a.sender a.nonce))

def handleReceiveWithAuthorization (s : State) (crypto : Crypto Digest)
    (env : Env) (a : Authorization) (sig : Sig) : PrecompileResult := do
  if env.caller ≠ a.receiver then .error (.callerNotReceiver env.caller a.receiver)
  else
    checkWindow env a
    s.checkUnused a.sender a.nonce
    let signer ← verifyTransferAuthorization crypto a sig
    checkSigner a.sender signer
    let s := s.markNonceUsed a.sender a.nonce
    let (output, s) ← s.handleTransfer a.sender a.receiver a.value env.rejectEmptyDebits
    return ({ output with gasUsed := gasReceiveWithAuthorization },
      s.log (.authorizationUsed a.sender a.nonce))

def handleCancelAuthorization (s : State) (crypto : Crypto Digest)
    (authorizer : Address) (nonce : Nat) (sig : Sig) : PrecompileResult := do
  s.checkUnused authorizer nonce
  let signer ← verifyCancelAuthorization crypto authorizer nonce sig
  checkSigner authorizer signer
  return (⟨gasCancelAuthorization, true⟩,
    (s.markNonceUsed authorizer nonce).log (.authorizationCanceled authorizer nonce))

end State

/-! ### Runs -/

inductive Call where
  | transfer (receiver : Address) (amount : Nat)
  | approve (spender : Address) (amount : Nat)
  | transferFrom (sender receiver : Address) (amount : Nat)
  | mint (receiver : Address) (amount : Nat)
  | burn (amount : Nat)
  | burnFrom (sender : Address) (amount : Nat)
  | transferWithAuthorization (a : Authorization) (sig : Sig)
  | receiveWithAuthorization (a : Authorization) (sig : Sig)
  | cancelAuthorization (authorizer : Address) (nonce : Nat) (sig : Sig)
deriving DecidableEq, Repr

namespace State

def call (s : State) (crypto : Crypto Digest) (env : Env) : Call → PrecompileResult
  | .transfer receiver amount =>
    s.handleTransfer env.caller receiver amount env.rejectEmptyDebits
  | .approve spender amount => s.handleApprove env.caller spender amount
  | .transferFrom sender receiver amount =>
    s.handleTransferFrom env.caller sender receiver amount env.rejectEmptyDebits
  | .mint receiver amount => s.handleMint env.caller receiver amount
  | .burn amount => s.handleBurn env.caller amount env.rejectEmptyDebits
  | .burnFrom sender amount => s.handleBurnFrom env.caller sender amount env.rejectEmptyDebits
  | .transferWithAuthorization a sig => s.handleTransferWithAuthorization crypto env a sig
  | .receiveWithAuthorization a sig => s.handleReceiveWithAuthorization crypto env a sig
  | .cancelAuthorization authorizer nonce sig =>
    s.handleCancelAuthorization crypto authorizer nonce sig

def afterCall (s : State) (crypto : Crypto Digest) (env : Env) (c : Call) : State :=
  match s.call crypto env c with
  | .ok (_, s') => s'
  | .error _ => s

end State

end NativeErc20

end Axyl
