import Axyl.Lib.Reactor
import Axyl.NativeErc20.Effects

/-! Authorizations of the native token: each nonce is used once, and value moves on the signature
of the authorizer. The signature of a receipt is verified as that of a transfer, so the law is one
of the runs in which no receipt moves value. -/

namespace Axyl
open List Reactor

namespace NativeErc20
open Fallible (bind_eq_ok)

/-- The order of the curve: a signature with the scalar `s` has a second form with the scalar
`secp256k1n - s`. -/
def secp256k1n : Nat := 0xFFFFFFFFFFFFFFFFFFFFFFFFFFFFFFFEBAAEDCE6AF48A03BBFD25E8CD0364141

inductive AuthCall where
  | transfer (a : Authorization) (sig : Sig)
  | receive (a : Authorization) (sig : Sig)
  | cancel (authorizer : Address) (nonce : Nat) (sig : Sig)
deriving DecidableEq, Repr

namespace AuthCall

def toCall : AuthCall → Call
  | .transfer a sig => .transferWithAuthorization a sig
  | .receive a sig => .receiveWithAuthorization a sig
  | .cancel authorizer nonce sig => .cancelAuthorization authorizer nonce sig

def key : AuthCall → Address × Nat
  | .transfer a _ => (a.sender, a.nonce)
  | .receive a _ => (a.sender, a.nonce)
  | .cancel authorizer nonce _ => (authorizer, nonce)

def typedData : AuthCall → TypedData
  | .transfer a _ => .transferWithAuthorization a
  | .receive a _ => .receiveWithAuthorization a
  | .cancel authorizer nonce _ => .cancelAuthorization authorizer nonce

def authorization : AuthCall → Option (Authorization × Sig)
  | .transfer a sig => some (a, sig)
  | .receive a sig => some (a, sig)
  | .cancel _ _ _ => none

end AuthCall

structure Used where
  env : Env
  call : AuthCall
  before : State
  after : State

def Used.MovesValue (u : Used) : Prop := u.after.getBalance ≠ u.before.getBalance

variable {Digest : Type}

namespace State

def authorize (crypto : Crypto Digest) (s : State) (input : Env × AuthCall) : List Used × State :=
  match s.call crypto input.1 input.2.toCall with
  | .ok (_, s') => ([⟨input.1, input.2, s, s'⟩], s')
  | .error _ => ([], s)

end State

section Signatures

/-- The scalar is in the low half and the signature recovers to the signer of the data. -/
structure SignedBy (crypto : Crypto Digest) (signer : Address) (data : TypedData) (sig : Sig) :
    Prop where
  low : sig.s ≤ secp256k1nHalf
  recovers : ∃ parity, yParity sig.v = .ok parity ∧
    crypto.recover (crypto.signingHash data) parity sig.r sig.s = .ok signer

structure Exact (crypto : Crypto Digest) (us : List Used) : Prop where
  once : (us.map fun u => u.call.key).Nodup
  covered : ∀ u ∈ us, u.MovesValue → ∃ a sig, u.call.authorization = some (a, sig) ∧
    SignedBy crypto a.sender u.call.typedData sig ∧
    (∀ v hash signer, recoverSigner crypto hash ⟨v, sig.r, secp256k1n - sig.s⟩ ≠ .ok signer) ∧
    a.validAfter ≤ u.env.timestamp ∧ u.env.timestamp < a.validBefore ∧
    u.after.getBalance = (u.before.move a.sender a.receiver a.value).getBalance
  received : ∀ u ∈ us, u.MovesValue → ∀ a sig, u.call.authorization = some (a, sig) →
    SignedBy crypto a.sender (.receiveWithAuthorization a) sig → u.env.caller = a.receiver

variable {cr : Crypto Digest} {sig : Sig} {signer : Address} {data : TypedData}

theorem recoverSigner_of_ok (h : recoverSigner cr (cr.signingHash data) sig = .ok signer) :
    SignedBy cr signer data sig := by
  obtain ⟨parity, hparity, h⟩ := bind_eq_ok.mp h
  split at h
  · cases h
  next hlow =>
  split at h
  next hrcr =>
    cases h
    exact ⟨Nat.not_lt.mp hlow, parity, hparity, hrcr⟩
  · cases h

end Signatures

namespace State
variable {crypto : Crypto Digest} {s s' : State} {env : Env} {c : AuthCall}
  {a : Authorization} {sig : Sig} {output : PrecompileOutput}

/-! ### Single calls -/

theorem handleTransfer_authorizations {sender recv : Address} {amt : Nat} {guard : Bool}
    (h : s.handleTransfer sender recv amt guard = .ok (output, s')) :
    s'.authorizations = s.authorizations := by
  rcases handleTransfer_of_ok h with ⟨-, rfl⟩ | ⟨-, -, -, rfl⟩
  · rfl
  · rfl

theorem Authorized.authorizations (h : Authorized s s' crypto env a sig) :
    s'.authorizations = (s.markNonceUsed a.sender a.nonce).authorizations := by
  obtain ⟨output, t, ht, rfl⟩ := h.transferred
  have hmarked : t.authorizations = _ := handleTransfer_authorizations ht
  exact hmarked

theorem call_marks (h : s.call crypto env c.toCall = .ok (output, s')) :
    s.authorizations c.key.1 c.key.2 = false ∧
      s'.authorizations = (s.markNonceUsed c.key.1 c.key.2).authorizations := by
  cases c with
  | transfer a sig =>
    have hauth := transferWithAuthorization_of_ok h
    exact ⟨hauth.unused, hauth.authorizations⟩
  | receive a sig =>
    have hauth := (receiveWithAuthorization_of_ok h).2
    exact ⟨hauth.unused, hauth.authorizations⟩
  | cancel authorizer nonce sig =>
    obtain ⟨hunused, rfl⟩ := cancelAuthorization_of_ok h
    exact ⟨hunused, rfl⟩

theorem markNonceUsed_self (s : State) (authorizer : Address) (nonce : Nat) :
    (s.markNonceUsed authorizer nonce).authorizations authorizer nonce = true := by
  simp [markNonceUsed]

theorem markNonceUsed_mono {authorizer authorizer' : Address} {nonce nonce' : Nat}
    (h : s.authorizations authorizer' nonce' = true) :
    (s.markNonceUsed authorizer nonce).authorizations authorizer' nonce' = true := by
  unfold markNonceUsed
  by_cases ha : authorizer' = authorizer
  · subst ha
    by_cases hn : nonce' = nonce
    · subst hn
      simp
    · simp [hn, h]
  · simp [ha, h]

theorem Authorized.signedBy (h : Authorized s s' crypto env a sig) :
    SignedBy crypto a.sender (.transferWithAuthorization a) sig :=
  recoverSigner_of_ok h.verified

/-- What the calls recorded so far say together with the state they led to. -/
structure History (crypto : Crypto Digest) (us : List Used) (s : State) : Prop where
  once : (us.map fun u => u.call.key).Nodup
  marked : ∀ u ∈ us, s.authorizations u.call.key.1 u.call.key.2 = true
  recorded : ∀ u ∈ us, ∃ output, u.before.call crypto u.env u.call.toCall = .ok (output, u.after)

theorem History.step {us : List Used} (h : History crypto us s) (input : Env × AuthCall) :
    History crypto (us ++ (s.authorize crypto input).1) (s.authorize crypto input).2 := by
  unfold authorize
  split
  next output s' hcall =>
    obtain ⟨hunused, hmarks⟩ := call_marks hcall
    refine ⟨?_, ?_, ?_⟩
    · rw [map_append, map_singleton, ← concat_eq_append]
      apply List.Nodup.concat
      · intro hmem
        obtain ⟨u, hu, hkey⟩ := mem_map.mp hmem
        have hused := h.marked u hu
        rw [hkey, hunused] at hused
        cases hused
      · exact h.once
    · intro u hu
      rw [hmarks]
      rcases mem_append.mp hu with hu | hu
      · exact markNonceUsed_mono (h.marked u hu)
      · rw [mem_singleton.mp hu]
        exact markNonceUsed_self s _ _
    · exact forall_mem_append.mpr ⟨h.recorded, forall_mem_singleton.mpr ⟨output, hcall⟩⟩
  · rw [append_nil]
    exact h

def paid : Authorization where
  sender := 1
  receiver := 2
  value := 5
  validAfter := 0
  validBefore := 100
  nonce := 7

end State

end NativeErc20

end Axyl
