import Axyl.Lib.Totals
import Axyl.NativeErc20.Effects

/-! The native balances and the recorded supply change together, in calls of the precompile and
when the fee of a transaction is settled. -/

namespace Axyl

namespace NativeErc20

def maxWord128 : Nat := 340282366920938463463374607431768211455

/-- What the settlement of a transaction's fee reads. The base fee is at most the effective
price of a transaction that was accepted. -/
structure FeeSettlement where
  sender : Address
  beneficiary : Address
  basefeeAddress : Address
  gasUsed : Nat
  basefee : Nat
  effectiveGasPrice : Nat
  basefee_le : basefee ≤ effectiveGasPrice
deriving Repr

namespace FeeSettlement

def charge (f : FeeSettlement) : Nat := f.gasUsed * f.effectiveGasPrice

def coinbaseGasPrice (f : FeeSettlement) : Nat := f.effectiveGasPrice - f.basefee

def coinbaseFee (f : FeeSettlement) : Nat := f.coinbaseGasPrice * f.gasUsed

def baseFee (f : FeeSettlement) : Nat := f.basefee * f.gasUsed

theorem coinbaseFee_add_baseFee (f : FeeSettlement) : f.coinbaseFee + f.baseFee = f.charge := by
  unfold coinbaseFee baseFee charge coinbaseGasPrice
  rw [← Nat.add_mul, Nat.sub_add_cancel f.basefee_le, Nat.mul_comm]

end FeeSettlement

namespace State

def credit (s : State) (a : Address) (amount : Nat) : State :=
  s.setBalance a (s.getBalance a + amount)

/-- `incr_balance` refuses what does not fit a word; its callers do not look at the answer. -/
def incrBalance (s : State) (a : Address) (amount : Nat) : State :=
  if s.getBalance a + amount ≤ maxWord then s.credit a amount else s

/-- A product that does not fit 128 bits ends the process. -/
def rewardBeneficiary (s : State) (f : FeeSettlement) : Option State :=
  if f.coinbaseFee ≤ maxWord128 ∧ f.baseFee ≤ maxWord128 then
    some ((s.incrBalance f.beneficiary f.coinbaseFee).incrBalance f.basefeeAddress f.baseFee)
  else none

/-- The charge of the sender, which a transaction without the funds does not get to, and then
the rewards. -/
def settleFee (s : State) (f : FeeSettlement) : Option State :=
  if f.charge ≤ s.getBalance f.sender then
    (s.setBalance f.sender (s.getBalance f.sender - f.charge)).rewardBeneficiary f
  else none

def total (s : State) : Nat := ∑ a, s.getBalance a

def netSupply (s : State) : Int := (s.total : Int) - s.totalSupply

end State

inductive LedgerOp where
  | call (env : Env) (c : Call)
  | settle (f : FeeSettlement)
deriving Repr

namespace State
variable {Digest : Type}

def apply (s : State) (crypto : Crypto Digest) : LedgerOp → State
  | .call env c => s.afterCall crypto env c
  | .settle f => (s.settleFee f).getD s

def run (s : State) (crypto : Crypto Digest) (ops : List LedgerOp) : State :=
  ops.foldl (fun s op => s.apply crypto op) s

/-! ### Totals -/

variable {s s' : State}

theorem total_congr (h : s'.accounts = s.accounts) : s'.total = s.total := by
  unfold total getBalance
  rw [h]

theorem total_setBalance (s : State) (a : Address) (v : Nat) :
    (s.setBalance a v).total + s.getBalance a = s.total + v := by
  unfold total
  rw [getBalance_setBalance]
  exact total_update s.getBalance a v

theorem total_credit (s : State) (a : Address) (amount : Nat) :
    (s.credit a amount).total = s.total + amount := by
  have := total_setBalance s a (s.getBalance a + amount)
  unfold credit
  omega

theorem total_debit {a : Address} {amt : Nat} (h : amt ≤ s.getBalance a) :
    (s.setBalance a (s.getBalance a - amt)).total + amt = s.total := by
  have := total_setBalance s a (s.getBalance a - amt)
  omega

theorem total_move {sender recv : Address} {amt : Nat} (h : amt ≤ s.getBalance sender) :
    (s.move sender recv amt).total = s.total := by
  have hdebit := total_debit h
  have hcredit := total_credit (s.setBalance sender (s.getBalance sender - amt)) recv amt
  exact hcredit.trans hdebit

theorem incrBalance_eq {a : Address} {amount : Nat} (h : s.total + amount ≤ maxWord) :
    s.incrBalance a amount = s.credit a amount := by
  have hle : s.getBalance a ≤ s.total := holding_le_total s.getBalance a
  exact if_pos (by omega)

/-! ### Settlements -/

def settled (s : State) (f : FeeSettlement) : State :=
  ((s.setBalance f.sender (s.getBalance f.sender - f.charge)).credit f.beneficiary
    f.coinbaseFee).credit f.basefeeAddress f.baseFee

variable {f : FeeSettlement}

/-- No credit is refused while the balances add up to a word at most. -/
theorem settleFee_eq_some (hword : s.total ≤ maxWord) : s.settleFee f = some s' ↔
    f.charge ≤ s.getBalance f.sender ∧ f.coinbaseFee ≤ maxWord128 ∧ f.baseFee ≤ maxWord128 ∧
      s' = s.settled f := by
  unfold settleFee
  split
  next hfunds =>
    have hsum := f.coinbaseFee_add_baseFee
    have htot := total_debit hfunds
    unfold rewardBeneficiary settled
    generalize s.setBalance f.sender (s.getBalance f.sender - f.charge) = t at htot ⊢
    have hcredit := total_credit t f.beneficiary f.coinbaseFee
    have hfirst : t.incrBalance f.beneficiary f.coinbaseFee = _ := incrBalance_eq (by omega)
    rw [hfirst, incrBalance_eq (by omega)]
    split
    next hbits =>
      rw [Option.some_inj, eq_comm]
      exact ⟨fun h => ⟨hfunds, hbits.1, hbits.2, h⟩, fun h => h.2.2.2⟩
    next hbits => exact ⟨nofun, fun h => absurd ⟨h.2.1, h.2.2.1⟩ hbits⟩
  next hfunds => exact ⟨nofun, fun h => absurd h.1 hfunds⟩

section
variable (hfunds : f.charge ≤ s.getBalance f.sender)
include hfunds

theorem total_settled : (s.settled f).total = s.total := by
  have hsum := f.coinbaseFee_add_baseFee
  have htot := total_debit hfunds
  unfold settled
  rw [total_credit, total_credit]
  omega

end

/-! ### Steps -/

theorem Effect.netSupply_eq (h : Effect s s') : s'.netSupply = s.netSupply := by
  unfold netSupply
  cases h with
  | same haccs hsup => rw [total_congr haccs, hsup]
  | moved sender recv amt hne hle haccs hsup =>
    rw [total_congr haccs, total_move hle, hsup]
  | minted recv amt hfits haccs hsup =>
    have hcredit := total_credit s recv amt
    rw [total_congr haccs]
    unfold credit at hcredit
    omega
  | burned sender amt hle hsupply_le haccs hsup =>
    have := total_debit hle
    rw [total_congr haccs]
    omega

theorem Effect.totalSupply_le (h : Effect s s') (hword : s.totalSupply ≤ maxWord) :
    s'.totalSupply ≤ maxWord := by
  cases h with
  | same haccs hsup | moved sender recv amt hne hle haccs hsup => exact hsup.trans_le hword
  | minted recv amt hfits haccs hsup => exact hsup.trans_le hfits
  | burned sender amt hle hsupply_le haccs hsup => omega

section
variable (crypto : Crypto Digest) (hword : s.total ≤ maxWord) (op : LedgerOp)
include hword

theorem apply_cases : Effect s (s.apply crypto op) ∨
      (s.apply crypto op).total = s.total ∧ (s.apply crypto op).totalSupply = s.totalSupply := by
  cases op with
  | call env c => exact .inl (effect_afterCall s crypto env c)
  | settle f =>
    right
    change ((s.settleFee f).getD s).total = _ ∧ ((s.settleFee f).getD s).totalSupply = _
    cases hf : s.settleFee f with
    | none => exact ⟨rfl, rfl⟩
    | some s' =>
      obtain ⟨hfunds, -, -, rfl⟩ := (settleFee_eq_some hword).mp hf
      exact ⟨total_settled hfunds, rfl⟩

theorem apply_netSupply : (s.apply crypto op).netSupply = s.netSupply := by
  rcases apply_cases crypto hword op with h | ⟨htot, hsup⟩
  · exact h.netSupply_eq
  · unfold netSupply
    rw [htot, hsup]

end

/-! ### Runs -/

/-- The record covers what the accounts have. -/
structure Backed (s : State) : Prop where
  total_le : s.total ≤ s.totalSupply
  totalSupply_le : s.totalSupply ≤ maxWord

theorem Backed.apply (h : s.Backed) (crypto : Crypto Digest) (op : LedgerOp) :
    (s.apply crypto op).Backed := by
  have hword := h.total_le.trans h.totalSupply_le
  have hnet := apply_netSupply crypto hword op
  have htot := h.total_le
  unfold netSupply at hnet
  refine ⟨by omega, ?_⟩
  rcases apply_cases crypto hword op with heff | ⟨-, hsup⟩
  · exact heff.totalSupply_le h.totalSupply_le
  · exact hsup.trans_le h.totalSupply_le

def recorded : State := credit { totalSupply := 100 } 1 100

def unsigned : Crypto Unit := ⟨fun _ => (), fun _ _ _ _ => .error "signature error"⟩

end State

end NativeErc20

end Axyl
