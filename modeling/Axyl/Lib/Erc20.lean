import Mathlib.Logic.Function.Basic

/-! The reference ERC-20: balances, allowances of which one value is unlimited, and events. A
call succeeds exactly when the balance, and where one is used the allowance, covers the amount. -/

namespace Axyl.Erc20
open Function

variable {α : Type} [DecidableEq α]

inductive Event (α : Type) where
  | transfer (sender receiver : α) (value : Nat)
  | approval (owner spender : α) (value : Nat)
deriving DecidableEq

inductive Op (α : Type) where
  | transfer (receiver : α) (amount : Nat)
  | approve (spender : α) (amount : Nat)
  | transferFrom (sender receiver : α) (amount : Nat)
deriving DecidableEq

structure Token (α : Type) where
  balances : α → Nat
  allowances : α → α → Nat
  logs : List (Event α)

def moved (balances : α → Nat) (sender receiver : α) (amount : Nat) : α → Nat :=
  let debited := update balances sender (balances sender - amount)
  update debited receiver (debited receiver + amount)

def approved (allowances : α → α → Nat) (owner spender : α) (amount : Nat) : α → α → Nat :=
  update allowances owner (update (allowances owner) spender amount)

def used (unlimited : Nat) (allowances : α → α → Nat) (owner spender : α) (amount : Nat) :
    α → α → Nat :=
  if allowances owner spender = unlimited then allowances
  else approved allowances owner spender (allowances owner spender - amount)

namespace Token

def exec (unlimited : Nat) (t : Token α) (caller : α) : Op α → Option (Token α)
  | .transfer receiver amount =>
    if amount ≤ t.balances caller then
      some { t with
        balances := moved t.balances caller receiver amount
        logs := t.logs ++ [.transfer caller receiver amount] }
    else none
  | .approve spender amount =>
    some { t with
      allowances := approved t.allowances caller spender amount
      logs := t.logs ++ [.approval caller spender amount] }
  | .transferFrom sender receiver amount =>
    if amount ≤ t.balances sender ∧
        (t.allowances sender caller = unlimited ∨ amount ≤ t.allowances sender caller) then
      some { t with
        balances := moved t.balances sender receiver amount
        allowances := used unlimited t.allowances sender caller amount
        logs := t.logs ++ [.transfer sender receiver amount] }
    else none

def step (unlimited : Nat) (t : Token α) (input : α × Op α) : List Bool × Token α :=
  match t.exec unlimited input.1 input.2 with
  | some t' => ([true], t')
  | none => ([false], t)

end Token

theorem moved_self (balances : α → Nat) (a : α) {amt : Nat} (h : amt ≤ balances a) :
    moved balances a a amt = balances := by
  funext b
  unfold moved
  by_cases hb : b = a
  · subst hb
    simp only [update_self]
    omega
  · simp only [update_of_ne hb]

end Axyl.Erc20
