import Mathlib.Algebra.GroupWithZero.Nat
import Mathlib.Data.Fintype.Basic

/-! Addresses of accounts. -/

namespace Axyl

abbrev Address := Fin 1461501637330902918203684832716283019655932542976

instance addressNeZero : NeZero 1461501637330902918203684832716283019655932542976 :=
  ⟨Nat.succ_ne_zero 1461501637330902918203684832716283019655932542975⟩

end Axyl
