import Mathlib.Logic.Basic

/-! Logs of writes to a map. A write says of every key what it makes of it: nothing, a deletion
or a value. The last write to a key decides. -/

namespace Axyl.WriteLog

variable {ω κ V μ : Type} {effect : ω → κ → Option (Option V)}

def last (effect : ω → κ → Option (Option V)) : List ω → κ → Option (Option V)
  | [], _ => none
  | w :: log, k => (last effect log k).or (effect w k)

theorem last_append (a b : List ω) (k : κ) :
    last effect (a ++ b) k = (last effect b k).or (last effect a k) := by
  induction a with
  | nil => rw [List.nil_append, last, Option.or_none]
  | cons w a ih => rw [List.cons_append, last, ih, last, Option.or_assoc]

theorem last_concat (log : List ω) (w : ω) (k : κ) :
    last effect (log ++ [w]) k = (effect w k).or (last effect log k) := by
  rw [last_append, last, last, Option.none_or]

theorem last_eq_none {log : List ω} {k : κ} :
    last effect log k = none ↔ ∀ w ∈ log, effect w k = none := by
  induction log with
  | nil => simp [last]
  | cons w log ih => rw [last, Option.or_eq_none_iff, ih, List.forall_mem_cons, and_comm]

theorem get_foldl (get : μ → κ → Option V) {apply : μ → ω → μ} {k : κ}
    (happly : ∀ m w, get (apply m w) k = (effect w k).getD (get m k)) (m : μ) (log : List ω) :
    get (log.foldl apply m) k = (last effect log k).getD (get m k) := by
  induction log generalizing m with
  | nil => rfl
  | cons w log ih =>
    rw [List.foldl_cons, ih, happly, last]
    cases last effect log k <;> rfl

end Axyl.WriteLog
