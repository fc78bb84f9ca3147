import Axyl.Types.Certificate
import Mathlib.Data.Prod.Lex
import Mathlib.Logic.Encodable.Basic
import Mathlib.Logic.Equiv.List

/-! Blocks of the consensus chain and their digests. -/

namespace Axyl

/-- The hash of a list of words. The source feeds the hasher words of fixed widths, so a
list of words stands for one string of bytes. -/
class HashFunction where
  hash : List Nat → Nat

abbrev HashFunction.polynomial : HashFunction :=
  ⟨fun words => words.foldl (fun h w => 31 * h + w + 1) 7⟩

abbrev HashFunction.encode : HashFunction := ⟨Encodable.encode⟩

def Certificate.default : Certificate := ⟨⟨0, 0, 0, 0, [], [], 0⟩⟩

def ReputationScores.default : ReputationScores := ⟨∅, false⟩

structure ConsensusHeader where
  parentHash : Nat
  subDag : CommittedSubDag
  number : Nat
deriving DecidableEq

def ConsensusHeader.default : ConsensusHeader where
  parentHash := 0
  subDag := .new [] .default .default none
  number := 0

abbrev Position := ℕ ×ₗ ℕ

def CommittedSubDag.position (d : CommittedSubDag) : Position := toLex (d.leaderEpoch, d.leaderRound)

def ConsensusHeader.position (h : ConsensusHeader) : Position := h.subDag.position

theorem ConsensusHeader.position_default : ConsensusHeader.default.position = toLex (0, 0) := rfl

section
variable [HashFunction]

def CommittedSubDag.digest (d : CommittedSubDag) : Nat :=
  HashFunction.hash (d.certificates.map Certificate.digest ++ [d.leader.digest, d.commitTimestamp])

def ConsensusHeader.digest (h : ConsensusHeader) : Nat :=
  HashFunction.hash [h.parentHash, h.subDag.digest, h.number]

theorem ConsensusHeader.eq_of_digest_eq (hhash : Function.Injective HashFunction.hash)
    {h h' : ConsensusHeader} (heq : h.digest = h'.digest) :
    h.parentHash = h'.parentHash ∧ h.subDag.digest = h'.subDag.digest ∧ h.number = h'.number := by
  have hwords := hhash heq
  simp only [List.cons.injEq, and_true] at hwords
  exact hwords

end

end Axyl
