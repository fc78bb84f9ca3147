import Axyl.Lib.Except
import Axyl.Storage.CertificateStore
import Mathlib.Data.List.Dedup

/-! The request for missing certificates. The requester writes the rounds it has as one bitmap an
author, relative to the lower bound, and the responder reads them back under its caps. -/

namespace Axyl
open Std (ExtTreeMap)

/-- A plain `+` on rounds that overflows takes the node down, which `overflow` stands for. -/
inductive FetchError where
  | overflow
  | io (text : String)
  | invalidRequest (text : String)
  | tooManyAuthorities (named limit : Nat)
  | internal (text : String)
deriving DecidableEq, Repr

abbrev FetchM := Except FetchError

/-! ### The bitmap format -/

def leWord (n : Nat) : List Nat :=
  [n % 256, n / 256 % 256, n / 65536 % 256, n / 16777216 % 256]

def word (bytes : List Nat) (pos : Nat) : Option Nat :=
  match bytes.drop pos with
  | b₀ :: b₁ :: b₂ :: b₃ :: _ => some (b₀ + 256 * b₁ + 65536 * b₂ + 16777216 * b₃)
  | _ => none

theorem word_leWord {n : Nat} (hn : n ≤ maxRound) (init rest : List Nat) :
    word (init ++ leWord n ++ rest) init.length = some n := by
  simp only [word, leWord, List.append_assoc, List.drop_left, List.cons_append, List.nil_append,
    Option.some.injEq]
  unfold maxRound at hn
  omega

def containers (values : List Nat) : Nat := (values.map (· / 65536)).dedup.length

def IsBitmap (values : List Nat) : Prop :=
  values.Pairwise (· < ·) ∧ ∀ v ∈ values, v ≤ maxRound

/-- The on-disk format of roaring bitmaps, taken to lose nothing. A bitmap without runs is a
cookie, its number of containers, eight bytes a container and at most two bytes a value. -/
structure RoaringFormat where
  serialize : List Nat → List Nat
  deserialize : List Nat → Option (List Nat)
  lossless : ∀ values, IsBitmap values → deserialize (serialize values) = some values
  layout : ∀ values, IsBitmap values → ∃ body,
    serialize values = leWord 12346 ++ leWord (containers values) ++ body ∧
      body.length ≤ 8 * containers values + 2 * values.length

def roaringContainerCount (bytes : List Nat) : Option Nat := do
  let cookie ← word bytes 0
  if cookie % 65536 = 12347 then some (cookie / 65536 + 1)
  else if cookie = 12346 then word bytes 4
  else none

def maxSkipRoundContainers : Nat := 16

def maxSkipBitmapLen (maxRounds : Nat) : Nat := 8 + 8 * maxSkipRoundContainers + 2 * maxRounds

def deserializeNormalizedBounded (fmt : RoaringFormat) (bytes : List Nat) (maxLen : Nat) :
    FetchM (Option (List Nat)) :=
  match fmt.deserialize bytes with
  | none => .error (.io "undecodable bitmap")
  | some raw => .ok (if maxLen < raw.length then none else some raw)

def bitmapOf (values : List Nat) : List Nat := (values.insertionSort (· ≤ ·)).dedup

theorem bitmapOf_eq_self {values : List Nat} (h : values.Pairwise (· < ·)) :
    bitmapOf values = values := by
  unfold bitmapOf
  rw [(h.imp le_of_lt).insertionSort_eq]
  exact List.Nodup.dedup (h.imp ne_of_lt)

/-! ### The request -/

structure SkipRoundList where
  entries : List (Nat × List Nat)
  named : Nat
deriving DecidableEq, Repr

def maxSkipRoundAuthorities : Nat := 1024

namespace SkipRoundList

def fromEntries (entries : List (Nat × List Nat)) : SkipRoundList := ⟨entries, entries.length⟩

def decode (entries : List (Nat × List Nat)) : SkipRoundList :=
  ⟨entries.take maxSkipRoundAuthorities, entries.length⟩

end SkipRoundList

structure MissingCertificatesRequest where
  exclusiveLowerBound : Nat := 0
  skipRounds : SkipRoundList := ⟨[], 0⟩
  maxResponseSize : Nat := 0
  exclusiveUpperBound : Option Nat := none
deriving DecidableEq, Repr

namespace MissingCertificatesRequest

def setMaxResponseSize (request : MissingCertificatesRequest) (maxSize : Nat) :
    MissingCertificatesRequest := { request with maxResponseSize := maxSize }

def setBounds (fmt : RoaringFormat) (request : MissingCertificatesRequest) (gcRound : Nat)
    (skipRounds : List (Nat × List Nat)) : MissingCertificatesRequest :=
  { request with
    exclusiveLowerBound := gcRound
    skipRounds := .fromEntries (skipRounds.map fun e =>
      (e.1, fmt.serialize (bitmapOf (e.2.map (· - gcRound))))) }

def received (request : MissingCertificatesRequest) : MissingCertificatesRequest :=
  { request with skipRounds := .decode request.skipRounds.entries }

def entryRounds (fmt : RoaringFormat) (lowerBound maxRounds : Nat) (serialized : List Nat) :
    FetchM (List Nat) :=
  match roaringContainerCount serialized with
  | none => .error (.io "unknown skip bitmap")
  | some containers =>
    if maxSkipRoundContainers < containers then
      .error (.io "skip bitmap declares too many containers")
    else if maxSkipBitmapLen maxRounds < serialized.length then
      .error (.invalidRequest "Skip bitmap is too long")
    else do
      match ← deserializeNormalizedBounded fmt serialized maxRounds with
      | none => .error (.invalidRequest "Request for rounds out of bounds")
      | some bitmap =>
        if bitmap.all fun r => lowerBound + r ≤ maxRound then .ok (bitmap.map (lowerBound + ·))
        else .error (.io "skip round overflows the round range")

def decodeEntries (fmt : RoaringFormat) (lowerBound maxRounds : Nat) (keep : Nat → Bool) :
    List (Nat × List Nat) → ExtTreeMap Nat (List Nat) →
      FetchM (ExtTreeMap Nat (List Nat))
  | [], skipRounds => .ok skipRounds
  | (k, serialized) :: entries, skipRounds =>
    if !keep k || skipRounds.contains k then
      decodeEntries fmt lowerBound maxRounds keep entries skipRounds
    else do
      let rounds ← entryRounds fmt lowerBound maxRounds serialized
      decodeEntries fmt lowerBound maxRounds keep entries (skipRounds.insert k rounds)

def getBounds (fmt : RoaringFormat) (request : MissingCertificatesRequest) (maxRounds : Nat)
    (keep : Nat → Bool) : FetchM (Nat × ExtTreeMap Nat (List Nat)) := do
  let skipRounds ← decodeEntries fmt request.exclusiveLowerBound maxRounds keep
    request.skipRounds.entries ∅
  return (request.exclusiveLowerBound, skipRounds)

end MissingCertificatesRequest

/-! ### The fetcher -/

/-- What one fetch starts from. Rounds have 32 bits. `fallback` is set after repeated failures. -/
structure FetchTask where
  store : CertificateStore
  committee : Committee
  gcRound : Nat
  fallback : Bool
  maxResponseSize : Nat
  bounded : ∀ k ∈ store.certificateDigestByRound, k.1 ≤ maxRound

namespace FetchTask

def succRound (round : Nat) : FetchM Nat :=
  if round < maxRound then .ok (round + 1) else .error .overflow

def roundsOf (store : CertificateStore) (firstRound author : Nat) : List Nat :=
  (store.certificateDigestByRound.keys.filter fun k =>
    decide (firstRound ≤ k.1 ∧ k.2 = author)).map Prod.fst

def writtenRoundsOf (t : FetchTask) (author : Nat) : List Nat :=
  if t.fallback then [] else roundsOf t.store (t.gcRound + 1) author

def writtenRounds (t : FetchTask) : List (Nat × List Nat) :=
  t.committee.authorities.map fun a => (a.id, t.writtenRoundsOf a.id)

def skipContiguous : Nat → List Nat → FetchM Nat
  | expected, [] => .ok expected
  | expected, r :: rounds =>
    if r = expected then do
      let expected ← succRound r
      skipContiguous expected rounds
    else .ok expected

def lastContiguous (gcRound : Nat) (rounds : List Nat) : FetchM Nat := do
  let expected ← succRound gcRound
  let expected ← skipContiguous expected rounds
  return expected - 1

def leastContiguous (gcRound : Nat) : Nat → List (Nat × List Nat) → FetchM Nat
  | least, [] => .ok least
  | least, entry :: written => do
    let last ← lastContiguous gcRound entry.2
    leastContiguous gcRound (min least last) written

def tightenLowerBound (gcRound : Nat) : List (Nat × List Nat) → FetchM Nat
  | [] => .ok gcRound
  | entry :: written => do
    let first ← lastContiguous gcRound entry.2
    let least ← leastContiguous gcRound first written
    return max least gcRound

/-- The request `run_fetch_task` sends. Reading the store from the round after `gcRound` on comes
first. -/
def buildRequest (fmt : RoaringFormat) (t : FetchTask) : FetchM MissingCertificatesRequest := do
  let _ ← succRound t.gcRound
  let lowerBound ← tightenLowerBound t.gcRound t.writtenRounds
  let pruned := t.writtenRounds.map fun e => (e.1, e.2.filter fun r => decide (lowerBound < r))
  let request : MissingCertificatesRequest := {}
  return (request.setBounds fmt lowerBound pruned).setMaxResponseSize t.maxResponseSize

end FetchTask

end Axyl
