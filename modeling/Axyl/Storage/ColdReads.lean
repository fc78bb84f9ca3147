import Axyl.Lib.Except
import Axyl.Storage.LayeredReads

/-! Point reads of the layered store with a cold tier beneath it: sealed jars of consensus blocks,
found by number, and of batches, found through a table of the hot tiers. -/

namespace Axyl
open Std (ExtTreeMap)
open OrderedKeys
open Fallible

inductive ColdKind where
  | consensusBlocks
  | batches
deriving Repr, DecidableEq

/-- A read of the memory tier panics on a row that does not decode. -/
inductive ReadError where
  | panicked (text : String)
  | jar (e : String)
  | codec (e : String)
  | misaligned (number stored : Nat)
  | digestMismatch (epoch row : Nat)
deriving Repr, DecidableEq

abbrev ReadM := Except ReadError

structure SealedJar where
  epoch : Nat
  startKey : Nat

structure ColdLocation where
  epoch : Nat
  row : Nat

/-- How the tables are archived, in columns of the type `B`. -/
structure ColdCodec (τ K V B : Type) where
  coldKind : τ → Option ColdKind
  archivedNumber : K → ReadM Nat
  archivedDigest : K → ReadM B
  headerNumber : B → ReadM Nat
  decode : τ → B → ReadM V
  coldBatchLocations : τ
  locationKey : B → K
  location : V → ColdLocation
  /-- The locations are not archived, so that their lookup ends in the hot tiers. -/
  hot : coldKind coldBatchLocations = none

/-- The indexes of the jars, by end key and by epoch, and what a file yields for a row. -/
structure ColdStore (B : Type) where
  consensusBlocks : ExtTreeMap Nat SealedJar
  consensusBlockRow : Nat → Nat → ReadM (Option (List B))
  batches : ExtTreeMap Nat SealedJar
  batchRow : Nat → Nat → ReadM (Option (List B))

section
variable {τ K V B : Type}

namespace ColdStore

variable (cold : ColdStore B) (x : ColdCodec τ K V B)

def coveringJar (number : Nat) : Option SealedJar :=
  ((cold.consensusBlocks.toList.find? fun row => number ≤ row.1).map Prod.snd).filter
    fun jar => jar.startKey ≤ number

def containsNumber (number : Nat) : Bool := (cold.coveringJar number).isSome

def readByNumber (number : Nat) : ReadM (Option B) :=
  bindSome (.ok (cold.coveringJar number)) fun jar =>
    (cold.consensusBlockRow jar.epoch (number - jar.startKey)).map (·.bind List.head?)

def readConsensusBlockChecked (number : Nat) : ReadM (Option B) :=
  bindSome (cold.readByNumber number) fun bytes => do
    let stored ← x.headerNumber bytes
    if stored ≠ number then .error (.misaligned number stored) else .ok (some bytes)

variable [LinearOrder K] [DecidableEq B] (tx : LayeredDbTx τ K V) (t : τ) (k : K)

def readBatchChecked (digest : B) (loc : ColdLocation) : ReadM (Option B) :=
  if !cold.batches.contains loc.epoch then .ok none
  else
    bindSome (cold.batchRow loc.epoch loc.row) fun columns =>
      if columns[0]? ≠ some digest then .error (.digestMismatch loc.epoch loc.row)
      else .ok columns[1]?

def lookup (digest : B) : ReadM (Option ColdLocation) :=
  ((tx.get x.coldBatchLocations (x.locationKey digest)).mapError .panicked).map (·.map x.location)

def coldRaw : ReadM (Option B) :=
  match x.coldKind t with
  | some .consensusBlocks => x.archivedNumber k >>= cold.readConsensusBlockChecked x
  | some .batches => do
    let digest ← x.archivedDigest k
    bindSome (lookup x tx digest) (cold.readBatchChecked digest)
  | none => .ok none

def coldGet : ReadM (Option V) :=
  bindSome (cold.coldRaw x tx t k) fun bytes => (x.decode t bytes).map some

def coldHas : ReadM Bool :=
  match x.coldKind t with
  | some .consensusBlocks => (x.archivedNumber k).map cold.containsNumber
  | some .batches => (cold.coldRaw x tx t k).map Option.isSome
  | none => .ok false

/-- What the cold tier has can be read: the row of a covered number holds the header of that number,
and what is read decodes. -/
def Readable : Prop :=
  match x.coldKind t with
  | some .consensusBlocks => ∀ number, x.archivedNumber k = .ok number →
    cold.containsNumber number = true → ∃ bytes v, cold.readByNumber number = .ok (some bytes) ∧
      x.headerNumber bytes = .ok number ∧ x.decode t bytes = .ok v
  | some .batches => ∀ bytes, cold.coldRaw x tx t k = .ok (some bytes) →
    ∃ v, x.decode t bytes = .ok v
  | none => True

variable {cold x tx t k}

omit [LinearOrder K] [DecidableEq B] in
theorem readConsensusBlockChecked_eq_some {number : Nat} {bytes : B} :
    cold.readConsensusBlockChecked x number = .ok (some bytes) ↔
      cold.readByNumber number = .ok (some bytes) ∧ x.headerNumber bytes = .ok number := by
  simp only [readConsensusBlockChecked, bindSome_eq_some, bind_eq_ok, ite_error_eq_ok]
  constructor
  · rintro ⟨row, hread, stored, hstd, heq, hrow⟩
    cases hrow
    exact ⟨hread, hstd.trans (congrArg _ (of_not_not heq))⟩
  · rintro ⟨hread, hstd⟩
    exact ⟨bytes, hread, number, hstd, not_not_intro rfl, rfl⟩

omit [LinearOrder K] [DecidableEq B] in
theorem containsNumber_of_readByNumber {num : Nat} {bytes : B}
    (h : cold.readByNumber num = .ok (some bytes)) : cold.containsNumber num = true := by
  obtain ⟨jar, hjar, -⟩ := bindSome_eq_some.mp h
  rw [containsNumber, Except.ok.inj hjar]
  rfl

theorem coldHas_iff : (cold.coldHas x tx t k = .ok true ↔ ∃ v, cold.coldGet x tx t k = .ok (some v)) ↔
    cold.Readable x tx t k := by
  simp only [coldHas, coldGet, Readable, bindSome_eq_some, map_eq_ok, Option.some.injEq]
  rcases hkind : x.coldKind t with _ | _ | _
  · simp [coldRaw, hkind]
  · -- a number is had when a jar covers it, and got when its row is read
    rcases hnum : x.archivedNumber k with e | number
    · simp [coldRaw, hkind, hnum, bind, Except.bind, map_eq_ok]
    · have hraw : cold.coldRaw x tx t k = cold.readConsensusBlockChecked x number := by
        simp [coldRaw, hkind, hnum, bind, Except.bind]
      simp only [hraw, readConsensusBlockChecked_eq_some, map_eq_ok, Except.ok.injEq, forall_eq',
        exists_eq_left']
      constructor
      · intro h hcov
        obtain ⟨v, bytes, ⟨hread, hstd⟩, w, hdecode, rfl⟩ := h.mp hcov
        exact ⟨bytes, w, hread, hstd, hdecode⟩
      · intro h
        refine ⟨fun hcov => ?_, ?_⟩
        · obtain ⟨bytes, v, hread, hstd, hdecode⟩ := h hcov
          exact ⟨v, bytes, ⟨hread, hstd⟩, v, hdecode, rfl⟩
        · rintro ⟨v, bytes, ⟨hread, -⟩, -⟩
          exact containsNumber_of_readByNumber hread
  · rcases hraw : cold.coldRaw x tx t k with e | bytes | bytes <;> simp [map_eq_ok]

end ColdStore

variable [LinearOrder K] [DecidableEq B]

namespace LayeredDbTx

variable (tx : LayeredDbTx τ K V) (cold : ColdStore B) (x : ColdCodec τ K V B) (t : τ) (k : K)

def getThrough : ReadM (Option V) :=
  (tx.get t k).mapError .panicked >>= fun
    | some v => .ok (some v)
    | none => cold.coldGet x tx t k

def containsKeyThrough : ReadM Bool :=
  (tx.getThrough cold x t k).map Option.isSome

end LayeredDbTx

namespace LayeredDatabase

variable (s : LayeredDatabase τ K V) (cold : ColdStore B) (x : ColdCodec τ K V B) (t : τ) (k : K)

/-- No other thread runs during the call, so that it sees one state of the tiers. -/
def getThrough : ReadM (Option V) :=
  LayeredDbTx.getThrough ⟨s.memDb, s.db⟩ cold x t k

def containsKeyThrough : ReadM Bool :=
  if s.memDb.isTombstoned t k then .ok false
  else if s.memDb.containsKey t k then .ok true
  else if s.memDb.isClearing t then cold.coldHas x ⟨s.memDb, s.db⟩ t k
  else if (s.db t).contains k then .ok true
  else cold.coldHas x ⟨s.memDb, s.db⟩ t k

/-- A removed key has no archived copy, a cached row decodes, and what only the cold tier has can be
read. -/
def Served : Prop :=
  match s.memDb.row t k with
  | some entry =>
    if entry.tombstoned then ∀ v, cold.coldGet x ⟨s.memDb, s.db⟩ t k ≠ .ok (some v)
    else entry.value ≠ none
  | none => s.memDb.isClearing t = true ∨ (s.db t)[k]? = none → cold.Readable x ⟨s.memDb, s.db⟩ t k

/-- On the store the two agree exactly where the key is served, on a read transaction always. -/
theorem containsKeyThrough_iff :
    ((s.containsKeyThrough cold x t k = .ok true ↔
      ∃ v, s.getThrough cold x t k = .ok (some v)) ↔ s.Served cold x t k) ∧
    ∀ tx : LayeredDbTx τ K V, tx.containsKeyThrough cold x t k = .ok true ↔
      ∃ v, tx.getThrough cold x t k = .ok (some v) := by
  refine ⟨?_, fun tx => ?_⟩
  · unfold containsKeyThrough getThrough LayeredDbTx.getThrough LayeredDbTx.get Served
      StoreType.containsKey StoreType.isTombstoned StoreType.getNoMarkedCheck StoreType.row
    rcases hrow : (s.memDb t).rows[k]? with _ | entry
    · -- a hot miss is one of a table that is being cleared or of the persistent tier
      rcases hclearing : s.memDb.isClearing t with _ | _
      · have hcontains := @ExtTreeMap.isSome_getElem?_eq_contains _ _ _ (s.db t) _ k
        rcases hdb : (s.db t)[k]? with _ | v <;> rw [hdb] at hcontains
        · simp [← hcontains, bind, Except.bind, Except.mapError, ColdStore.coldHas_iff]
        · simp [← hcontains, bind, Except.bind, Except.mapError]
      · simp [bind, Except.bind, Except.mapError, ColdStore.coldHas_iff]
    · cases htombstoned : entry.tombstoned with
      | true => simp [htombstoned, bind, Except.bind, Except.mapError]
      | false =>
        rcases hvalue : entry.value with _ | v
        · simp [htombstoned, hvalue, bind, Except.bind, Except.mapError]
        · simp [htombstoned, hvalue, bind, Except.bind, Except.mapError]
  · unfold LayeredDbTx.containsKeyThrough
    rcases tx.getThrough cold x t k with e | v | v <;> simp [Except.map]

end LayeredDatabase

end

/-- Blocks are archived under their own numbers, in a table `true` beside that of the locations. -/
def numberCodec : ColdCodec Bool Nat Nat Nat where
  coldKind := fun t => if t then some .consensusBlocks else none
  archivedNumber := .ok
  archivedDigest := .ok
  headerNumber := .ok
  decode := fun _ => .ok
  coldBatchLocations := false
  locationKey := id
  location := fun row => ⟨0, row⟩
  hot := rfl

/-- The block of number seven is archived and was removed from the store, which still serves it. -/
theorem containsKeyThrough_removed :
    let s := (LayeredDatabase.openWith fun _ => ∅).issue (.remove true 7) 0
    let cold : ColdStore Nat :=
      ⟨(∅ : ExtTreeMap Nat SealedJar).insert 7 ⟨0, 0⟩, fun _ row => .ok (some [row]), ∅,
        fun _ _ => .ok none⟩
    s.containsKeyThrough cold numberCodec true 7 = .ok false ∧
      s.getThrough cold numberCodec true 7 = .ok (some 7) := by
  exact ⟨rfl, rfl⟩

end Axyl
