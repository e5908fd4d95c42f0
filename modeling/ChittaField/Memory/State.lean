import Mathlib.Data.List.Sort
import ChittaField.Ops

/-!
# The mutable state of a memory

A memory has an immutable payload and a mutable state.  `applyDelta` changes the state by an explicit
update, which is fenced by its timestamp: an update that is not newer than the last one is dropped.
`applyAccessDelta` counts an access of a batch, which is not fenced.

The single-precision numbers are a type `F` with the operations of `F32`.  Nothing here depends on
how these round, so they have no laws.
-/

namespace ChittaField

/-! ## Single-precision numbers -/

/-- The operations on single-precision numbers that the store uses. -/
class F32 (F : Type) where
  /-- The number nearest to a literal or an integer. -/
  lit : ℚ → F
  add : F → F → F
  mul : F → F → F
  div : F → F → F
  max : F → F → F
  min : F → F → F
  lt : F → F → Bool
  le : F → F → Bool

namespace F32

variable {F : Type} [F32 F]

/-- The number between two bounds that is closest; not a number stays so. -/
def clamp (x lo hi : F) : F := if lt x lo then lo else if lt hi x then hi else x

end F32

/-- Numbers that do not round. -/
instance : F32 ℚ where
  lit q := q
  add a b := a + b
  mul a b := a * b
  div a b := a / b
  max a b := if a ≤ b then b else a
  min a b := if a ≤ b then a else b
  lt a b := decide (a < b)
  le a b := decide (a ≤ b)

variable {F : Type}

/-! ## Retrieval history -/

/-- A sketch of a query that retrieved a memory. -/
structure RetrievalContext (F : Type) where
  centroidQ : List ℤ
  scale : F
  contextHash : ℕ
  tsMs : ℤ
  deriving DecidableEq

/-- The last queries that retrieved a memory, with the mean of their centroids. -/
structure RetrievalHistory (F : Type) where
  entries : List (RetrievalContext F)
  signature : List F
  deriving DecidableEq

/-- Add a centroid to a mean of `n`. -/
def addCentroid [F32 F] (scale n : F) : List F → List ℤ → List F
  | x :: sig, q :: qs =>
    F32.add x (F32.div (F32.mul (F32.lit q) scale) n) :: addCentroid scale n sig qs
  | sig, _ => sig

namespace RetrievalHistory

def maxEntries : ℕ := 8

def centroidDims : ℕ := 32

/-- No queries yet. -/
def default : RetrievalHistory F := ⟨[], []⟩

/-- The mean of the centroids. -/
def recomputeSignature [F32 F] (entries : List (RetrievalContext F)) : List F :=
  if entries.isEmpty then []
  else
    entries.foldl
      (fun sig entry => addCentroid entry.scale (F32.lit entries.length) sig
        (entry.centroidQ.take centroidDims))
      (List.replicate centroidDims (F32.lit 0))

/-- Append a query, dropping the oldest when full. -/
def push [F32 F] (h : RetrievalHistory F) (ctx : RetrievalContext F) : RetrievalHistory F :=
  let kept := if maxEntries ≤ h.entries.length then h.entries.tail else h.entries
  ⟨kept ++ [ctx], recomputeSignature (kept ++ [ctx])⟩

end RetrievalHistory

/-! ## The state -/

/-- The lifecycle status of a memory. -/
inductive MemoryStatus where
  | active
  | superseded
  | contradicted
  | archived
  | proposed
  | observed
  | verified
  deriving DecidableEq, Repr

/-- The status of a code; unknown codes are active. -/
def MemoryStatus.ofCode : ℕ → MemoryStatus
  | 1 => .superseded
  | 2 => .contradicted
  | 3 => .archived
  | 4 => .proposed
  | 5 => .observed
  | 6 => .verified
  | _ => .active

/-- How a memory was obtained. -/
inductive EpistemicStatus where
  | userStated
  | toolDerived
  | modelInferred
  | autonomousSynthesis
  deriving DecidableEq, Repr

/-- The epistemic status of a code; unknown codes are tool-derived. -/
def EpistemicStatus.ofCode : ℕ → EpistemicStatus
  | 0 => .userStated
  | 2 => .modelInferred
  | 3 => .autonomousSynthesis
  | _ => .toolDerived

/-- The mutable state of a memory. -/
structure MemoryState (F : Type) where
  memoryId : MemoryId
  currentVersion : ℕ
  currentChunkHash : ChunkHash
  deleted : Bool
  strength : F
  decayRate : F
  confidence : F
  accessCount : ℕ
  lastAccessedMs : ℤ
  lastStrengthenedMs : ℤ
  createdAtMs : ℤ
  pinned : Bool
  tier : ℕ
  lastStateOpTsMs : ℤ
  retrievalHistory : RetrievalHistory F
  embedPending : Bool
  status : MemoryStatus
  epistemicStatus : EpistemicStatus
  surprise : F
  accessTimestamps : List ℤ
  competitiveWeight : F
  lureRisk : F
  staged : Bool
  invalidatedBy : Option String
  utilityAlpha : F
  utilityBeta : F
  deriving DecidableEq

namespace MemoryState

variable [F32 F]

/-- The state of a new memory. -/
def new (memoryId : MemoryId) (chunkHash : ChunkHash) (createdAtMs : ℤ) : MemoryState F where
  memoryId := memoryId
  currentVersion := 0
  currentChunkHash := chunkHash
  deleted := false
  strength := F32.lit 1
  decayRate := F32.lit (1 / 1000)
  confidence := F32.lit 1
  accessCount := 0
  lastAccessedMs := createdAtMs
  lastStrengthenedMs := createdAtMs
  createdAtMs := createdAtMs
  pinned := false
  tier := 0
  lastStateOpTsMs := 0
  retrievalHistory := .default
  embedPending := false
  status := .active
  epistemicStatus := .toolDerived
  surprise := F32.lit 0
  accessTimestamps := []
  competitiveWeight := F32.lit 0
  lureRisk := F32.lit 0
  staged := true
  invalidatedBy := none
  utilityAlpha := F32.lit 1
  utilityBeta := F32.lit 1

/-- Accrue an outcome into the utility posterior.  A weight that is not positive is dropped. -/
def recordOutcome (s : MemoryState F) (success : Bool) (weight : F) : MemoryState F :=
  if !F32.lt (F32.lit 0) weight then s
  else if success then
    { s with utilityAlpha := F32.add s.utilityAlpha (F32.min weight (F32.lit 5)) }
  else { s with utilityBeta := F32.add s.utilityBeta (F32.min weight (F32.lit 5)) }

/-- Apply an explicit update at time `nowMs`, unless the fence drops it. -/
def applyDelta (s : MemoryState F) (delta : StateDeltaOp F) (nowMs : ℤ) : MemoryState F :=
  if 0 < delta.opTsMs ∧ delta.opTsMs ≤ s.lastStateOpTsMs then s
  else
    { s with
      lastStateOpTsMs := if 0 < delta.opTsMs then delta.opTsMs else s.lastStateOpTsMs
      strength := delta.strengthDelta.elim s.strength fun d =>
        F32.clamp (F32.add s.strength d) (F32.lit 0) (F32.lit 1)
      lastStrengthenedMs := delta.strengthDelta.elim s.lastStrengthenedMs fun d =>
        if F32.lt (F32.lit 0) d then nowMs else s.lastStrengthenedMs
      confidence := delta.confidenceDelta.elim s.confidence fun d =>
        F32.clamp (F32.add s.confidence d) (F32.lit 0) (F32.lit 1)
      decayRate := delta.decayRate.elim s.decayRate fun r => F32.max r (F32.lit 0)
      accessCount := if delta.touch then (s.accessCount + 1) % 2 ^ 32 else s.accessCount
      lastAccessedMs := if delta.touch then nowMs else s.lastAccessedMs
      accessTimestamps :=
        if delta.touch then
          (if 16 ≤ s.accessTimestamps.length then s.accessTimestamps.tail
            else s.accessTimestamps) ++ [nowMs]
        else s.accessTimestamps
      pinned := delta.pin.getD s.pinned
      status := delta.status.elim s.status MemoryStatus.ofCode
      epistemicStatus := delta.epistemicStatus.elim s.epistemicStatus EpistemicStatus.ofCode
      staged := delta.staged.getD s.staged
      invalidatedBy := delta.invalidatedBy.or s.invalidatedBy }

/-- The time at which replay applies an update. -/
def replayNow (s : MemoryState F) (delta : StateDeltaOp F) : ℤ :=
  if 0 < delta.opTsMs then delta.opTsMs else s.createdAtMs

/-- Count an access of a batch.  It never advances the fence, and it does not move a newer access
backwards. -/
def applyAccessDelta (s : MemoryState F) (delta : StateDeltaOp F) : MemoryState F :=
  let sorted := (s.accessTimestamps ++ [delta.opTsMs]).insertionSort (· ≤ ·)
  { s with
    accessCount := min (s.accessCount + 1) (2 ^ 32 - 1)
    decayRate :=
      if s.lastAccessedMs ≤ delta.opTsMs ∧ s.lastStateOpTsMs ≤ delta.opTsMs then
        delta.decayRate.elim s.decayRate fun rate => F32.max rate (F32.lit 0)
      else s.decayRate
    lastAccessedMs := max s.lastAccessedMs delta.opTsMs
    accessTimestamps := sorted.drop (sorted.length - 16) }

end MemoryState

end ChittaField
