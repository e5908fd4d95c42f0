import ChittaField.Lib.Maps
import ChittaField.Memory.State

/-!
# Applying operations

`applyOp` is the one place where an operation of the log changes the in-memory maps: startup replay
and foreign sync both go through it.  The maps here are those of the memories: their payloads, their
states, the edges between them and the statistics of how often two were retrieved together.  The
other operations belong to organs and indexes.
-/

namespace ChittaField

variable {F : Type}

/-! ## Payloads and edges -/

/-- The payload of a memory. -/
structure MemoryPayload (F : Type) where
  memoryId : MemoryId
  version : ℕ
  chunkHash : ChunkHash
  createdAtMs : ℤ
  authoredAtMs : ℤ
  kind : String
  realm : String
  content : Bytes
  embeddingModel : String
  embedding : List F
  artifactRefs : List ArtifactRef
  sourceSession : Option String
  sourceTool : Option String
  harness : Option String
  provenance : String
  candidate : Bool
  embeddingModelId : String
  embeddingDim : ℕ

/-- The payload that an operation stores. -/
def MemoryPayload.ofPut (op : PutPayloadOp F) : MemoryPayload F where
  memoryId := op.memoryId
  version := op.version
  chunkHash := op.chunkHash
  createdAtMs := op.createdAtMs
  authoredAtMs := op.authoredAtMs
  kind := op.kind
  realm := op.realm
  content := op.content
  embeddingModel := op.embeddingModel
  embedding := op.embedding
  artifactRefs := op.artifactRefs
  sourceSession := op.sourceSession
  sourceTool := op.sourceTool
  harness := op.harness
  provenance := "human"
  candidate := false
  embeddingModelId := op.embeddingModelId
  embeddingDim := op.embeddingDim

/-- An outgoing edge of a memory. -/
structure AssocEdge (F : Type) where
  dst : MemoryId
  edgeType : EdgeType
  weight : F
  deriving DecidableEq

/-- The outgoing edges of all memories. -/
abbrev AssocEdges (F : Type) := MemoryId → Option (List (AssocEdge F))

/-- How often two memories were retrieved together. -/
structure CoActivationStats where
  simCount : ℕ
  recentContextHashes : List ℕ
  diversityCount : ℕ
  lastSeenMs : ℤ
  deriving DecidableEq

namespace CoActivationStats

def maxHashes : ℕ := 64

def default : CoActivationStats := ⟨0, [], 0, 0⟩

/-- Count a common retrieval. -/
def record (s : CoActivationStats) (contextHash : ℕ) (tsMs : ℤ) : CoActivationStats :=
  let hashes :=
    if contextHash ∈ s.recentContextHashes then s.recentContextHashes
    else (if maxHashes ≤ s.recentContextHashes.length then s.recentContextHashes.tail
      else s.recentContextHashes) ++ [contextHash]
  ⟨(s.simCount + 1) % 2 ^ 32, hashes, hashes.length, tsMs⟩

def hebbianMultiplier [F32 F] (s : CoActivationStats) : F :=
  F32.min (F32.mul (F32.lit s.simCount) (F32.lit s.diversityCount)) (F32.lit 16)

end CoActivationStats

/-- Strengthen the first edge to a memory, or add one. -/
def strengthenEdges [F32 F] (dst : MemoryId) (edgeType : EdgeType) (delta : F) :
    List (AssocEdge F) → List (AssocEdge F)
  | [] => [⟨dst, edgeType, F32.clamp delta (F32.lit 0) (F32.lit 1)⟩]
  | e :: es =>
    if e.dst = dst ∧ e.edgeType = edgeType then
      { e with weight := F32.min (F32.add e.weight delta) (F32.lit 1) } :: es
    else e :: strengthenEdges dst edgeType delta es

/-- Strengthen an edge in both directions. -/
def strengthenAssocEdgeMap [F32 F] (edges : AssocEdges F) (src dst : MemoryId)
    (edgeType : EdgeType) (delta : F) : AssocEdges F :=
  let forward := Function.update edges src
    (some (strengthenEdges dst edgeType delta ((edges src).getD [])))
  Function.update forward dst (some (strengthenEdges src edgeType delta ((forward dst).getD [])))

/-- Remove the edges from and to a memory. -/
def removeEdges (edges : AssocEdges F) (id : MemoryId) : AssocEdges F := fun src =>
  if src = id then none else (edges src).map (List.filter fun e => e.dst ≠ id)

/-! ## The maps -/

/-- The maps of the memories. -/
structure ApplyCtx (F : Type) where
  payloads : MemoryId → Option (MemoryPayload F)
  states : MemoryId → Option (MemoryState F)
  assocEdges : AssocEdges F
  coactivationStats : MemoryId × MemoryId → Option CoActivationStats

namespace ApplyCtx

/-- No memories. -/
def empty : ApplyCtx F := ⟨fun _ => none, fun _ => none, fun _ => none, fun _ => none⟩

/-- Change the state of a memory, if there is one. -/
def modifyState (ctx : ApplyCtx F) (id : MemoryId) (f : MemoryState F → MemoryState F) :
    ApplyCtx F :=
  { ctx with states := Maps.modifyAt ctx.states id f }

/-- Change the payload of a memory, if there is one. -/
def modifyPayload (ctx : ApplyCtx F) (id : MemoryId) (f : MemoryPayload F → MemoryPayload F) :
    ApplyCtx F :=
  { ctx with payloads := Maps.modifyAt ctx.payloads id f }

/-- The two memories' edge after they were retrieved together. -/
def coRetrieve [F32 F] (b : RecordRecallBatchOp F) (ctx : ApplyCtx F)
    (pair : MemoryId × MemoryId) : ApplyCtx F :=
  let key := (min pair.1 pair.2, max pair.1 pair.2)
  let stats := ((ctx.coactivationStats key).getD .default).record b.contextHash b.tsMs
  { ctx with
    coactivationStats := Function.update ctx.coactivationStats key (some stats)
    assocEdges := strengthenAssocEdgeMap ctx.assocEdges pair.1 pair.2 .coRetrieved
      (F32.mul b.baseAssocDelta stats.hebbianMultiplier) }

end ApplyCtx

/-- The pairs of a list, in the order of two nested loops. -/
def pairs {α : Type} : List α → List (α × α)
  | [] => []
  | x :: xs => xs.map (fun y => (x, y)) ++ pairs xs

/-- Apply an operation to the maps of the memories. -/
def applyOp [F32 F] (op : Op F) (ctx : ApplyCtx F) : ApplyCtx F :=
  match op with
  | .putPayload put =>
    { ctx with
      states := Function.update ctx.states put.memoryId
        (some { (ctx.states put.memoryId).getD (.new put.memoryId put.chunkHash put.createdAtMs) with
          currentVersion := put.version
          currentChunkHash := put.chunkHash })
      payloads := Function.update ctx.payloads put.memoryId
        (some { MemoryPayload.ofPut put with embedding := [] }) }
  | .updateStateBatch deltas =>
    deltas.foldl (fun ctx d => ctx.modifyState d.memoryId (·.applyAccessDelta d)) ctx
  | .updateState d => ctx.modifyState d.memoryId fun s => s.applyDelta d (s.replayNow d)
  | .deleteMemory d =>
    { (ctx.modifyState d.memoryId ({ · with deleted := true })).modifyPayload d.memoryId
        ({ · with content := [] }) with
      assocEdges := removeEdges ctx.assocEdges d.memoryId
      coactivationStats := fun key =>
        if key.1 ≠ d.memoryId ∧ key.2 ≠ d.memoryId then ctx.coactivationStats key else none }
  | .addAssocEdge e =>
    { ctx with
      assocEdges := Function.update ctx.assocEdges e.src
        (some ((ctx.assocEdges e.src).getD [] ++ [⟨e.dst, e.edgeType, e.weight⟩])) }
  | .demoteMemory d => ctx.modifyState d.memoryId ({ · with tier := d.newTier })
  | .recordOutcome r => ctx.modifyState r.memoryId (·.recordOutcome r.success r.weight)
  | .updateMemoryContent u =>
    if u.embedding.isEmpty then ctx.modifyPayload u.memoryId ({ · with content := u.content })
    else
      (ctx.modifyPayload u.memoryId ({ · with content := u.content, embedding := [] })).modifyState
        u.memoryId ({ · with embedPending := false })
  | .updateMemoryKind u => ctx.modifyPayload u.memoryId ({ · with kind := u.newKind })
  | .recordRecallBatch b =>
    let touched := b.memoryIds.foldl (fun ctx id => ctx.modifyState id fun s =>
      { s with
        accessCount := (s.accessCount + 1) % 2 ^ 32
        lastAccessedMs := b.tsMs
        retrievalHistory := s.retrievalHistory.push
          ⟨b.centroidQ, b.centroidScale, b.contextHash, b.tsMs⟩ }) ctx
    (pairs b.memoryIds).foldl (ApplyCtx.coRetrieve b) touched
  | .strengthenAssocEdge e =>
    { ctx with
      assocEdges := strengthenAssocEdgeMap ctx.assocEdges e.src e.dst e.edgeType e.delta }
  | _ => ctx

end ChittaField
