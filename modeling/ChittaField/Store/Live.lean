import ChittaField.Log.Reader
import ChittaField.Memory.Apply

/-!
# Writing to the live store

The operations by which a running field stores, updates, forgets and links memories.  Each appends
to the log what it does and then does it to the maps in memory, by code of its own: `applyOp`, by
which a later replay repeats it from the log, is not called here.

What the clock, the indexes, the learners and the file system answer is an input of each call, as
are the operations that it logs for organs (`SideOp`): none of these change the maps.
-/

namespace ChittaField

variable {F : Type}

/-! ## Kinds of memories -/

/-- What a memory is evidence of. -/
inductive MemoryKind where
  | thought
  | observation
  | decision
  | codeFact
  deriving DecidableEq, Repr

/-- A text occurs in another. -/
def occursIn (pat s : String) : Bool := decide (pat.toList <:+: s.toList)

/-- Infer the kind from labels and tags.  The letters of the words are ASCII, so it does not matter
how other letters become lower case. -/
def MemoryKind.infer (kind realm contentPrefix : String) : MemoryKind :=
  let k := kind.toLower
  if k ∈ ["code_context", "read_symbol", "find_symbol", "code_fact", "symbol", "callgraph",
      "search_symbols", "read_function"] then .codeFact
  else if occursIn "code" realm || occursIn "symbol" realm then .codeFact
  else if occursIn "[decision]" contentPrefix || occursIn "[decided]" contentPrefix ||
      occursIn "decision" k then .decision
  else if occursIn "[thought]" contentPrefix || occursIn "[synthesis]" contentPrefix ||
      occursIn "thought" k then .thought
  else .observation

/-- An observation or a decision must not cite speculation. -/
def edgeLegal : MemoryKind → MemoryKind → Bool
  | .observation, .thought => false
  | .decision, .thought => false
  | _, _ => true

/-- The first 200 bytes of a text.  A shorter one, and one that cannot be cut there, has none. -/
def contentHead (content : Bytes) : String :=
  if content.length < 200 then ""
  else
    match String.fromUTF8? ⟨content.toArray⟩, String.fromUTF8? ⟨(content.take 200).toArray⟩ with
    | some _, some head => head
    | _, _ => ""

def MemoryPayload.inferKind (p : MemoryPayload F) : MemoryKind :=
  .infer p.kind p.realm (contentHead p.content)

/-! ## The store -/

/-- Operations for the artifacts, the triplets and the sparse codes. -/
def isSideOp : Op F → Bool
  | .upsertArtifact _ => true
  | .addTriplet _ => true
  | .invalidateTriplet _ => true
  | .supersedeTriplet _ => true
  | .updateSparseCode _ => true
  | _ => false

/-- An operation that a call logs for an organ. -/
abbrev SideOp (F : Type) := {op : Op F // isSideOp op = true}

/-- The build constants, hashes and settings of a store. -/
structure WriteConfig (F : Type) where
  embedDim : ℕ
  embedModelId : String
  computeChunkHash : String → String → Bytes → List F → ChunkHash
  contentHash : Bytes → ℕ
  dedupCosineThreshold : F
  dedupCosineUpper : F
  densifyEnabled : Bool

/-- The maps in memory, the indexes that the write operations ask, and what they have logged. -/
structure LiveStore (F : Type) where
  ctx : ApplyCtx F
  nextId : MemoryId
  chunkHashIdx : ChunkHash → Option MemoryId
  contentProvIdx : ℕ → Option MemoryId
  sessionRecent : String → List MemoryId
  wal : List (Op F)

namespace LiveStore

/-- An empty store whose first memory will be `firstId`. -/
def empty (firstId : MemoryId) : LiveStore F :=
  ⟨.empty, firstId, fun _ => none, fun _ => none, fun _ => [], []⟩

/-- Log operations for organs. -/
def logSide (s : LiveStore F) (ops : List (SideOp F)) : LiveStore F :=
  { s with wal := s.wal ++ ops.map Subtype.val }

def isAlive (s : LiveStore F) (id : MemoryId) : Bool :=
  ((s.ctx.states id).map fun st => !st.deleted).getD false

/-! ## Updating and forgetting -/

/-- Update the state of a memory. -/
def updateState [F32 F] (s : LiveStore F) (memoryId : MemoryId)
    (strengthDelta confidenceDelta decayRate : Option F) (touch : Bool) (pin : Option Bool) (ts : ℤ)
    (append : Except FieldError Unit) : LiveStore F × Except FieldError Unit :=
  match s.ctx.states memoryId with
  | none => (s, .error (.notFound memoryId))
  | some state =>
    if state.deleted then (s, .error (.deleted memoryId))
    else
      match append with
      | .error e => (s, .error e)
      | .ok () =>
        let delta : StateDeltaOp F :=
          ⟨memoryId, strengthDelta, confidenceDelta, decayRate, touch, pin, ts, none, none, none,
            none⟩
        ({ s with
           ctx := s.ctx.modifyState memoryId (·.applyDelta delta ts)
           wal := s.wal ++ [.updateState delta] }, .ok ())

/-- What forgetting meets: the clock, whether the append and the sync of the log succeed, and the
triplets of the memory. -/
structure ForgetEnv (F : Type) where
  ts : ℤ
  append : Except FieldError Unit
  sync : Except FieldError Unit
  invalidated : List (SideOp F)

/-- The maps without a memory's content and edges. -/
def forgotten (ctx : ApplyCtx F) (memoryId : MemoryId) : ApplyCtx F where
  payloads := Maps.modifyAt ctx.payloads memoryId ({ · with content := [] })
  states := Maps.modifyAt ctx.states memoryId ({ · with deleted := true })
  assocEdges := removeEdges ctx.assocEdges memoryId
  coactivationStats := fun key =>
    if key.1 ≠ memoryId ∧ key.2 ≠ memoryId then ctx.coactivationStats key else none

/-- Forget a memory. -/
def forget (s : LiveStore F) (memoryId : MemoryId) (env : ForgetEnv F) :
    LiveStore F × Except FieldError Unit :=
  match s.ctx.states memoryId with
  | none => (s, .error (.notFound memoryId))
  | some _ =>
    match env.append with
    | .error e => (s, .error e)
    | .ok () =>
      let s := { s with wal := s.wal ++ [.deleteMemory ⟨memoryId, env.ts⟩] }
      match env.sync with
      -- the deletion stays in the log, though it has not been done
      | .error e => (s, .error e)
      | .ok () => ({ s with ctx := forgotten s.ctx memoryId }.logSide env.invalidated, .ok ())

/-! ## Linking -/

/-- What linking meets: the triplets that it logs when the edge is blocked, and whether the append
succeeds. -/
structure EdgeEnv (F : Type) where
  blocked : List (SideOp F)
  append : Except FieldError Unit

/-- The edge would launder speculation into evidence. -/
def edgeBlocked (s : LiveStore F) (src dst : MemoryId) (edgeType : EdgeType) : Bool :=
  if edgeType = .semanticNeighbor then false
  else
    match s.ctx.payloads src, s.ctx.payloads dst with
    | some sp, some dp => sp.candidate && !dp.candidate || !edgeLegal sp.inferKind dp.inferKind
    | _, _ => false

/-- Raise the weight of the edge to a memory, or add one. -/
def mergeEdge [F32 F] (dst : MemoryId) (edgeType : EdgeType) (weight : F) :
    List (AssocEdge F) → List (AssocEdge F)
  | [] => [⟨dst, edgeType, weight⟩]
  | e :: es =>
    if e.dst = dst ∧ e.edgeType = edgeType then { e with weight := F32.max e.weight weight } :: es
    else e :: mergeEdge dst edgeType weight es

/-- Link two memories. -/
def addAssocEdge [F32 F] (s : LiveStore F) (src dst : MemoryId) (edgeType : EdgeType) (weight : F)
    (env : EdgeEnv F) : LiveStore F × Except FieldError Unit :=
  match s.ctx.states src with
  | none => (s, .error (.notFound src))
  | some srcState =>
    if srcState.deleted then (s, .error (.deleted src))
    else
      match s.ctx.states dst with
      | none => (s, .error (.notFound dst))
      | some dstState =>
        if dstState.deleted then (s, .error (.deleted dst))
        else if s.edgeBlocked src dst edgeType then (s.logSide env.blocked, .error (.notFound dst))
        else
          match env.append with
          | .error e => (s, .error e)
          | .ok () =>
            ({ s with
               ctx := { s.ctx with
                 assocEdges := Function.update s.ctx.assocEdges src
                   (some (mergeEdge dst edgeType weight ((s.ctx.assocEdges src).getD []))) }
               wal := s.wal ++ [.addAssocEdge ⟨src, dst, edgeType, weight⟩] }, .ok ())

def densifyK : ℕ := 3

/-- Link a new memory with its siblings in both directions, the older ones more weakly. -/
def densifyLoop [F32 F] (newId : MemoryId) (env : MemoryId × MemoryId → EdgeEnv F) :
    List MemoryId → F → LiveStore F → LiveStore F
  | [], _, s => s
  | prev :: rest, weight, s =>
    let s := (s.addAssocEdge newId prev .sameSession weight (env (newId, prev))).1
    let s := (s.addAssocEdge prev newId .sameSession weight (env (prev, newId))).1
    densifyLoop newId env rest (F32.mul weight (F32.lit (7 / 10))) s

/-- The siblings of a new memory: the latest of its session that live in its realm. -/
def siblings (s : LiveStore F) (newId : MemoryId) (realm session : String) : List MemoryId :=
  (((s.sessionRecent session).reverse.filter (· ≠ newId)).filter fun id =>
    ((s.ctx.payloads id).map fun p => decide (p.realm = realm)).getD false && s.isAlive id).take
      densifyK

/-- Link a new memory with its siblings and add it to its session. -/
def densifyWriteEdges [F32 F] (cfg : WriteConfig F) (s : LiveStore F) (newId : MemoryId)
    (realm : String) (session : Option String) (env : MemoryId × MemoryId → EdgeEnv F) :
    LiveStore F :=
  match session with
  | none => s
  | some session =>
    if !cfg.densifyEnabled || session = "" || newId ∈ s.sessionRecent session then s
    else
      let linked := densifyLoop newId env (s.siblings newId realm session) (F32.lit (6 / 10)) s
      let ring := linked.sessionRecent session ++ [newId]
      { linked with
        sessionRecent := Function.update linked.sessionRecent session
          (ring.drop (ring.length - densifyK)) }

/-! ## Storing -/

/-- The arguments of `put_memory`. -/
structure PutCall (F : Type) where
  kind : String
  realm : String
  content : Bytes
  embedding : List F
  confidence : F
  decayRate : F
  authoredAtMs : ℤ
  artifactRefs : List ArtifactRef
  sourceSession : Option String
  sourceTool : Option String

/-- What storing meets: the clock, what the semantic index finds next to the embedding before and
after it is inserted, the surprise of the sparse encoder, the surprisal of the event tape, and the
operations that are logged. -/
structure PutEnv (F : Type) where
  ts : ℤ
  nearest : Option (MemoryId × F)
  neighbors : List (MemoryId × F)
  surprise : Option F
  combinedSurprisal : Option F
  derivedRefs : List ArtifactRef
  derived : List (SideOp F)
  append : Except FieldError Unit
  encoded : List (SideOp F)
  replication : Except FieldError (List (SideOp F))
  densify : MemoryId × MemoryId → EdgeEnv F

def minEmbedChars : ℕ := 20

namespace PutCall

/-- The embedding will be computed later. -/
def embedPending (call : PutCall F) : Bool :=
  call.embedding.isEmpty && minEmbedChars ≤ call.content.length

/-- The key of a signal that says that something is done: `[done]` starts it. -/
def provKey (cfg : WriteConfig F) (call : PutCall F) : Option ℕ :=
  if call.kind = "signal" ∧ [91, 100, 111, 110, 101, 93] <+: call.content then
    some (cfg.contentHash call.content)
  else none

def chunkHash (cfg : WriteConfig F) (call : PutCall F) : ChunkHash :=
  cfg.computeChunkHash call.kind call.realm call.content call.embedding

end PutCall

/-- The memory that is stored already, and how much confidence it gains. -/
def duplicateOf [F32 F] (cfg : WriteConfig F) (s : LiveStore F) (call : PutCall F)
    (nearest : Option (MemoryId × F)) : Option (MemoryId × F) :=
  match (call.provKey cfg).bind s.contentProvIdx |>.filter s.isAlive with
  | some id => some (id, F32.lit (3 / 100))
  | none =>
    match (s.chunkHashIdx (call.chunkHash cfg)).filter s.isAlive with
    | some id => some (id, F32.lit (5 / 100))
    | none =>
      if call.embedPending then none
      else
        match nearest with
        | none => none
        | some (id, cosine) =>
          if F32.le cfg.dedupCosineThreshold cosine && F32.lt cosine cfg.dedupCosineUpper &&
              ((s.ctx.payloads id).map MemoryPayload.realm).getD "" = call.realm && s.isAlive id
          then some (id, F32.lit (2 / 100))
          else none

/-- A new memory surprises so much that it is burned in. -/
def burnsIn [F32 F] (combinedSurprisal : Option F) : Bool :=
  (combinedSurprisal.map (F32.lt (F32.lit 2))).getD false

/-- The decay rate of a new memory: one that is burned in decays more slowly. -/
def burnIn [F32 F] (combinedSurprisal : Option F) (decayRate : F) : F :=
  if burnsIn combinedSurprisal then
    F32.max (F32.mul decayRate (F32.lit (5 / 10))) (F32.lit (1 / 1000000))
  else decayRate

/-- How crowded the neighborhood of a new memory is, and how much so by its own kind. -/
def interference [F32 F] (cfg : WriteConfig F) (payloads : MemoryId → Option (MemoryPayload F))
    (memoryId : MemoryId) (kind : String) (neighbors : List (MemoryId × F)) : Option (F × F) :=
  let counted := neighbors.filter fun n => n.1 ≠ memoryId && !F32.le cfg.dedupCosineUpper n.2
  let sameKind := counted.filter fun n =>
    ((payloads n.1).map fun p => decide (p.kind = kind)).getD false
  if neighbors.length ≤ 1 ∨ counted.length = 0 then none
  else
    let cw := F32.div (counted.foldl (fun sum n => F32.add sum n.2) (F32.lit 0))
      (F32.lit counted.length)
    some (cw, F32.mul cw (F32.div (F32.lit sameKind.length) (F32.lit counted.length)))

/-- The operation that stores a new memory. -/
def putOp (cfg : WriteConfig F) (memoryId : MemoryId) (call : PutCall F) (env : PutEnv F) :
    PutPayloadOp F where
  memoryId := memoryId
  version := 0
  chunkHash := call.chunkHash cfg
  createdAtMs := env.ts
  authoredAtMs := if call.authoredAtMs = 0 then env.ts else call.authoredAtMs
  kind := call.kind
  realm := call.realm
  content := call.content
  embeddingModel := if call.embedPending then "none" else cfg.embedModelId
  embedding := call.embedding
  artifactRefs := if call.artifactRefs.isEmpty then env.derivedRefs else call.artifactRefs
  sourceSession := call.sourceSession
  sourceTool := call.sourceTool
  harness := call.sourceTool.map fun t =>
    if "codex".toList <+: t.toList then "codex" else "claude-code"
  embeddingModelId := if call.embedPending then "" else cfg.embedModelId
  embeddingDim := if call.embedPending then 0 else cfg.embedDim

/-- The state of a new memory.  Confidence, decay rate and what the indexes found are not logged. -/
def newState [F32 F] (cfg : WriteConfig F) (payloads : MemoryId → Option (MemoryPayload F))
    (memoryId : MemoryId) (call : PutCall F) (env : PutEnv F) : MemoryState F :=
  let crowding :=
    if call.embedPending then none
    else interference cfg payloads memoryId call.kind env.neighbors
  { MemoryState.new memoryId (call.chunkHash cfg) env.ts with
    confidence := call.confidence
    decayRate := burnIn env.combinedSurprisal call.decayRate
    embedPending := call.embedPending
    competitiveWeight := (crowding.map Prod.fst).getD (F32.lit 0)
    lureRisk := (crowding.map Prod.snd).getD (F32.lit 0)
    surprise := env.surprise.getD (F32.lit 0) }

/-- The payload of a new memory; the semantic index keeps its embedding. -/
def newPayload (op : PutPayloadOp F) (embedPending : Bool) : MemoryPayload F :=
  if embedPending then .ofPut op else { MemoryPayload.ofPut op with embedding := [] }

/-- The maps with a new memory. -/
def stored (ctx : ApplyCtx F) (memoryId : MemoryId) (payload : MemoryPayload F)
    (state : MemoryState F) : ApplyCtx F :=
  { ctx with
    payloads := Function.update ctx.payloads memoryId (some payload)
    states := Function.update ctx.states memoryId (some state) }

/-- Store a memory that is not there yet. -/
def putNew [F32 F] (cfg : WriteConfig F) (s : LiveStore F) (call : PutCall F) (env : PutEnv F) :
    LiveStore F × Except FieldError (MemoryId × ChunkHash) :=
  let id := s.nextId
  let op := putOp cfg id call env
  let s := { s.logSide (if call.artifactRefs.isEmpty then env.derived else []) with
    nextId := id + 1 }
  match env.append with
  | .error e => (s, .error e)
  | .ok () =>
    let payload := newPayload op call.embedPending
    let ctx := stored s.ctx id payload
      (newState cfg (Function.update s.ctx.payloads id (some payload)) id call env)
    let s := { s with
      ctx := ctx
      chunkHashIdx := Maps.orInsert s.chunkHashIdx op.chunkHash id
      contentProvIdx := match call.provKey cfg with
        | some key => Maps.orInsert s.contentProvIdx key id
        | none => s.contentProvIdx
      wal := s.wal ++ [Op.putPayload op] }.logSide env.encoded
    (s.densifyWriteEdges cfg id call.realm call.sourceSession env.densify, .ok (id, op.chunkHash))

/-- Store a memory, or reinforce the one that is stored already. -/
def putMemory [F32 F] (cfg : WriteConfig F) (s : LiveStore F) (call : PutCall F) (env : PutEnv F) :
    LiveStore F × Except FieldError (MemoryId × ChunkHash) :=
  if !call.embedding.isEmpty && call.embedding.length ≠ cfg.embedDim then
    (s, .error (.invalidEmbedDim cfg.embedDim call.embedding.length))
  else
    match s.duplicateOf cfg call env.nearest with
    | some (id, boost) =>
      let s := (s.updateState id (some (F32.lit 0)) (some boost) none true none env.ts env.append).1
      match env.replication with
      | .error e => (s, .error e)
      | .ok sessions => (s.logSide sessions, .ok (id, call.chunkHash cfg))
    | none => s.putNew cfg call env

/-! ## Runs -/

/-- A call of a write operation. -/
inductive WriteCall (F : Type) where
  | putMemory (call : PutCall F) (env : PutEnv F)
  | updateState (memoryId : MemoryId) (strengthDelta confidenceDelta decayRate : Option F)
      (touch : Bool) (pin : Option Bool) (ts : ℤ) (append : Except FieldError Unit)
  | forget (memoryId : MemoryId) (env : ForgetEnv F)
  | addAssocEdge (src dst : MemoryId) (edgeType : EdgeType) (weight : F) (env : EdgeEnv F)

/-- Make a call. -/
def step [F32 F] (cfg : WriteConfig F) (s : LiveStore F) : WriteCall F → LiveStore F
  | .putMemory call env => (s.putMemory cfg call env).1
  | .updateState id strengthDelta confidenceDelta decayRate touch pin ts append =>
    (s.updateState id strengthDelta confidenceDelta decayRate touch pin ts append).1
  | .forget id env => (s.forget id env).1
  | .addAssocEdge src dst edgeType weight env => (s.addAssocEdge src dst edgeType weight env).1

/-- Make calls one after the other. -/
def run [F32 F] (cfg : WriteConfig F) (s : LiveStore F) (calls : List (WriteCall F)) :
    LiveStore F :=
  calls.foldl (step cfg) s

end LiveStore

end ChittaField
