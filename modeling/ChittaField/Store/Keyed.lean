import ChittaField.Store.Effects
import ChittaField.Store.KeyText

/-!
# The keyed lanes

What is done, corrections and tasks are found by the keys in their texts, in three indexes that are
extended when a memory is stored and that a start rebuilds from the live memories.

Forgetting a memory leaves the indexes as they are.  A lane that keeps one memory for a key then has
one that is dead, where a start finds another that carries the key (`keyed_lanes_agree`).
-/

namespace ChittaField

variable {F : Type}

/-- The store with its keyed indexes. -/
structure KeyedStore (F : Type) extends LiveStore F where
  provKeyIdx : String → Option MemoryId
  correctionKeyIdx : String → Option (List MemoryId)
  taskKeyIdx : String → Option MemoryId

/-- The keys of a payload in the lane of what is done. -/
def MemoryPayload.provKeys (p : MemoryPayload F) : List String :=
  if p.kind = "signal" then parseProvKeys p.content else []

/-! ## Lookups -/

/-- The content of a memory; a memory without a payload has none. -/
def LiveStore.contentOf (s : LiveStore F) (id : MemoryId) : Bytes :=
  ((s.ctx.payloads id).map (·.content)).getD []

namespace KeyedStore

/-- Look up what is done by the hash or the path of its input; the memory and its content. -/
def provenanceLookup (s : KeyedStore F) (sha input : String) : Option (MemoryId × Bytes) :=
  (provCandidates sha input).findSome? fun key =>
    ((s.provKeyIdx key).filter s.isAlive).map fun id => (id, s.contentOf id)

def maxFired : ℕ := 3

/-- The corrections that share at least two keys with a text, the newest first. -/
def firedCorrections (s : KeyedStore F) (keys : List String) : List MemoryId :=
  let hits := keys.flatMap fun k => (s.correctionKeyIdx k).getD []
  (hits.dedup.filter fun id => 2 ≤ hits.count id).insertionSort (· ≥ ·)

/-- The live corrections of a mistake that a text repeats: the newest, and the contents of up to
three. -/
def correctionCheck (s : KeyedStore F) (text : String) : Option (MemoryId × List Bytes) :=
  let keys := sortedKeys (correctionBigramKeys (normCorrectionTokens text.toList))
  if keys.length < 2 then none
  else
    let live := ((s.firedCorrections keys).filter s.isAlive).filter fun id =>
      (s.ctx.payloads id).isSome
    live.head?.map fun id => (id, (live.take maxFired).map s.contentOf)

/-- The key that a task is looked up by. -/
def taskQueryKey (id : String) : Option String :=
  let trimmed := trim id.toList
  normTaskKey ((stripPrefix "task:" trimmed).getD trimmed)

/-- Look up the state of a task; the memory and its content. -/
def taskStateLookup (s : KeyedStore F) (id : String) : Option (MemoryId × Bytes) :=
  (taskQueryKey id).bind fun key =>
    ((s.taskKeyIdx key).filter s.isAlive).map fun id => (id, s.contentOf id)

/-! ## Rebuilding -/

/-- The memories in the order in which a hash map is walked. -/
def Walks (s : LiveStore F) (walk : List (MemoryId × MemoryPayload F)) : Prop :=
  walk.Nodup ∧ ∀ id p, (id, p) ∈ walk ↔ s.ctx.payloads id = some p

/-- The time and the id of a memory. -/
def rank (r : MemoryId × MemoryPayload F) : ℤ ×ₗ MemoryId := toLex (r.2.createdAtMs, r.1)

/-- A memory is not marked as deleted. -/
def notDeleted (s : LiveStore F) (id : MemoryId) : Bool :=
  !((s.ctx.states id).map (·.deleted)).getD false

/-- The memories that pass a gate and are not deleted, in order. -/
def liveRecords (s : LiveStore F) (walk : List (MemoryId × MemoryPayload F))
    (gate : MemoryPayload F → Bool) : List (MemoryId × MemoryPayload F) :=
  (walk.filter fun r => gate r.2 && notDeleted s r.1).insertionSort fun a b => rank a ≤ rank b

/-- Rebuild the indexes from the live memories. -/
def rebuildKeyedIndexes (s : KeyedStore F) (walk : List (MemoryId × MemoryPayload F)) :
    KeyedStore F :=
  { s with
    provKeyIdx := Lanes.first Prod.fst (fun r : MemoryId × MemoryPayload F =>
      parseProvKeys r.2.content) (liveRecords s.toLiveStore walk fun p =>
        p.kind == "signal" && startsWithBytes "[done]" p.content)
    correctionKeyIdx := Lanes.all Prod.fst (fun r : MemoryId × MemoryPayload F =>
      parseCorrectionKeys r.2.content)
        (liveRecords s.toLiveStore walk fun p => isCorrectionLead p.content)
    taskKeyIdx := Lanes.latest Prod.fst (fun r : MemoryId × MemoryPayload F =>
      parseTaskKeys r.2.content)
        (liveRecords s.toLiveStore walk fun p => startsWithBytes "[task]" p.content) }

/-! ## Runs -/

variable [F32 F]

/-- A call stores a memory. -/
def stores (cfg : WriteConfig F) (s : LiveStore F) (call : LiveStore.PutCall F)
    (env : LiveStore.PutEnv F) : Bool :=
  (call.embedding.isEmpty || call.embedding.length == cfg.embedDim) &&
    (s.duplicateOf cfg call env.nearest).isNone && env.append.isOk

/-- Store a memory, and index it if it is new. -/
def putMemory (cfg : WriteConfig F) (s : KeyedStore F) (call : LiveStore.PutCall F)
    (env : LiveStore.PutEnv F) : KeyedStore F :=
  let live := (s.toLiveStore.putMemory cfg call env).1
  if stores cfg s.toLiveStore call env then
    { toLiveStore := live
      provKeyIdx :=
        if call.kind = "signal" then
          Lanes.indexFirst s.provKeyIdx s.nextId (parseProvKeys call.content)
        else s.provKeyIdx
      correctionKeyIdx :=
        Lanes.indexAll s.correctionKeyIdx s.nextId (parseCorrectionKeys call.content)
      taskKeyIdx := Lanes.indexLatest s.taskKeyIdx s.nextId (parseTaskKeys call.content) }
  else { s with toLiveStore := live }

omit [F32 F] in
/-- Forget a memory.  The indexes stay. -/
def forget (s : KeyedStore F) (id : MemoryId) (env : LiveStore.ForgetEnv F) : KeyedStore F :=
  { s with toLiveStore := (s.toLiveStore.forget id env).1 }

/-- A call. -/
inductive Call (F : Type) where
  | putMemory (call : LiveStore.PutCall F) (env : LiveStore.PutEnv F)
  | forget (id : MemoryId) (env : LiveStore.ForgetEnv F)

/-- Make a call. -/
def step (cfg : WriteConfig F) (s : KeyedStore F) : Call F → KeyedStore F
  | .putMemory call env => s.putMemory cfg call env
  | .forget id env => s.forget id env

omit [F32 F] in
/-- A store without memories. -/
def empty (firstId : MemoryId) : KeyedStore F :=
  { LiveStore.empty firstId with
    provKeyIdx := fun _ => none
    correctionKeyIdx := fun _ => none
    taskKeyIdx := fun _ => none }

/-- Make calls one after the other. -/
def run (cfg : WriteConfig F) (s : KeyedStore F) (calls : List (Call F)) : KeyedStore F :=
  calls.foldl (step cfg) s

end KeyedStore

end ChittaField
