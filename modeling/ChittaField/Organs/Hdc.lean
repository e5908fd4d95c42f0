import Mathlib.Data.Finset.Card
import ChittaField.Lib.Lossy
import ChittaField.Lib.Replayed
import ChittaField.Memory.Indexes

/-!
# The hyperdimensional index

A text becomes a vector of many bits: the majority of the vectors of its words, which are drawn from
the hashes of the words.  The index has the vector of each memory, the memories of each realm, and
for each realm how often every bit is set.

The index is not logged.  Storing a memory inserts it, forgetting one removes it, and a checkpoint
writes the index to a file of its own.  An open loads such a file, or rebuilds the index from the
live memories where there is none.
-/

namespace ChittaField

/-! ## Vectors -/

namespace Hdc

/-- The words of 64 bits of a vector. -/
abbrev D : ℕ := 128

end Hdc

/-- A vector of bits. -/
abbrev HdcVec := Fin Hdc.D → UInt64

namespace Hdc

def xorshift64 (s : UInt64) : UInt64 :=
  let s := s ^^^ (s <<< 13)
  let s := s ^^^ (s >>> 7)
  s ^^^ (s <<< 17)

def fnv1a64 (bytes : List UInt8) : UInt64 :=
  bytes.foldl (fun h b => (h * 0x100000001b3) ^^^ b.toUInt64) 0xcbf29ce484222325

/-- The vector of a word. -/
def wordHv (word : String) : HdcVec := fun i =>
  xorshift64^[i + 1] (fnv1a64 (word.toList.flatMap String.utf8EncodeChar) + 1)

/-- A bit of a word of a vector. -/
def bit (hv : HdcVec) (wi : Fin D) (b : ℕ) : Bool := (hv wi >>> UInt64.ofNat b) &&& 1 == 1

/-- The vector with the bits given. -/
def ofBits (bits : Fin D → ℕ → Bool) : HdcVec := fun wi =>
  (List.range 64).foldl (fun out b => if bits wi b then out ||| (1 <<< UInt64.ofNat b) else out) 0

/-- The majority of vectors.  The counters stop at 65535. -/
def bundle (vecs : List HdcVec) : HdcVec :=
  if vecs.isEmpty then fun _ => 0
  else ofBits fun wi b =>
    vecs.length % 2 ^ 32 / 2 + 1 ≤ min (vecs.countP fun hv => bit hv wi b) 65535

/-- The vector of a text. -/
def encode (T : Casing) (text : String) : HdcVec :=
  bundle (((text.toList.splitOnP fun c => !T.isAlphanumeric c).filter fun t =>
    2 ≤ (String.ofList t).utf8ByteSize).map fun t => wordHv (T.toLowercase (String.ofList t)))

end Hdc

/-- How often each bit is set in the vectors of a realm. -/
structure RealmBundle where
  counts : Fin Hdc.D → ℕ → ℕ
  n : ℕ

namespace RealmBundle

def default : RealmBundle := ⟨fun _ _ => 0, 0⟩

def add (r : RealmBundle) (hv : HdcVec) : RealmBundle where
  counts wi b := if Hdc.bit hv wi b then min (r.counts wi b + 1) 65535 else r.counts wi b
  n := r.n + 1

def remove (r : RealmBundle) (hv : HdcVec) : RealmBundle :=
  if r.n = 0 then r
  else
    { counts := fun wi b => if Hdc.bit hv wi b then r.counts wi b - 1 else r.counts wi b
      n := r.n - 1 }

end RealmBundle

/-! ## The index -/

/-- What a file of the index has. -/
structure HdcSidecar where
  memories : MemoryId → Option HdcVec
  /-- The keys of `memories`. -/
  ids : Finset MemoryId
  realmBundles : String → Option RealmBundle
  realmMembers : String → Option (Finset MemoryId)

/-- The index. -/
structure HdcStore extends HdcSidecar where
  mutations : ℕ

namespace HdcStore

def new : HdcStore := ⟨⟨fun _ => none, ∅, fun _ => none, fun _ => none⟩, 0⟩

/-- Register the text of a memory. -/
def insert (T : Casing) (h : HdcStore) (id : MemoryId) (text realm : String) : HdcStore where
  memories := Function.update h.memories id (some (Hdc.encode T text))
  ids := Insert.insert id h.ids
  realmBundles := Function.update h.realmBundles realm
    (some (((h.realmBundles realm).getD .default).add (Hdc.encode T text)))
  realmMembers := Function.update h.realmMembers realm
    (some (Insert.insert id ((h.realmMembers realm).getD ∅)))
  mutations := h.mutations + 1

/-- Remove a memory from the index and from a realm. -/
def remove (h : HdcStore) (id : MemoryId) (realm : String) : HdcStore :=
  match h.memories id with
  | none => { h with mutations := h.mutations + 1 }
  | some hv =>
    { memories := Function.update h.memories id none
      ids := h.ids.erase id
      realmBundles := Maps.modifyAt h.realmBundles realm fun r => r.remove hv
      realmMembers := Maps.modifyAt h.realmMembers realm fun ids => ids.erase id
      mutations := h.mutations + 1 }

/-- Register memories with their texts and realms, and nothing else. -/
def rebuild (T : Casing) (h : HdcStore) (entries : List (MemoryId × String × String)) : HdcStore :=
  entries.foldl (fun h e => h.insert T e.1 e.2.1 e.2.2)
    ⟨⟨fun _ => none, ∅, fun _ => none, fun _ => none⟩, h.mutations + 1⟩

/-- Write the index to a file. -/
def saveSidecar (h : HdcStore) : HdcSidecar := h.toHdcSidecar

/-- Load a file; how many memories it has. -/
def loadSidecar (h : HdcStore) (file : HdcSidecar) : HdcStore × ℕ :=
  (⟨file, h.mutations⟩, file.ids.card)

end HdcStore

/-! ## The store around it -/

variable {F : Type}

/-- What a checkpoint leaves: the live memories, and the file of the index. -/
structure HdcCheckpoint (F : Type) where
  ctx : ApplyCtx F
  ids : Finset MemoryId
  sidecar : Option HdcSidecar

/-- The memories with the index, and what is on disk of them. -/
structure HdcField (F : Type) where
  ctx : ApplyCtx F
  /-- The memories with a payload. -/
  ids : Finset MemoryId
  hdc : HdcStore
  /-- The count of mutations at the last write of the file. -/
  sidecarSavedAt : Option ℕ
  /-- The file of the instance. -/
  sidecarFile : Option HdcSidecar
  checkpoints : List (HdcCheckpoint F)

/-- The order in which a hash map of memories is walked. -/
structure MemoryOrder where
  walk : Finset MemoryId → List MemoryId
  nodup : ∀ ids, (walk ids).Nodup
  mem_walk : ∀ ids id, id ∈ walk ids ↔ id ∈ ids

/-- The state of a memory says that it lives. -/
def ApplyCtx.isLive (ctx : ApplyCtx F) (id : MemoryId) : Bool :=
  (ctx.states id).any fun state => !state.deleted

/-- A call, or a restart. -/
inductive HdcCall (F : Type) where
  /-- Store a memory; `found` is the memory that the gates in front take it for, if any. -/
  | putMemory (found : Option MemoryId) (op : PutPayloadOp F) (appended : Bool)
  | updateMemoryContent (op : UpdateMemoryContentOp F) (appended : Bool)
  | setRealm (memoryId : MemoryId) (newRealm : String)
  | forget (op : DeleteMemoryOp) (appended : Bool)
  | saveFullSnapshot
  | syncForeign (ops : List (Op F))
  /-- Open from a checkpoint, if any, with the file of a checkpoint, if any, and the operations of
  the log behind the checkpoint. -/
  | reopen (snapshot sidecar : Option ℕ) (tail : List (Op F))

namespace HdcField

/-- No memories, and nothing on disk. -/
def new : HdcField F := ⟨.empty, ∅, .new, none, none, []⟩

/-- The live memories with their texts and realms. -/
def entries (order : MemoryOrder) (ctx : ApplyCtx F) (ids : Finset MemoryId) :
    List (MemoryId × String × String) :=
  (order.walk ids).filterMap fun id =>
    if ctx.isLive id then
      (ctx.payloads id).map fun p => (id, Lossy.fromUtf8Lossy p.content, p.realm)
    else none

/-- The memories that operations store. -/
def putIds (ops : List (Op F)) : Finset MemoryId :=
  (ops.filterMap fun op => match op with
    | .putPayload o => some o.memoryId
    | _ => none).toFinset

/-- Write a checkpoint.  The file of the index is left as it is if the index has not changed since it
was written; deleted memories are left out. -/
def saveFullSnapshot (s : HdcField F) : HdcField F :=
  let clean := s.sidecarSavedAt = some s.hdc.mutations ∧ s.sidecarFile.isSome
  let file := if clean then s.sidecarFile else some s.hdc.saveSidecar
  let deleted id := (s.ctx.states id).any (·.deleted)
  { s with
    sidecarSavedAt := some s.hdc.mutations
    sidecarFile := file
    checkpoints := s.checkpoints ++ [
      { ctx := { s.ctx with
          payloads := fun id => if deleted id then none else s.ctx.payloads id
          states := fun id => if deleted id then none else s.ctx.states id }
        ids := s.ids.filter fun id => deleted id = false
        sidecar := file }] }

/-- The index of an open: loaded from the file, or rebuilt if that gives no memories. -/
def warmStartup (T : Casing) (order : MemoryOrder) (ctx : ApplyCtx F) (ids : Finset MemoryId)
    (hdcSidecar : Option HdcSidecar) : HdcStore :=
  let hdc := hdcSidecar.elim (HdcStore.new, 0) HdcStore.new.loadSidecar
  if hdc.2 = 0 then hdc.1.rebuild T (entries order ctx ids) else hdc.1

variable [F32 F]

/-- Apply operations to the memories. -/
def applyOps (ctx : ApplyCtx F) (ops : List (Op F)) : ApplyCtx F :=
  ops.foldl (fun ctx op => applyOp op ctx) ctx

/-- Store a memory. -/
def putMemory (T : Casing) (embedDim : ℕ) (s : HdcField F) (found : Option MemoryId)
    (op : PutPayloadOp F) (appended : Bool) : HdcField F :=
  if op.embedding ≠ [] ∧ op.embedding.length ≠ embedDim then s
  else if found.any s.ctx.isLive then s
  else if appended then
    { s with
      ctx := { s.ctx with
        payloads := Function.update s.ctx.payloads op.memoryId (some (.ofPut op))
        states := Function.update s.ctx.states op.memoryId
          (some (.new op.memoryId op.chunkHash op.createdAtMs)) }
      ids := insert op.memoryId s.ids
      hdc := s.hdc.insert T op.memoryId (decodeText op.content) op.realm }
  else s

omit [F32 F] in
/-- Replace the content of a memory. -/
def updateMemoryContent (embedDim : ℕ) (s : HdcField F) (op : UpdateMemoryContentOp F)
    (appended : Bool) : HdcField F :=
  if op.embedding ≠ [] ∧ op.embedding.length ≠ embedDim then s
  else if (s.ctx.payloads op.memoryId).isSome ∧ appended then
    { s with
      ctx := s.ctx.modifyPayload op.memoryId fun p =>
        { p with
          content := op.content
          embedding := if op.embedding.isEmpty then p.embedding else [] } }
  else s

omit [F32 F] in
/-- Give a memory another realm. -/
def setRealm (s : HdcField F) (memoryId : MemoryId) (newRealm : String) : HdcField F :=
  { s with ctx := s.ctx.modifyPayload memoryId ({ · with realm := newRealm }) }

omit [F32 F] in
/-- Delete a memory. -/
def forget (s : HdcField F) (op : DeleteMemoryOp) (appended : Bool) : HdcField F :=
  if (s.ctx.states op.memoryId).isSome ∧ appended then
    { s with
      ctx := (s.ctx.modifyState op.memoryId ({ · with deleted := true })).modifyPayload op.memoryId
        ({ · with content := [] })
      hdc := (s.ctx.payloads op.memoryId).elim s.hdc fun p => s.hdc.remove op.memoryId p.realm }
  else s

/-- Apply the operations of peers.  The index is not among what they are applied to. -/
def syncForeign (s : HdcField F) (ops : List (Op F)) : HdcField F :=
  { s with
    ctx := applyOps s.ctx ops
    ids := s.ids ∪ putIds ops }

/-- The memories of an open. -/
def recovered (s : HdcField F) (snapshot : Option ℕ) (tail : List (Op F)) :
    ApplyCtx F × Finset MemoryId :=
  match snapshot.bind (s.checkpoints[·]?) with
  | some cp => (applyOps cp.ctx tail, cp.ids ∪ putIds tail)
  | none => (applyOps .empty tail, putIds tail)

/-- Close and open. -/
def reopen (T : Casing) (order : MemoryOrder) (s : HdcField F) (snapshot sidecar : Option ℕ)
    (tail : List (Op F)) : HdcField F where
  ctx := (s.recovered snapshot tail).1
  ids := (s.recovered snapshot tail).2
  hdc := warmStartup T order (s.recovered snapshot tail).1 (s.recovered snapshot tail).2
    ((sidecar.bind (s.checkpoints[·]?)).bind (·.sidecar))
  sidecarSavedAt := none
  sidecarFile := none
  checkpoints := s.checkpoints

/-- Make a call. -/
def call (T : Casing) (order : MemoryOrder) (embedDim : ℕ) (s : HdcField F) (c : HdcCall F) :
    HdcField F × List (Op F) :=
  match c with
  | .putMemory found op appended => (s.putMemory T embedDim found op appended, [])
  | .updateMemoryContent op appended => (s.updateMemoryContent embedDim op appended, [])
  | .setRealm memoryId newRealm => (s.setRealm memoryId newRealm, [])
  | .forget op appended => (s.forget op appended, [])
  | .saveFullSnapshot => (s.saveFullSnapshot, [])
  | .syncForeign ops => (s.syncForeign ops, [])
  | .reopen snapshot sidecar tail => (s.reopen T order snapshot sidecar tail, [])

end HdcField

end ChittaField
