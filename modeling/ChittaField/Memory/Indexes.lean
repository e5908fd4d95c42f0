import Mathlib.Data.Finset.Insert
import Mathlib.Data.Finset.Erase
import Mathlib.Data.List.SplitBy
import ChittaField.Memory.Lifecycle

/-!
# The indexes of memories

Beside the maps of the memories, an operation changes the indexes through which memories are found:
by vector, by word, by time and by artifact, and the members of each realm and kind.
`applyOpIndexed` is `applyOp` with them.

What the index of vectors holds is said by the lengths of the vectors.  The names of terms are not
interned, and the tables of Unicode are a parameter.
-/

namespace ChittaField

variable {F : Type}

/-! ## Words -/

/-- What the tables of Unicode say of letters. -/
structure Casing where
  isAlphanumeric : Char → Bool
  toLowercase : String → String
  toLowercase_empty : toLowercase "" = ""

/-- The tables for ASCII. -/
def Casing.ascii : Casing := ⟨Char.isAlphanum, fun s => String.ofList (s.toList.map Char.toLower), rfl⟩

/-- Words that are too common to be indexed. -/
def stopWords : List String :=
  ["the", "a", "an", "is", "are", "was", "be", "to", "of", "and", "in", "it", "for", "on", "with",
    "as", "at", "by", "or", "not", "this", "that", "from", "have", "has", "had", "but", "its", "my",
    "your", "we", "i", "he", "she", "they", "do", "did", "will", "can", "would", "could", "should"]

/-- The words of a text that are indexed. -/
def tokenize (T : Casing) (text : String) : List String :=
  ((text.toList.splitOnP fun c => !T.isAlphanumeric c).map fun w => T.toLowercase (String.ofList w))
    |>.filter fun t => 2 ≤ t.utf8ByteSize && !stopWords.contains t

/-- The text of some bytes, empty if they are not UTF-8. -/
def decodeText (content : Bytes) : String := (String.fromUTF8? ⟨content.toArray⟩).getD ""

/-- How often a word is in a memory. -/
structure Posting where
  memoryId : MemoryId
  tf : ℕ
  deriving DecidableEq

/-- The words of all memories. -/
structure KeywordIndex where
  postings : String → List Posting
  docLengths : MemoryId → Option ℕ
  /-- The terms of a memory; a snapshot does not have them. -/
  docTerms : MemoryId → Option (List String)
  totalTokens : ℕ
  totalDocs : ℕ

namespace KeywordIndex

def new : KeywordIndex := ⟨fun _ => [], fun _ => none, fun _ => none, 0, 0⟩

/-- Remove a memory. -/
def remove (k : KeywordIndex) (id : MemoryId) : KeywordIndex :=
  match k.docLengths id with
  | none => k
  | some oldLen =>
    { postings := fun term =>
        if (k.docTerms id).all (term ∈ ·) then (k.postings term).filter (·.memoryId ≠ id)
        else k.postings term
      docLengths := Function.update k.docLengths id none
      docTerms := Function.update k.docTerms id none
      totalTokens := k.totalTokens - oldLen
      totalDocs := k.totalDocs - 1 }

/-- Index the text of a memory, in place of what it had. -/
def index (T : Casing) (k : KeywordIndex) (id : MemoryId) (content : String) : KeywordIndex :=
  let k := k.remove id
  let tokens := tokenize T content
  if tokens.length = 0 then k
  else
    { postings := fun term =>
        if term ∈ tokens then k.postings term ++ [⟨id, tokens.count term⟩] else k.postings term
      docLengths := Function.update k.docLengths id (some tokens.length)
      docTerms := Function.update k.docTerms id (some tokens.dedup)
      totalTokens := k.totalTokens + tokens.length
      totalDocs := k.totalDocs + 1 }

end KeywordIndex

/-! ## Vectors -/

/-- The lengths of the vectors, and the memories that are kept out of searches. -/
structure SemanticIds where
  dims : MemoryId → Option ℕ
  deleted : MemoryId → Bool

namespace SemanticIds

def new : SemanticIds := ⟨fun _ => none, fun _ => false⟩

/-- Add or replace a vector; one of another length is not refused. -/
def upsert (s : SemanticIds) (id : MemoryId) (dim : ℕ) : SemanticIds :=
  ⟨Function.update s.dims id (some dim), Function.update s.deleted id false⟩

def remove (s : SemanticIds) (id : MemoryId) : SemanticIds :=
  ⟨Function.update s.dims id none, Function.update s.deleted id true⟩

end SemanticIds

/-! ## Times and artifacts -/

/-- A memory in the index of times. -/
structure TemporalEntry (F : Type) where
  memoryId : MemoryId
  tsMs : ℤ
  kind : String
  realm : String
  strength : F

/-- The memories by time. -/
abbrev TemporalIndex (F : Type) := ℤ × MemoryId → Option (TemporalEntry F)

def TemporalIndex.upsert (t : TemporalIndex F) (e : TemporalEntry F) : TemporalIndex F :=
  Function.update t (e.tsMs, e.memoryId) (some e)

def TemporalIndex.remove (t : TemporalIndex F) (id : MemoryId) (tsMs : ℤ) : TemporalIndex F :=
  Function.update t (tsMs, id) none

/-- A memory in the index of artifacts. -/
structure ArtifactEntry (F : Type) where
  memoryId : MemoryId
  artifactId : ArtifactId
  normalizedPath : String
  strength : F

/-- The memories by artifact, and the artifacts by memory. -/
structure ArtifactIndex (F : Type) where
  byPath : String → List (ArtifactEntry F)
  byMemory : MemoryId → Option (List String)

namespace ArtifactIndex

def new : ArtifactIndex F := ⟨fun _ => [], fun _ => none⟩

/-- Replace the entry of the same memory, or add one. -/
def putEntry (entry : ArtifactEntry F) : List (ArtifactEntry F) → List (ArtifactEntry F)
  | [] => [entry]
  | e :: es => if e.memoryId = entry.memoryId then entry :: es else e :: putEntry entry es

/-- Register that a memory mentions a path. -/
def associate (a : ArtifactIndex F) (id : MemoryId) (artifactId : ArtifactId) (path : String)
    (strength : F) : ArtifactIndex F where
  byPath := Function.update a.byPath path (putEntry ⟨id, artifactId, path, strength⟩ (a.byPath path))
  byMemory := Maps.push a.byMemory id path

/-- Remove a memory. -/
def removeMemory (a : ArtifactIndex F) (id : MemoryId) : ArtifactIndex F :=
  match a.byMemory id with
  | none => a
  | some paths =>
    { byPath := fun path =>
        if path ∈ paths then (a.byPath path).filter (·.memoryId ≠ id) else a.byPath path
      byMemory := Function.update a.byMemory id none }

end ArtifactIndex

/-! ## Members -/

/-- The memories of each realm, or of each kind. -/
abbrev Members := String → Option (Finset MemoryId)

def Members.insert (m : Members) (key : String) (id : MemoryId) : Members :=
  Function.update m key (some (Insert.insert id ((m key).getD ∅)))

/-- Remove a memory, and the key when nothing is left. -/
def Members.remove (m : Members) (key : String) (id : MemoryId) : Members :=
  match m key with
  | none => m
  | some ids => Function.update m key (if ids.erase id = ∅ then none else some (ids.erase id))

/-! ## Operations -/

/-- The maps and indexes of the memories. -/
structure IndexCtx (F : Type) where
  ctx : ApplyCtx F
  artifacts : String → Option ArtifactId
  artifactPaths : ArtifactId → Option String
  semanticIdx : SemanticIds
  timeIdx : TemporalIndex F
  artifactIdx : ArtifactIndex F
  keywordIdx : KeywordIndex
  realmMembers : Members
  kindMembers : Members

/-- Nothing. -/
def IndexCtx.empty : IndexCtx F where
  ctx := .empty
  artifacts _ := none
  artifactPaths _ := none
  semanticIdx := .new
  timeIdx _ := none
  artifactIdx := .new
  keywordIdx := .new
  realmMembers _ := none
  kindMembers _ := none

/-- Apply an operation to the maps and indexes of the memories. -/
def applyOpIndexed [F32 F] (T : Casing) (op : Op F) (c : IndexCtx F) : IndexCtx F :=
  let ctx := applyOp op c.ctx
  match op with
  | .putPayload put =>
    let id := put.memoryId
    let strength := ((c.ctx.states id).map (·.strength)).getD (F32.lit 1)
    { c with
      ctx := ctx
      semanticIdx := c.semanticIdx.upsert id put.embedding.length
      keywordIdx := c.keywordIdx.index T id (decodeText put.content)
      realmMembers := c.realmMembers.insert put.realm id
      kindMembers := c.kindMembers.insert put.kind id
      timeIdx := TemporalIndex.upsert c.timeIdx
        ⟨id, if put.authoredAtMs = 0 then put.createdAtMs else put.authoredAtMs, put.kind, put.realm,
          strength⟩
      artifactIdx := put.artifactRefs.foldl (fun a r =>
        match c.artifactPaths r.artifactId with
        | none => a
        | some path => a.associate id r.artifactId path strength) c.artifactIdx }
  | .deleteMemory d =>
    let id := d.memoryId
    let c := { c with
      semanticIdx := c.semanticIdx.remove id
      keywordIdx := c.keywordIdx.remove id
      artifactIdx := c.artifactIdx.removeMemory id }
    match c.ctx.payloads id with
    | none => { c with ctx := ctx }
    | some p =>
      { c with
        ctx := ctx
        timeIdx := TemporalIndex.remove c.timeIdx id p.authoredAtMs
        realmMembers := c.realmMembers.remove p.realm id
        kindMembers := c.kindMembers.remove p.kind id }
  | .updateMemoryContent u =>
    { c with
      ctx := ctx
      semanticIdx :=
        if u.embedding.isEmpty then c.semanticIdx
        else c.semanticIdx.upsert u.memoryId u.embedding.length
      keywordIdx := c.keywordIdx.index T u.memoryId (decodeText u.content) }
  | .upsertArtifact a =>
    { c with
      ctx := ctx
      artifacts := Maps.orInsert c.artifacts a.normalizedPath a.artifactId
      artifactPaths := Maps.orInsert c.artifactPaths a.artifactId a.normalizedPath }
  | _ => { c with ctx := ctx }

/-- Apply operations one after the other. -/
def applyAllIndexed [F32 F] (T : Casing) (ops : List (Op F)) (c : IndexCtx F) : IndexCtx F :=
  ops.foldl (fun c op => applyOpIndexed T op c) c

end ChittaField
