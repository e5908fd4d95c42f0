import ChittaField.Lib.Replayed
import ChittaField.Lib.Worklist
import ChittaField.Organs.DeferredReplay
import ChittaField.Store.KeyText

/-!
# Independent replications

A memory counts the sessions that bear it out: those of its own provenance and those of the
memories that confirm it.  The provenance follows triplets from a memory to the memories it comes
from, as often as there are any, and may run in circles.

The count is kept beside the memory.  A mutation names the memories whose evidence it changes, and
the counts of these and of what depends on them are computed again; `rebuild` computes all of them.
What depends on a memory is found by its number in decimal, while the provenance reads the number of
a triplet in any spelling.
-/

namespace ChittaField

open Relation

variable {F : Type}

/-! ## Queries -/

namespace TripletStore

/-- A triplet is valid at a time. -/
def isValid (e : TripletEntry F) (atMs : ℤ) : Bool := e.validToMs = 0 ∨ atMs < e.validToMs

/-- The valid triplets of some ids. -/
def resolveIds (t : TripletStore F) (ids : List ℕ) (atMs : ℤ) : List (TripletEntry F) :=
  (ids.filterMap t.entryById).filter (isValid · atMs)

/-- The valid triplets with a subject. -/
def querySubject (t : TripletStore F) (subject : String) (atMs : ℤ) : List (TripletEntry F) :=
  t.resolveIds ((t.bySubject subject).getD []) atMs

/-- The valid triplets with an object. -/
def queryObject (t : TripletStore F) (object : String) (atMs : ℤ) : List (TripletEntry F) :=
  t.resolveIds ((t.byObject object).getD []) atMs

/-- The ids of the triplets without an end that come from a memory. -/
def idsBySourceMemory (t : TripletStore F) (memoryId : MemoryId) : List ℕ :=
  (t.entries.filter fun e => e.validToMs = 0 ∧ e.sourceMemoryId = some memoryId).map (·.id)

/-- A triplet was superseded. -/
def isSuperseded (t : TripletStore F) (id : ℕ) : Bool := (t.supersessionMap id).isSome

end TripletStore

/-! ## Edges -/

namespace Replication

/-- The triplets that say where a memory comes from. -/
def provenanceEdge (predicate : String) : Bool :=
  ["source", "derived_from", "merged_from", "replication_session"].contains predicate

/-- The number of a memory in decimal; there may be a plus sign and zeros in front. -/
def parse (s : String) : Option MemoryId :=
  let digits := (stripPrefix "+" s.toList).getD s.toList
  if digits ≠ [] ∧ digits.all Char.isDigit = true ∧ Nat.ofDigitChars 10 digits 0 < 2 ^ 64 then
    some (Nat.ofDigitChars 10 digits 0)
  else none

/-- The memories whose evidence an edge is. -/
def affectedEdge (subject predicate object : String) : List MemoryId :=
  if provenanceEdge predicate then (parse subject).toList
  else if predicate = "confirms" then (parse object).toList
  else []

/-- The name of a session, without the prefix and the white space around it, if anything is left. -/
def sessionName (value : String) : Option String :=
  let value := trim value.toList
  let value := trim ((stripPrefix "session:" value).getD value)
  if value.isEmpty then none else some (String.ofList value)

/-- Add a session. -/
def insertSession (sessions : Finset String) (value : String) : Finset String :=
  (sessionName value).elim sessions fun session => insert session sessions

/-- What an edge of a memory leads to: a memory it comes from, or a session.  A source that is
neither a memory nor a session is who wrote it. -/
def follow (edge : TripletEntry F) : MemoryId ⊕ Finset String :=
  match edge.predicate with
  | "replication_session" => .inr (insertSession ∅ edge.object)
  | "source" | "derived_from" | "merged_from" =>
    match parse edge.object with
    | some parent => .inl parent
    | none =>
      if edge.predicate = "derived_from" ∨ "session:".toList <+: edge.object.toList then
        .inr (insertSession ∅ edge.object)
      else .inr ∅
  | _ => .inr ∅

end Replication

/-! ## Counts -/

/-- The memories, the triplets and the counts. -/
structure ReplicationField (F : Type) where
  /-- The session of a payload. -/
  sourceSessions : MemoryId → Option (Option String)
  /-- Whether a memory is deleted. -/
  states : MemoryId → Option Bool
  replicationCount : MemoryId → ℕ
  graph : TripletStore F
  tripletIdAlloc : ℕ

namespace ReplicationField

open Replication

/-- The edges of a live memory. -/
def edges (s : ReplicationField F) (atMs : ℤ) (id : MemoryId) : List (TripletEntry F) :=
  if s.states id = some false then
    (s.graph.querySubject (toString id) atMs).filter (!s.graph.isSuperseded ·.id)
  else []

/-- The memories that a memory comes from. -/
def parents (s : ReplicationField F) (atMs : ℤ) (id : MemoryId) : List MemoryId :=
  (s.edges atMs id).filterMap fun edge => (Replication.follow edge).getLeft?

/-- The sessions that a memory itself comes from. -/
def ownSessions (s : ReplicationField F) (atMs : ℤ) (id : MemoryId) : Finset String :=
  if s.states id = some false then
    (((s.sourceSessions id).bind fun session => session).elim ∅ (insertSession ∅)) ∪
      ((s.edges atMs id).filterMap fun edge => (Replication.follow edge).getRight?).foldr (· ∪ ·) ∅
  else ∅

/-- Walk where a memory comes from: the memories on the way, and the sessions. -/
def provenance (s : ReplicationField F) (atMs : ℤ) (id : MemoryId) :
    Finset MemoryId × Finset String :=
  Worklist.visit (s.parents atMs) (s.ownSessions atMs) (s.graph.entries.length + 2) [id] ∅ ∅

/-- The memories that confirm a memory. -/
def confirmers (s : ReplicationField F) (atMs : ℤ) (id : MemoryId) : List MemoryId :=
  (s.graph.queryObject (toString id) atMs).filterMap fun edge =>
    if edge.predicate = "confirms" ∧ s.graph.isSuperseded edge.id = false then parse edge.subject
    else none

/-- The sessions that bear a memory out. -/
def sessions (s : ReplicationField F) (atMs : ℤ) (id : MemoryId) : Finset String :=
  (s.confirmers atMs id).foldl (fun result witness => result ∪ (s.provenance atMs witness).2)
    (s.provenance atMs id).2

/-- The count of a memory. -/
def count (s : ReplicationField F) (atMs : ℤ) (id : MemoryId) : ℕ :=
  max 1 (s.sessions atMs id).card % 2 ^ 32

/-- Compute all counts. -/
def rebuild (s : ReplicationField F) (atMs : ℤ) : ReplicationField F :=
  { s with
    replicationCount := fun id =>
      if (s.states id).isSome then s.count atMs id else s.replicationCount id }

/-- The memories that are found to depend on a memory. -/
def dependents (s : ReplicationField F) (atMs : ℤ) (id : MemoryId) : List MemoryId :=
  ((s.graph.queryObject (toString id) atMs).filterMap fun edge =>
      if provenanceEdge edge.predicate then parse edge.subject else none) ++
    (s.graph.querySubject (toString id) atMs).filterMap fun edge =>
      if edge.predicate = "confirms" then parse edge.object else none

/-- The memories whose counts are computed again. -/
def affected (s : ReplicationField F) (atMs : ℤ) (seeds : List MemoryId) : Finset MemoryId :=
  (Worklist.visit (s.dependents atMs) (fun _ => (∅ : Finset String))
    (seeds.length + 2 * s.graph.entries.length + 1) seeds.reverse ∅ ∅).1

/-- Compute the counts of what depends on some memories. -/
def refreshReplications (s : ReplicationField F) (atMs : ℤ) (seeds : List MemoryId) :
    ReplicationField F :=
  if seeds.isEmpty then s
  else
    { s with
      replicationCount := fun id =>
        if id ∈ s.affected atMs seeds ∧ (s.states id).isSome then s.count atMs id
        else s.replicationCount id }

/-- The memories whose evidence a triplet is. -/
def replicationEdgeIds (s : ReplicationField F) (id : ℕ) : List MemoryId :=
  ((s.graph.entryById id).map fun e => affectedEdge e.subject e.predicate e.object).getD []

/-! ## Mutations -/

variable [F32 F]

/-- Add a triplet; `appended` says whether the log takes the operation. -/
def addTriplet (s : ReplicationField F) (nowMs : ℤ) (subject predicate object : String) (weight : F)
    (sourceMemoryId : Option MemoryId) (sourceFile : Option String) (appended : Bool) :
    ReplicationField F :=
  let tripletId := s.tripletIdAlloc
  let s := { s with tripletIdAlloc := s.tripletIdAlloc + 1 }
  if appended then
    { s with
      graph := s.graph.replayAddAt
        ⟨tripletId, subject, predicate, object, weight, nowMs, sourceMemoryId, sourceFile⟩
        nowMs }.refreshReplications nowMs (affectedEdge subject predicate object)
  else s

/-- Keep a session of a memory as a triplet, unless there is one; whether that went well, and which
of the appends behind it do. -/
def recordReplicationSession (s : ReplicationField F) (nowMs : ℤ) (id : MemoryId)
    (session : Option String) (appends : List Bool) : ReplicationField F × Bool × List Bool :=
  match session.bind sessionName with
  | none => (s, true, appends)
  | some session =>
    let known := (s.graph.querySubject (toString id) nowMs).any fun e =>
      e.predicate = "replication_session" ∧ e.object = session ∧ !s.graph.isSuperseded e.id
    if known then (s, true, appends)
    else
      (s.addTriplet nowMs (toString id) "replication_session" session (F32.lit 1) none none
        (appends.headD true), appends.headD true, appends.tail)

/-- Store a memory.  `found` is the memory that the gates in front take it for, if any. -/
def putMemory (s : ReplicationField F) (nowMs : ℤ) (found : Option MemoryId) (memoryId : UInt64)
    (sourceSession : Option String) (appends : List Bool) : ReplicationField F :=
  match found.filter fun id => s.states id = some false with
  | some existing => (s.recordReplicationSession nowMs existing sourceSession appends).1
  | none =>
    if appends.headD true then
      { s with
        sourceSessions := Function.update s.sourceSessions memoryId.toNat (some sourceSession)
        states := Function.update s.states memoryId.toNat (some false)
        replicationCount :=
          Function.update s.replicationCount memoryId.toNat 1 }.refreshReplications nowMs
            [memoryId.toNat]
    else s

/-- End a triplet. -/
def invalidateTriplet (s : ReplicationField F) (nowMs : ℤ) (tripletId : ℕ) (appended : Bool) :
    ReplicationField F :=
  if appended then
    { s with graph := s.graph.invalidate ⟨tripletId, nowMs⟩ }.refreshReplications nowMs
      (s.replicationEdgeIds tripletId)
  else s

/-- Delete a memory, and end the triplets that come from it. -/
def forget (s : ReplicationField F) (nowMs : ℤ) (memoryId : MemoryId) (appends : List Bool) :
    ReplicationField F :=
  if (s.states memoryId).isSome ∧ appends.headD true then
    let s := { s with
      states := Function.update s.states memoryId (some true) }.refreshReplications nowMs [memoryId]
    ((s.graph.idsBySourceMemory memoryId).foldl
      (fun (p : ReplicationField F × List Bool) tid =>
        (p.1.invalidateTriplet nowMs tid (p.2.headD true), p.2.tail)) (s, appends.tail)).1
  else s

/-- End the triplets of a source file; their ids. -/
def invalidateTripletsBySourceFile (s : ReplicationField F) (nowMs : ℤ) (sourceFile : String) :
    ReplicationField F × List ℕ :=
  ({ s with graph := (s.graph.invalidateBySourceFile ⟨sourceFile, nowMs⟩).1 },
    (s.graph.invalidateBySourceFile ⟨sourceFile, nowMs⟩).2)

/-- A triplet is superseded. -/
def tripletSupersede (s : ReplicationField F) (nowMs : ℤ) (oldId newId : ℕ) (atMs : ℤ)
    (appended : Bool) : ReplicationField F :=
  if appended then
    { s with graph := s.graph.supersede ⟨oldId, newId, atMs⟩ }.refreshReplications nowMs
      (s.replicationEdgeIds oldId)
  else s

/-- Give a memory another session; the old one and the new one are kept as triplets. -/
def setSourceSession (s : ReplicationField F) (nowMs : ℤ) (memoryId : MemoryId) (sessionId : String)
    (appends : List Bool) : ReplicationField F :=
  match s.sourceSessions memoryId with
  | none => s
  | some previous =>
    let (s, kept, appends) := s.recordReplicationSession nowMs memoryId previous appends
    if kept then
      let (s, kept, _) := s.recordReplicationSession nowMs memoryId (some sessionId) appends
      if kept then
        { s with
          sourceSessions := Function.update s.sourceSessions memoryId
            (some (some sessionId)) }.refreshReplications nowMs [memoryId]
      else s
    else s

end ReplicationField

/-- A mutation.  Whatever appends to the log comes with which appends go well; those behind the end
of the list do. -/
inductive ReplicationCall (F : Type) where
  | putMemory (found : Option MemoryId) (memoryId : UInt64) (sourceSession : Option String)
    (appends : List Bool)
  | forget (memoryId : MemoryId) (appends : List Bool)
  | addTriplet (subject predicate object : String) (weight : F) (sourceMemoryId : Option MemoryId)
    (sourceFile : Option String) (appended : Bool)
  | invalidateTriplet (tripletId : ℕ) (appended : Bool)
  | invalidateTripletsBySourceFile (sourceFile : String)
  | tripletSupersede (oldId newId : ℕ) (atMs : ℤ) (appended : Bool)
  | setSourceSession (memoryId : MemoryId) (sessionId : String) (appends : List Bool)

namespace ReplicationField

/-- Make a call at a time; the ids that it answers. -/
def call [F32 F] (s : ReplicationField F) : ℤ × ReplicationCall F → ReplicationField F × List ℕ
  | (nowMs, .putMemory found memoryId sourceSession appends) =>
    (s.putMemory nowMs found memoryId sourceSession appends, [])
  | (nowMs, .forget memoryId appends) => (s.forget nowMs memoryId appends, [])
  | (nowMs, .addTriplet subject predicate object weight sourceMemoryId sourceFile appended) =>
    (s.addTriplet nowMs subject predicate object weight sourceMemoryId sourceFile appended, [])
  | (nowMs, .invalidateTriplet tripletId appended) =>
    (s.invalidateTriplet nowMs tripletId appended, [])
  | (nowMs, .invalidateTripletsBySourceFile sourceFile) =>
    s.invalidateTripletsBySourceFile nowMs sourceFile
  | (nowMs, .tripletSupersede oldId newId atMs appended) =>
    (s.tripletSupersede nowMs oldId newId atMs appended, [])
  | (nowMs, .setSourceSession memoryId sessionId appends) =>
    (s.setSourceSession nowMs memoryId sessionId appends, [])

/-- A field without memories. -/
def new (F : Type) : ReplicationField F :=
  ⟨fun _ => none, fun _ => none, fun _ => 1, .empty F, 1⟩

end ReplicationField

end ChittaField
