import Mathlib.Data.Finset.Sort
import Mathlib.Data.Finset.Union
import Mathlib.Data.String.Basic
import ChittaField.Lib.Maps
import ChittaField.Memory.State

/-!
# The triplet store

The triplets are kept in a list, beside indexes that are derived from it: the position of an id, and
the ids by subject, object and predicate.  A start that defers the indexes decodes the list alone;
replay then only records its mutations, and the indexes are built, and the recorded mutations
applied, when the store is first read.

The cleaner that runs behind a load removes triplets that are invalidated or duplicate live ones.  It
looks at the subjects that changed since the last cleaning, or at everything where that is not known.
-/

namespace ChittaField

variable {F : Type}

/-! ## The data -/

/-- A subject-predicate-object fact. -/
structure TripletEntry (F : Type) where
  id : ℕ
  subject : String
  predicate : String
  object : String
  weight : F
  reverseWeight : F
  validFromMs : ℤ
  /-- `0` while it is valid. -/
  validToMs : ℤ
  sourceMemoryId : Option MemoryId
  sourceFile : Option String

/-- The ids of triplets by one of their strings. -/
abbrev Postings := String → Option (List ℕ)

/-- The triplets, and what is derived from them. -/
@[ext]
structure Facts (F : Type) where
  clean : Bool
  /-- The subjects with changes since the facts were clean, if they are known. -/
  dirtySubjects : Option (Finset String)
  /-- The ids that occur more than once. -/
  duplicateIds : Finset ℕ
  /-- The positions of the triplets of a source file, built when first needed. -/
  bySourceFile : Option (String → List ℕ)
  entries : List (TripletEntry F)
  idToIndex : ℕ → Option ℕ
  bySubject : Postings
  byObject : Postings
  byPredicate : Postings

/-- A mutation that is held back while the indexes are owed, with the clock of an addition. -/
inductive DeferredOp (F : Type) where
  | add (o : AddTripletOp F) (ingestedMs : ℤ)
  | invalidate (o : InvalidateTripletOp)
  | invalidateBySourceFile (o : InvalidateTripletsBySourceFileOp)

/-- The store. -/
structure TripletStore (F : Type) extends Facts F where
  nextId : UInt64
  supersessionMap : ℕ → Option (ℕ × ℤ)
  ingestionTimes : ℕ → Option ℤ
  indexesDirty : Bool
  deferredReplay : Option (List (DeferredOp F))

/-! ## The indexes -/

/-- Append an id to the postings of a string. -/
def post (m : Postings) (key : String) (id : ℕ) : Postings :=
  Function.update m key (some ((m key).getD [] ++ [id]))

/-- The postings of triplets by a string of theirs. -/
def postings (pick : TripletEntry F → String) (entries : List (TripletEntry F)) : Postings :=
  entries.foldl (fun m e => post m (pick e) e.id) fun _ => none

/-- Note the position of a triplet, and whether its id was there already. -/
def noteIdentity (acc : (ℕ → Option ℕ) × Finset ℕ) (p : TripletEntry F × ℕ) :
    (ℕ → Option ℕ) × Finset ℕ :=
  (Function.update acc.1 p.1.id (some p.2),
    if (acc.1 p.1.id).isSome then insert p.1.id acc.2 else acc.2)

/-- The positions of ids, and the ids that occur more than once. -/
def identity (entries : List (TripletEntry F)) : (ℕ → Option ℕ) × Finset ℕ :=
  entries.zipIdx.foldl noteIdentity (fun _ => none, ∅)

/-- Note the position of a triplet under its source file. -/
def noteSource (index : String → List ℕ) (p : TripletEntry F × ℕ) : String → List ℕ :=
  match p.1.sourceFile with
  | none => index
  | some path => Function.update index path (index path ++ [p.2])

/-- The positions of the triplets of a source file. -/
def sourceIndex (entries : List (TripletEntry F)) : String → List ℕ :=
  entries.zipIdx.foldl noteSource fun _ => []

/-- The triplet of an id, by its position. -/
def Facts.entryById (f : Facts F) (id : ℕ) : Option (TripletEntry F) :=
  (f.idToIndex id).bind fun idx => f.entries[idx]?

/-- Derive the indexes from the triplets. -/
def Facts.rebuildIndexes (f : Facts F) : Facts F where
  clean := f.clean
  dirtySubjects := f.dirtySubjects
  duplicateIds := (identity f.entries).2
  bySourceFile := none
  entries := f.entries
  idToIndex := (identity f.entries).1
  bySubject := postings (·.subject) f.entries
  byObject := postings (·.object) f.entries
  byPredicate := postings (·.predicate) f.entries

/-! ## Mutations -/

namespace Facts

/-- A valid triplet of these strings. -/
def findExactLive (f : Facts F) (subject predicate object : String) : Option ℕ :=
  ((f.bySubject subject).getD []).find? fun id =>
    (f.entryById id).any fun e =>
      e.validToMs = 0 ∧ e.predicate = predicate ∧ e.object = object

/-- The triplets of a subject have changed. -/
def markDirty (f : Facts F) (subject : String) : Facts F :=
  { f with
    clean := false
    dirtySubjects := (if f.clean then some ∅ else f.dirtySubjects).map (insert subject) }

end Facts

/-- The entry of an addition.  Its reverse weight is attenuated. -/
def AddTripletOp.entry [F32 F] (o : AddTripletOp F) : TripletEntry F where
  id := o.tripletId
  subject := o.subject
  predicate := o.predicate
  object := o.object
  weight := o.weight
  reverseWeight := F32.mul o.weight (F32.lit (3 / 10))
  validFromMs := o.validFromMs
  validToMs := 0
  sourceMemoryId := o.sourceMemoryId
  sourceFile := o.sourceFile

namespace Facts

/-- What an addition says of the cleanness: an id that is reused calls for a full cleaning, a live
duplicate for one of its subject. -/
def noteAddition (f : Facts F) (o : AddTripletOp F) (reused duplicate : Bool) : Facts F :=
  let f := if reused then
      { f with
        duplicateIds := insert o.tripletId f.duplicateIds
        clean := false
        dirtySubjects := none }
    else f
  if !f.clean || duplicate then f.markDirty o.subject else f

/-- Add a triplet. -/
def insertWithId [F32 F] (f : Facts F) (o : AddTripletOp F) : Facts F :=
  let f := f.noteAddition o (f.idToIndex o.tripletId).isSome
    (f.findExactLive o.subject o.predicate o.object).isSome
  { f with
    idToIndex := Function.update f.idToIndex o.tripletId (some f.entries.length)
    bySourceFile := f.bySourceFile.map fun index => noteSource index (o.entry, f.entries.length)
    entries := f.entries ++ [o.entry]
    bySubject := post f.bySubject o.subject o.tripletId
    byObject := post f.byObject o.object o.tripletId
    byPredicate := post f.byPredicate o.predicate o.tripletId }

/-- Invalidate the triplet of an id. -/
def invalidate (f : Facts F) (o : InvalidateTripletOp) : Facts F :=
  match f.idToIndex o.tripletId with
  | none => f
  | some idx =>
    match f.entries[idx]? with
    | none => f
    | some e =>
      { f with entries := f.entries.set idx { e with validToMs := o.invalidatedAtMs } }.markDirty
        e.subject

/-- Invalidate the triplet at a position, if it is valid; its subject and its id are noted. -/
def expireAt (nowMs : ℤ) (acc : List (TripletEntry F) × List String × List ℕ) (pos : ℕ) :
    List (TripletEntry F) × List String × List ℕ :=
  match acc.1[pos]? with
  | none => acc
  | some e =>
    if e.validToMs = 0 then
      (acc.1.set pos { e with validToMs := nowMs }, acc.2.1 ++ [e.subject], acc.2.2 ++ [e.id])
    else acc

/-- Invalidate the valid triplets of a source file. -/
def invalidateBySourceFile (f : Facts F) (o : InvalidateTripletsBySourceFileOp) :
    Facts F × List ℕ :=
  let index := f.bySourceFile.getD (sourceIndex f.entries)
  let expired := (index o.sourceFile).foldl (expireAt o.invalidatedAtMs) (f.entries, [], [])
  (expired.2.1.foldl markDirty { f with entries := expired.1, bySourceFile := some index },
    expired.2.2)

end Facts

/-! ## Replay -/

/-- A triplet operation of replay. -/
inductive TripletOp (F : Type) where
  | add (o : AddTripletOp F)
  | invalidate (o : InvalidateTripletOp)
  | invalidateBySourceFile (o : InvalidateTripletsBySourceFileOp)
  | supersede (o : SupersedeTripletOp)

/-- The next id is above an id that is in use.  The counter wraps around. -/
def advanceNextId (nextId : UInt64) (id : ℕ) : UInt64 :=
  if nextId.toNat ≤ id then UInt64.ofNat (id + 1) else nextId

namespace TripletStore

/-- Mark the indexes as owed. -/
def markIndexesDirty (t : TripletStore F) : TripletStore F :=
  { t with indexesDirty := true, deferredReplay := some [] }

def rebuildIndexes (t : TripletStore F) : TripletStore F :=
  { t with toFacts := t.toFacts.rebuildIndexes, indexesDirty := false }

/-- Add a triplet with the id and the ingestion time given. -/
def replayAddAt [F32 F] (t : TripletStore F) (o : AddTripletOp F) (ingestedMs : ℤ) :
    TripletStore F :=
  let t := { t with nextId := advanceNextId t.nextId o.tripletId }
  match t.deferredReplay with
  | some buffer => { t with deferredReplay := some (buffer ++ [.add o ingestedMs]) }
  | none =>
    { t with
      toFacts := t.toFacts.insertWithId o
      ingestionTimes := Function.update t.ingestionTimes o.tripletId (some ingestedMs) }

/-- Invalidate a triplet. -/
def invalidate (t : TripletStore F) (o : InvalidateTripletOp) : TripletStore F :=
  match t.deferredReplay with
  | some buffer => { t with deferredReplay := some (buffer ++ [.invalidate o]) }
  | none => { t with toFacts := t.toFacts.invalidate o }

/-- Invalidate the valid triplets of a source file; their ids. -/
def invalidateBySourceFile (t : TripletStore F) (o : InvalidateTripletsBySourceFileOp) :
    TripletStore F × List ℕ :=
  match t.deferredReplay with
  | some buffer => ({ t with deferredReplay := some (buffer ++ [.invalidateBySourceFile o]) }, [])
  | none =>
    ({ t with toFacts := (t.toFacts.invalidateBySourceFile o).1 },
      (t.toFacts.invalidateBySourceFile o).2)

/-- Mark a triplet as superseded.  No index is needed for that. -/
def supersede (t : TripletStore F) (o : SupersedeTripletOp) : TripletStore F :=
  { t with
    supersessionMap := Function.update t.supersessionMap o.oldId
      (some (o.newId, o.supersededAtMs)) }

variable [F32 F]

/-- Apply a recorded mutation. -/
def applyDeferred (t : TripletStore F) : DeferredOp F → TripletStore F
  | .add o ingestedMs => t.replayAddAt o ingestedMs
  | .invalidate o => t.invalidate o
  | .invalidateBySourceFile o => (t.invalidateBySourceFile o).1

/-- Build the indexes if they are owed, and apply the recorded mutations. -/
def applyDeferredReplay (t : TripletStore F) : TripletStore F :=
  let t' := { t with deferredReplay := none }
  (t.deferredReplay.getD []).foldl applyDeferred
    (if t.indexesDirty then t'.rebuildIndexes else t')

/-- Build the indexes if they are owed. -/
def ensureIndexes (t : TripletStore F) : TripletStore F :=
  if t.indexesDirty then t.applyDeferredReplay else t

/-- Replay an operation at a time. -/
def replay (t : TripletStore F) : ℤ × TripletOp F → TripletStore F
  | (nowMs, .add o) => t.replayAddAt o nowMs
  | (_, .invalidate o) => t.invalidate o
  | (_, .invalidateBySourceFile o) => (t.invalidateBySourceFile o).1
  | (_, .supersede o) => t.supersede o

/-- Replay operations in order. -/
def replayAll (t : TripletStore F) (ops : List (ℤ × TripletOp F)) : TripletStore F :=
  ops.foldl replay t

end TripletStore

/-! ## The sidecar -/

/-- What the sidecar says, in the order its objects are walked. -/
structure Sidecar where
  supersessionMap : List (ℕ × ℕ × ℤ)
  ingestionTimes : List (ℕ × ℤ)

/-- Load the sidecar, if there is one that can be read.  What is in memory is kept. -/
def TripletStore.loadSupersessionSidecar (t : TripletStore F) (sidecar : Option Sidecar) :
    TripletStore F :=
  match sidecar with
  | none => t
  | some s =>
    { t with
      supersessionMap := s.supersessionMap.foldl (fun m p => Maps.orInsert m p.1 p.2)
        t.supersessionMap
      ingestionTimes := s.ingestionTimes.foldl (fun m p => Maps.orInsert m p.1 p.2)
        t.ingestionTimes }

/-! ## Cleaning -/

/-- The order in which a hash set of subjects is walked. -/
structure SubjectOrder where
  walk : Finset String → List String
  complete : ∀ subjects, (walk subjects).toFinset = subjects

/-- What the cleaner has selected so far. -/
structure Selection where
  removed : Finset ℕ
  purged : ℕ
  deduped : ℕ

namespace Facts

variable [F32 F]

/-- Look at the triplet at a position; `best` is the position of the best one of a predicate and an
object so far. -/
def selectAt (f : Facts F) (acc : Selection × (String × String → Option ℕ)) (pos : ℕ) :
    Selection × (String × String → Option ℕ) :=
  match f.entries[pos]? with
  | none => acc
  | some e =>
    if e.validToMs ≠ 0 then
      ({ acc.1 with
        removed := insert e.id acc.1.removed
        purged := if e.id ∈ acc.1.removed then acc.1.purged else acc.1.purged + 1 }, acc.2)
    else
      match (acc.2 (e.predicate, e.object)).bind fun previous => f.entries[previous]? with
      | none => (acc.1, Function.update acc.2 (e.predicate, e.object) (some pos))
      | some best =>
        if F32.lt best.weight e.weight then
          ({ acc.1 with removed := insert best.id acc.1.removed, deduped := acc.1.deduped + 1 },
            Function.update acc.2 (e.predicate, e.object) (some pos))
        else
          ({ acc.1 with removed := insert e.id acc.1.removed, deduped := acc.1.deduped + 1 }, acc.2)

/-- The positions of the triplets of a subject. -/
def positions (f : Facts F) (subject : String) : List ℕ :=
  (((f.bySubject subject).getD []).filterMap f.idToIndex).insertionSort (· ≤ ·)

/-- Look at the triplets of a subject. -/
def selectSubject (f : Facts F) (acc : Selection) (subject : String) : Selection :=
  ((f.positions subject).foldl f.selectAt (acc, fun _ => none)).1

/-- Look at the triplets of subjects. -/
def select (f : Facts F) (subjects : List String) : Selection :=
  subjects.foldl f.selectSubject ⟨∅, 0, 0⟩

end Facts

/-- Drop ids from the postings of some strings, and the strings that have none left. -/
def retainPostings (m : Postings) (keys : Finset String) (removed : Finset ℕ) : Postings :=
  fun key => if key ∈ keys then ((m key).map (·.filter (· ∉ removed))).filter (· ≠ []) else m key

/-- Remove triplets by their ids. -/
def Facts.remove (f : Facts F) (subjects : Finset String) (removed : Finset ℕ) : Facts F :=
  let entries := f.entries.filter (·.id ∉ removed)
  let gone := fun pick : TripletEntry F → String =>
    removed.biUnion fun id => (f.entryById id).elim ∅ fun e => {pick e}
  { f with
    bySourceFile := none
    entries := entries
    idToIndex := entries.zipIdx.foldl
      (fun m p => Maps.modifyAt m p.1.id fun _ => p.2)
      fun id => if id ∈ removed then none else f.idToIndex id
    bySubject := retainPostings f.bySubject subjects removed
    byObject := retainPostings f.byObject (gone (·.object)) removed
    byPredicate := retainPostings f.byPredicate (gone (·.predicate)) removed }

namespace TripletStore

/-- Drop the ingestion times of ids that are not there. -/
def retainIngested (t : TripletStore F) : TripletStore F :=
  { t with ingestionTimes := fun id => if (t.idToIndex id).isSome then t.ingestionTimes id else none }

/-- Remove the invalidated triplets; their number. -/
def purgeInvalidated (t : TripletStore F) : TripletStore F × ℕ :=
  let entries := t.entries.filter (·.validToMs = 0)
  let removed := t.entries.length - entries.length
  let t := { t with entries := entries }
  (if 0 < removed then t.rebuildIndexes.retainIngested else t, removed)

variable [F32 F]

/-- Look at the triplet at a position; of valid ones with the same strings the first among the
heaviest survives. -/
def dedupAt (entries : List (TripletEntry F))
    (acc : (String × String × String → Option ℕ) × Finset ℕ) (p : TripletEntry F × ℕ) :
    (String × String × String → Option ℕ) × Finset ℕ :=
  if p.1.validToMs ≠ 0 then acc
  else
    let key := (p.1.subject, p.1.predicate, p.1.object)
    match (acc.1 key).bind fun best => entries[best]?.map fun e => (best, e) with
    | none => (Function.update acc.1 key (some p.2), acc.2)
    | some (best, e) =>
      if F32.lt e.weight p.1.weight then
        (Function.update acc.1 key (some p.2), insert best acc.2)
      else (acc.1, insert p.2 acc.2)

/-- Remove the duplicates among the valid triplets; their number. -/
def dedupEntries (t : TripletStore F) : TripletStore F × ℕ :=
  let removed := (t.entries.zipIdx.foldl (dedupAt t.entries) (fun _ => none, ∅)).2
  if removed.card = 0 then (t, 0)
  else
    ({ t with
      entries := (t.entries.zipIdx.filter fun p : TripletEntry F × ℕ => p.2 ∉ removed).map
        Prod.fst }.rebuildIndexes.retainIngested, removed.card)

/-- Clean the triplets of subjects; how many were invalidated, and how many duplicates. -/
def cleanSubjects (order : SubjectOrder) (t : TripletStore F) (subjects : Finset String) :
    TripletStore F × ℕ × ℕ :=
  let s := t.toFacts.select (order.walk subjects)
  let t := if s.removed = ∅ then t else
    { t with
      toFacts := t.toFacts.remove subjects s.removed
      ingestionTimes := fun id => if id ∈ s.removed then none else t.ingestionTimes id }.retainIngested
  ({ t with clean := true }, s.purged, s.deduped)

/-- The subjects to look at.  Where one of them has a triplet whose id occurs more than once,
everything has to be looked at. -/
def knownSubjects (f : Facts F) : Option (Finset String) :=
  f.dirtySubjects.filter fun subjects =>
    ¬∃ subject ∈ subjects, ∃ id ∈ (f.bySubject subject).getD [], id ∈ f.duplicateIds

/-- Clean the triplets behind a load; how many were invalidated, and how many duplicates. -/
def cleanForLoad (order : SubjectOrder) (t : TripletStore F) : TripletStore F × ℕ × ℕ :=
  let t := t.ensureIndexes
  if t.clean then (t, 0, 0)
  else
    match knownSubjects t.toFacts with
    | some subjects => cleanSubjects order { t with dirtySubjects := none } subjects
    | none =>
      let purged := { t with dirtySubjects := none }.purgeInvalidated
      let deduped := purged.1.dedupEntries
      ({ deduped.1 with clean := true }, purged.2, deduped.2)

end TripletStore

end ChittaField
