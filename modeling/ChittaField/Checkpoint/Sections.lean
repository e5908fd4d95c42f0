import ChittaField.Lib.Lossy
import ChittaField.Log.Reader

/-!
# Sectioned snapshots

A snapshot file is a header and sections: a name, a length, and a body, which has one field of the
snapshot.  The loader makes a table of the sections, decodes bodies in parallel, and publishes groups
of sections when they are asked for.  `serialLoop` reads, decodes and applies one section after the
other.
-/

namespace ChittaField

/-! ## The table -/

/-- A section of a file. -/
structure Section where
  name : String
  body : Bytes
  declaredLen : ℕ

/-- What stands in front of a body. -/
inductive SectionHeader where
  | done
  | torn
  | header (name : String) (declaredLen : ℕ) (rest : Bytes)

/-- Read what stands in front of a body. -/
def readSectionHeader (bytes : Bytes) : SectionHeader :=
  match readExact 2 bytes with
  | none => .done
  | some (nlen, bytes) =>
    match readExact (leNat nlen) bytes with
    | none => .torn
    | some (name, bytes) =>
      match readExact 8 bytes with
      | none => .torn
      | some (blen, bytes) => .header (Lossy.fromUtf8Lossy name) (leNat blen) bytes

/-- The file ends inside what stands in front of a body. -/
def tornHeader : FieldError := .io "failed to fill whole buffer"

lemma length_of_readExact {n : ℕ} {bytes a rest : Bytes} (h : readExact n bytes = some (a, rest)) :
    rest.length + n = bytes.length := by
  unfold readExact at h
  split at h
  · obtain ⟨rfl, rfl⟩ := Prod.mk.inj (Option.some.inj h)
    rw [List.length_drop]
    omega
  · cases h

/-- What is left of the file gets shorter. -/
lemma drop_lt_of_readSectionHeader {bytes rest : Bytes} {name : String} {declaredLen : ℕ}
    (h : readSectionHeader bytes = .header name declaredLen rest) (n : ℕ) :
    (rest.drop n).length < bytes.length := by
  unfold readSectionHeader at h
  split at h
  · cases h
  · next nlen bytes₁ h₁ =>
    split at h
    · cases h
    · next name' bytes₂ h₂ =>
      split at h
      · cases h
      · next blen bytes₃ h₃ =>
        obtain ⟨-, -, rfl⟩ := SectionHeader.header.inj h
        have hlen₁ := length_of_readExact h₁
        have hlen₂ := length_of_readExact h₂
        have hlen₃ := length_of_readExact h₃
        rw [List.length_drop]
        omega

/-- Index the bodies without decoding them.  A malformed header is kept as the last result. -/
def sectionTable (bytes : Bytes) : List Section × Except FieldError Unit :=
  match _h : readSectionHeader bytes with
  | .done => ([], .ok ())
  | .torn => ([], .error tornHeader)
  | .header name declaredLen rest =>
    let len := min declaredLen rest.length
    let table := sectionTable (rest.drop len)
    (⟨name, rest.take len, declaredLen⟩ :: table.1, table.2)
termination_by bytes.length
decreasing_by exact drop_lt_of_readSectionHeader _h _

/-! ## The snapshot -/

/-- The fields of a snapshot. -/
inductive SectionField where
  | payloads
  | states
  | assocEdges
  | artifacts
  | artifactPaths
  | timeIdx
  | keywordIdx
  | artifactIdx
  | tripletStore
  | symbolIdx
  | callGraph
  | codeFiles
  | semanticIdx
  | coactivationStats
  | ackScores
  | correctionStates
  | eventTape
  | decisionTape
  | turiyaMonitor
  | observerState
  | interactionLedger
  | predicateStore
  | cwRefreshTs
  | recallProvenance
  | utilityPosteriors
  | ledgerSessionEvents
  deriving DecidableEq, Repr

/-- The name of the section of a field. -/
def SectionField.name : SectionField → String
  | .payloads => "payloads"
  | .states => "states"
  | .assocEdges => "assoc_edges"
  | .artifacts => "artifacts"
  | .artifactPaths => "artifact_paths"
  | .timeIdx => "time_idx"
  | .keywordIdx => "keyword_idx"
  | .artifactIdx => "artifact_idx"
  | .tripletStore => "triplet_store"
  | .symbolIdx => "symbol_idx"
  | .callGraph => "call_graph"
  | .codeFiles => "code_files"
  | .semanticIdx => "semantic_idx"
  | .coactivationStats => "coactivation_stats"
  | .ackScores => "ack_scores"
  | .correctionStates => "correction_states"
  | .eventTape => "event_tape"
  | .decisionTape => "decision_tape"
  | .turiyaMonitor => "turiya_monitor"
  | .observerState => "observer_state"
  | .interactionLedger => "interaction_ledger"
  | .predicateStore => "predicate_store"
  | .cwRefreshTs => "cw_refresh_ts"
  | .recallProvenance => "recall_provenance"
  | .utilityPosteriors => "utility_posteriors"
  | .ledgerSessionEvents => "ledger_session_events"

/-- All fields. -/
def SectionField.all : List SectionField :=
  [.payloads, .states, .assocEdges, .artifacts, .artifactPaths, .timeIdx, .keywordIdx, .artifactIdx,
    .tripletStore, .symbolIdx, .callGraph, .codeFiles, .semanticIdx, .coactivationStats, .ackScores,
    .correctionStates, .eventTape, .decisionTape, .turiyaMonitor, .observerState, .interactionLedger,
    .predicateStore, .cwRefreshTs, .recallProvenance, .utilityPosteriors, .ledgerSessionEvents]

/-- What a section is for.  The marker of clean triplets is a section of its own. -/
inductive SectionKind where
  | field (f : SectionField)
  | tripletsClean
  | unknown
  deriving DecidableEq

/-- What a section of a name is for. -/
def SectionKind.ofName (name : String) : SectionKind :=
  if name = "triplets_clean" then .tripletsClean
  else ((SectionField.all.find? fun f => f.name = name).map .field).getD .unknown

/-- The field that sections of a name write. -/
def targetOf (name : String) : Option SectionField :=
  match SectionKind.ofName name with
  | .field f => some f
  | .tripletsClean => some .tripletStore
  | .unknown => none

/-- The types of the fields, the package that decodes bodies, and what the loader does with the
triplets and the states that it has decoded. -/
structure SnapshotCodec where
  Val : SectionField → Type
  empty : ∀ f, Val f
  decode : ∀ f, Bytes → Except String (Val f)
  decodeClean : Bytes → Except String Bool
  /-- Rebuild the indexes of the triplets, or leave that for later. -/
  indexTriplets : Bool → Val .tripletStore → Val .tripletStore
  setClean : Bool → Val .tripletStore → Val .tripletStore
  /-- Make every state finite. -/
  sanitize : Val .states → Val .states

/-- A snapshot. -/
@[ext]
structure FullSnapshot (C : SnapshotCodec) where
  snapshotSeqno : ℕ
  value : ∀ f, C.Val f

namespace FullSnapshot

variable {C : SnapshotCodec}

/-- An empty snapshot; sections that the file does not have keep these values. -/
def empty (C : SnapshotCodec) (snapshotSeqno : ℕ) : FullSnapshot C := ⟨snapshotSeqno, C.empty⟩

/-- Set a field. -/
def set (snap : FullSnapshot C) (f : SectionField) (v : C.Val f) : FullSnapshot C :=
  { snap with value := Function.update snap.value f v }

/-- Make the states finite. -/
def sanitizeStates (snap : FullSnapshot C) : FullSnapshot C :=
  snap.set .states (C.sanitize (snap.value .states))

@[simp] lemma value_set (snap : FullSnapshot C) (f : SectionField) (v : C.Val f) :
    (snap.set f v).value f = v := Function.update_self ..

lemma value_set_of_ne (snap : FullSnapshot C) {f f' : SectionField} (h : f' ≠ f) (v : C.Val f) :
    (snap.set f v).value f' = snap.value f' := Function.update_of_ne h _ _

@[simp] lemma value_sanitizeStates (snap : FullSnapshot C) :
    snap.sanitizeStates.value .states = C.sanitize (snap.value .states) := value_set ..

lemma value_sanitizeStates_of_ne (snap : FullSnapshot C) {f : SectionField} (h : f ≠ .states) :
    snap.sanitizeStates.value f = snap.value f := value_set_of_ne _ h _

end FullSnapshot

/-! ## Decoding a section -/

section Decode

variable (C : SnapshotCodec) (deferTripletIndexes : Bool)

/-- What is applied to a snapshot for a section. -/
abbrev ApplySection : Type := FullSnapshot C → FullSnapshot C

/-- A decoded field as it is stored. -/
def prepare : ∀ f, C.Val f → C.Val f
  | .tripletStore, v => C.indexTriplets deferTripletIndexes v
  | _, v => v

/-- A body that is not what its section says. -/
def sectionError (name message : String) : FieldError :=
  .serialization ("section '" ++ name ++ "': " ++ message)

/-- Decode a section. -/
def decodeSection (s : Section) : Except FieldError (ApplySection C) :=
  match SectionKind.ofName s.name with
  | .field f =>
    match C.decode f s.body with
    | .ok value => .ok fun snap => snap.set f (prepare C deferTripletIndexes f value)
    | .error e => .error (sectionError s.name e)
  | .tripletsClean =>
    match C.decodeClean s.body with
    | .ok value => .ok fun snap =>
      snap.set .tripletStore (C.setClean value (snap.value .tripletStore))
    | .error e => .error (sectionError s.name e)
  | .unknown => .ok id

/-- Read, decode and apply one section after the other; states are made finite as they come. -/
def serialLoop (bytes : Bytes) (snap : FullSnapshot C) : Except FieldError (FullSnapshot C) :=
  match _h : readSectionHeader bytes with
  | .done => .ok snap
  | .torn => .error tornHeader
  | .header name declaredLen rest =>
    match decodeSection C deferTripletIndexes ⟨name, rest.take declaredLen, declaredLen⟩ with
    | .error e => .error e
    | .ok apply =>
      serialLoop (rest.drop declaredLen)
        (if name = "states" then (apply snap).sanitizeStates else apply snap)
termination_by bytes.length
decreasing_by exact drop_lt_of_readSectionHeader _h _

end Decode

/-! ## Publishing groups of sections -/

/-- A section, its body if it is decoded and not published, and whether it is published. -/
structure SectionSlot (C : SnapshotCodec) where
  head : Section
  decoded : Option (Except FieldError (ApplySection C))
  published : Bool

/-- A file that is being loaded. -/
structure MappedSnapshot (C : SnapshotCodec) where
  slots : List (SectionSlot C)
  failed : Bool
  tableResult : Except FieldError Unit
  seqno : ℕ
  deferTripletIndexes : Bool

namespace MappedSnapshot

variable {C : SnapshotCodec}

/-- The bytes behind the header of a file. -/
def new (C : SnapshotCodec) (bytes : Bytes) (seqno : ℕ) (deferTripletIndexes : Bool) :
    MappedSnapshot C where
  slots := (sectionTable bytes).1.map fun s => ⟨s, none, false⟩
  failed := false
  tableResult := (sectionTable bytes).2
  seqno := seqno
  deferTripletIndexes := deferTripletIndexes

/-- Decode a section if it is selected and neither decoded nor published. -/
def decodeSlot (deferTripletIndexes : Bool) (select : String → Bool) (s : SectionSlot C) :
    SectionSlot C :=
  if !s.published && s.decoded.isNone && select s.head.name then
    { s with decoded := some (decodeSection C deferTripletIndexes s.head) }
  else s

/-- Decode the selected sections.  Each result goes to its own section, in whatever order the pool
gets to it. -/
def decodeSelected (p : MappedSnapshot C) (select : String → Bool) : MappedSnapshot C :=
  { p with slots := p.slots.map (decodeSlot p.deferTripletIndexes select) }

/-- Selecting one of the sections of the triplets selects both. -/
def grouped (select : String → Bool) (name : String) : Bool :=
  select name || ((select "triplet_store" || select "triplets_clean") &&
    (name = "triplet_store" || name = "triplets_clean"))

/-- What is decoded, or the first error.  All of it has been decoded; that it has not is a panic of
the source, which is not reached. -/
def takeReady : List (SectionSlot C) → Except FieldError (List (ApplySection C))
  | [] => .ok []
  | s :: rest =>
    match s.decoded with
    | none => .error (.manifest "selected snapshot section decoded")
    | some (.error e) => .error e
    | some (.ok apply) =>
      match takeReady rest with
      | .error e => .error e
      | .ok ready => .ok (apply :: ready)

/-- What a publication takes. -/
def wanted (select : String → Bool) (s : SectionSlot C) : Bool :=
  !s.published && grouped select s.head.name

/-- Mark a section as published if it is taken. -/
def publishSlot (select : String → Bool) (s : SectionSlot C) : SectionSlot C :=
  if wanted select s then { s with decoded := none, published := true } else s

/-- Publish a group of sections once, in the order of the file.  All bodies are checked before the
snapshot is changed. -/
def publishSelected (p : MappedSnapshot C) (snap : FullSnapshot C) (select : String → Bool) :
    (MappedSnapshot C × FullSnapshot C) × Except FieldError Unit :=
  if p.failed then ((p, snap), .error (.manifest "snapshot publication already failed"))
  else
    let p := p.decodeSelected (grouped select)
    match takeReady (p.slots.filter (wanted select)) with
    | .error e => (({ p with failed := true }, snap), .error e)
    | .ok ready =>
      let statesPublished := (p.slots.filter (wanted select)).any fun s => s.head.name = "states"
      let snap := ready.foldl (fun snap apply => apply snap) snap
      let snap := if statesPublished then snap.sanitizeStates else snap
      (({ p with slots := p.slots.map (publishSlot select) }, snap), .ok ())

/-- Publish all that is left; then the table has to be well formed. -/
def finishInto (p : MappedSnapshot C) (snap : FullSnapshot C) :
    FullSnapshot C × Except FieldError Unit :=
  let r := p.publishSelected snap fun _ => true
  (r.1.2, r.2.bind fun _ => p.tableResult)

/-- Publish everything. -/
def finish (p : MappedSnapshot C) : Except FieldError (FullSnapshot C) :=
  let r := p.finishInto (.empty C p.seqno)
  r.2.map fun _ => r.1

/-- Publish groups one after the other, whether they fail or not. -/
def stage (p : MappedSnapshot C) (snap : FullSnapshot C) (selects : List (String → Bool)) :
    MappedSnapshot C × FullSnapshot C :=
  selects.foldl (fun r select => (r.1.publishSelected r.2 select).1) (p, snap)

end MappedSnapshot

end ChittaField
