import ChittaField.Organs.LineageReplay

/-!
# Interventions

An intervention is started, observed, closed and attributed to what went wrong.  A replay of these
operations does what the calls did.
-/

namespace ChittaField

variable {F : Type}

/-! ## The data -/

def ActionType.toU8 : ActionType → ℕ
  | .toolCall => 0
  | .multiStepPlan => 1
  | .delegation => 2
  | .edit => 3
  | .command => 4

def ActionType.fromU8 : ℕ → ActionType
  | 0 => .toolCall
  | 1 => .multiStepPlan
  | 2 => .delegation
  | 3 => .edit
  | 4 => .command
  | _ => .toolCall

def InterventionStatus.toU8 : InterventionStatus → ℕ
  | .isOpen => 0
  | .succeeded => 1
  | .failed => 2
  | .partly => 3
  | .aborted => 4

def InterventionStatus.fromU8 : ℕ → InterventionStatus
  | 0 => .isOpen
  | 1 => .succeeded
  | 2 => .failed
  | 3 => .partly
  | 4 => .aborted
  | _ => .aborted

/-- What it costs to take an intervention back. -/
inductive ReversalCost where
  | none
  | low
  | medium
  | high
  deriving DecidableEq, Repr

def ReversalCost.toU8 : ReversalCost → ℕ
  | .none => 0
  | .low => 1
  | .medium => 2
  | .high => 3

def ReversalCost.fromU8 : ℕ → ReversalCost
  | 0 => .none
  | 1 => .low
  | 2 => .medium
  | 3 => .high
  | _ => .none

/-- What was observed. -/
inductive ObservationKind where
  | stdout
  | stderr
  | fileDiff
  | testResult
  | envState
  | userFeedback
  deriving DecidableEq, Repr

def ObservationKind.toU8 : ObservationKind → ℕ
  | .stdout => 0
  | .stderr => 1
  | .fileDiff => 2
  | .testResult => 3
  | .envState => 4
  | .userFeedback => 5

def ObservationKind.fromU8 : ℕ → ObservationKind
  | 0 => .stdout
  | 1 => .stderr
  | 2 => .fileDiff
  | 3 => .testResult
  | 4 => .envState
  | 5 => .userFeedback
  | _ => .stdout

/-- What an outcome is attributed to. -/
inductive AttributionClass where
  | memoryRecallError
  | sourceTrustError
  | procedureError
  | toolExecutionError
  | environmentShift
  | hiddenPrecondition
  | ambiguousState
  | goalSpecError
  | userOverride
  | externalNondeterminism
  deriving DecidableEq, Repr

def AttributionClass.toU8 : AttributionClass → ℕ
  | .memoryRecallError => 0
  | .sourceTrustError => 1
  | .procedureError => 2
  | .toolExecutionError => 3
  | .environmentShift => 4
  | .hiddenPrecondition => 5
  | .ambiguousState => 6
  | .goalSpecError => 7
  | .userOverride => 8
  | .externalNondeterminism => 9

def AttributionClass.fromU8 : ℕ → AttributionClass
  | 0 => .memoryRecallError
  | 1 => .sourceTrustError
  | 2 => .procedureError
  | 3 => .toolExecutionError
  | 4 => .environmentShift
  | 5 => .hiddenPrecondition
  | 6 => .ambiguousState
  | 7 => .goalSpecError
  | 8 => .userOverride
  | 9 => .externalNondeterminism
  | _ => .externalNondeterminism

@[simp]
lemma ActionType.fromU8_toU8 (a : ActionType) : fromU8 a.toU8 = a := by
  cases a <;> rfl

@[simp]
lemma InterventionStatus.fromU8_toU8 (s : InterventionStatus) : fromU8 s.toU8 = s := by
  cases s <;> rfl

@[simp]
lemma ReversalCost.fromU8_toU8 (c : ReversalCost) : fromU8 c.toU8 = c := by
  cases c <;> rfl

@[simp]
lemma ObservationKind.fromU8_toU8 (k : ObservationKind) : fromU8 k.toU8 = k := by
  cases k <;> rfl

@[simp]
lemma AttributionClass.fromU8_toU8 (c : AttributionClass) : fromU8 c.toU8 = c := by
  cases c <;> rfl

/-- What is said of an intervention when it is started. -/
structure InterventionStart where
  realm : String
  sessionId : String
  taskId : Option ℕ
  agentId : String
  domain : String
  intent : String
  actionType : ActionType
  actionRef : String
  preconditions : List String
  expectedObservables : List String
  reversalCost : ReversalCost

/-- An intervention. -/
structure InterventionRecord extends InterventionStart where
  id : ℕ
  startedMs : ℤ
  closedMs : Option ℤ
  status : InterventionStatus

/-- An observation of an intervention. -/
structure ObservationRecord (F : Type) where
  id : ℕ
  interventionId : ℕ
  kind : ObservationKind
  evidenceRefs : List ℕ
  summary : String
  confidence : F
  timestampMs : ℤ

/-- What the outcome of an intervention is attributed to. -/
structure Attribution (F : Type) where
  interventionId : ℕ
  primaryClass : AttributionClass
  secondaryClass : Option AttributionClass
  confidenceDelta : F
  surpriseId : Option ℕ
  debtIds : List ℕ
  sourceMemoryIds : List ℕ
  skillMemoryIds : List ℕ
  note : Option String

/-- An attribution at a time. -/
structure AttributionRecord (F : Type) extends Attribution F where
  timestampMs : ℤ

/-- The interventions with their observations and attributions, and the indexes of them. -/
structure InterventionStore (F : Type) where
  nextInterventionId : ℕ
  nextObservationId : ℕ
  interventions : List InterventionRecord
  observations : List (ObservationRecord F)
  attributions : List (AttributionRecord F)
  idToIndex : ℕ → Option ℕ
  obsByIntervention : ℕ → Option (List ℕ)
  attrByIntervention : ℕ → Option ℕ
  openInterventions : Finset ℕ
  bySession : String → Option (List ℕ)
  byRealm : String → Option (List ℕ)

namespace InterventionStore

/-! ## Changes -/

def new : InterventionStore F :=
  ⟨1, 1, [], [], [], fun _ => none, fun _ => none, fun _ => none, ∅, fun _ => none, fun _ => none⟩

def get (s : InterventionStore F) (id : ℕ) : Option InterventionRecord :=
  (s.idToIndex id).bind fun idx => s.interventions[idx]?

def insertIntervention (s : InterventionStore F) (r : InterventionRecord) : InterventionStore F :=
  { s with
    openInterventions := insert r.id s.openInterventions
    bySession := Maps.push s.bySession r.sessionId r.id
    byRealm := Maps.push s.byRealm r.realm r.id
    idToIndex := Function.update s.idToIndex r.id (some s.interventions.length)
    interventions := s.interventions ++ [r] }

/-- Start an intervention; its id. -/
def startIntervention (s : InterventionStore F) (i : InterventionStart) (now : ℤ) :
    InterventionStore F × ℕ :=
  ({ s with nextInterventionId := s.nextInterventionId + 1 }.insertIntervention
    ⟨i, s.nextInterventionId, now, none, .isOpen⟩, s.nextInterventionId)

def replayStart (s : InterventionStore F) (r : InterventionRecord) : InterventionStore F :=
  { s with
    nextInterventionId :=
      if s.nextInterventionId ≤ r.id then r.id + 1 else s.nextInterventionId }.insertIntervention r

/-- Put an observation behind all. -/
def pushObservation (s : InterventionStore F) (o : ObservationRecord F) : InterventionStore F :=
  { s with
    obsByIntervention := Maps.push s.obsByIntervention o.interventionId s.observations.length
    observations := s.observations ++ [o] }

/-- Note an observation of an intervention; its id. -/
def addObservation (s : InterventionStore F) (interventionId : ℕ) (kind : ObservationKind)
    (evidenceRefs : List ℕ) (summary : String) (confidence : F) (now : ℤ) :
    InterventionStore F × Option ℕ :=
  if (s.idToIndex interventionId).isNone then (s, none)
  else
    ({ s with nextObservationId := s.nextObservationId + 1 }.pushObservation
      ⟨s.nextObservationId, interventionId, kind, evidenceRefs, summary, confidence, now⟩,
      some s.nextObservationId)

def replayObservation (s : InterventionStore F) (o : ObservationRecord F) : InterventionStore F :=
  { s with
    nextObservationId :=
      if s.nextObservationId ≤ o.id then o.id + 1 else s.nextObservationId }.pushObservation o

/-- Close an intervention; whether there is one.  It is not among the open ones any more, whatever
the status. -/
def closeIntervention (s : InterventionStore F) (id : ℕ) (status : InterventionStatus) (now : ℤ) :
    InterventionStore F × Bool :=
  match s.idToIndex id with
  | none => (s, false)
  | some idx =>
    ({ s with
        interventions := s.interventions.modify idx fun r =>
          { r with status := status, closedMs := some now }
        openInterventions := s.openInterventions.erase id }, true)

def replayClose (s : InterventionStore F) (id : ℕ) (status : InterventionStatus) (closedMs : ℤ) :
    InterventionStore F := (s.closeIntervention id status closedMs).1

def replayAttribution (s : InterventionStore F) (a : AttributionRecord F) : InterventionStore F :=
  { s with
    attrByIntervention := Function.update s.attrByIntervention a.interventionId
      (some s.attributions.length)
    attributions := s.attributions ++ [a] }

/-- Attribute an outcome; whether there is such an intervention. -/
def recordAttribution (s : InterventionStore F) (a : Attribution F) (now : ℤ) :
    InterventionStore F × Bool :=
  if (s.idToIndex a.interventionId).isNone then (s, false) else (s.replayAttribution ⟨a, now⟩, true)

/-! ## Operations -/

/-- The operation of a start. -/
def startOp (i : InterventionStart) (id : ℕ) (now : ℤ) : StartInterventionOp where
  id := id
  realm := i.realm
  sessionId := i.sessionId
  taskId := i.taskId
  agentId := i.agentId
  domain := i.domain
  intent := i.intent
  actionType := i.actionType.toU8
  actionRef := i.actionRef
  preconditions := i.preconditions
  expectedObservables := i.expectedObservables
  reversalCost := i.reversalCost.toU8
  startedMs := now

/-- The operation of an attribution. -/
def attributionOp (a : Attribution F) (now : ℤ) : RecordAttributionOp F where
  interventionId := a.interventionId
  primaryClass := a.primaryClass.toU8
  secondaryClass := a.secondaryClass.map AttributionClass.toU8
  confidenceDelta := a.confidenceDelta
  surpriseId := a.surpriseId
  debtIds := a.debtIds
  sourceMemoryIds := a.sourceMemoryIds
  skillMemoryIds := a.skillMemoryIds
  note := a.note
  timestampMs := now

/-- Apply an operation of the log. -/
def apply (s : InterventionStore F) : Op F → InterventionStore F
  | .startIntervention o =>
    s.replayStart ⟨⟨o.realm, o.sessionId, o.taskId, o.agentId, o.domain, o.intent,
      .fromU8 o.actionType, o.actionRef, o.preconditions, o.expectedObservables,
      .fromU8 o.reversalCost⟩, o.id, o.startedMs, none, .isOpen⟩
  | .addObservation o =>
    s.replayObservation ⟨o.id, o.interventionId, .fromU8 o.kind, o.evidenceRefs, o.summary,
      o.confidence, o.timestampMs⟩
  | .closeIntervention o => s.replayClose o.interventionId (.fromU8 o.status) o.closedMs
  | .recordAttribution o =>
    s.replayAttribution ⟨⟨o.interventionId, .fromU8 o.primaryClass,
      o.secondaryClass.map AttributionClass.fromU8, o.confidenceDelta, o.surpriseId, o.debtIds,
      o.sourceMemoryIds, o.skillMemoryIds, o.note⟩, o.timestampMs⟩
  | _ => s

variable (s : InterventionStore F)

/-- A start is replayed as it was done. -/
lemma apply_startOp (i : InterventionStart) (now : ℤ) :
    s.apply (.startIntervention (startOp i (s.startIntervention i now).2 now)) =
      (s.startIntervention i now).1 := by
  simp [apply, startOp, startIntervention, replayStart]

/-- An observation of an intervention that there is, is replayed as it was done. -/
lemma apply_observation {id oid : ℕ} {kind : ObservationKind} {evidenceRefs : List ℕ}
    {summary : String} {confidence : F} {now : ℤ}
    (h : (s.addObservation id kind evidenceRefs summary confidence now).2 = some oid) :
    s.apply (.addObservation ⟨oid, id, kind.toU8, evidenceRefs, summary, confidence, now⟩) =
      (s.addObservation id kind evidenceRefs summary confidence now).1 := by
  unfold addObservation at h ⊢
  split_ifs at h ⊢
  obtain rfl := Option.some.inj h
  simp [apply, replayObservation]

/-- An attribution to an intervention that there is, is replayed as it was done. -/
lemma apply_attributionOp {a : Attribution F} {now : ℤ} (h : (s.recordAttribution a now).2 = true) :
    s.apply (.recordAttribution (attributionOp a now)) = (s.recordAttribution a now).1 := by
  unfold recordAttribution at h ⊢
  split_ifs at h ⊢
  obtain ⟨id, primary, secondary, delta, surprise, debts, sources, skills, note⟩ := a
  cases secondary <;> simp [apply, attributionOp]

end InterventionStore

end ChittaField
