import Mathlib.Algebra.Order.Field.Rat

/-!
# Operations of the write-ahead log

Every mutation of the store is an `Op`; the log is a sequence of them.  The records below have the
fields of the source's records; the fields that no definition of the project reads stay encoded, as
`rest`.  The single-precision numbers of the source are a type parameter `F`: no definition in this
file computes with them.

`opTypeByte` is the discriminant stored beside the payload of a log record, and `opTimestamp` is
the clock that merge replay sorts by, absent for operations that carry none.
-/

namespace ChittaField

/-- A memory id. -/
abbrev MemoryId := ℕ

/-- An artifact id. -/
abbrev ArtifactId := ℕ

/-- The id of one writer of the store. -/
abbrev InstanceId := ℕ

/-- A byte string. -/
abbrev Bytes := List UInt8

/-- The content hash of a memory. -/
abbrev ChunkHash := Bytes

/-! ## Memories -/

/-- How a memory relates to an artifact it mentions. -/
inductive ArtifactRelation where
  | touched
  | edited
  | created
  | read
  | mentioned
  deriving DecidableEq, Repr

/-- A reference from a memory to an artifact. -/
structure ArtifactRef where
  artifactId : ArtifactId
  relation : ArtifactRelation
  lineStart : ℕ
  lineEnd : ℕ

/-- A new memory.  The op carries neither the confidence nor the decay rate of the call. -/
structure PutPayloadOp (F : Type) where
  memoryId : MemoryId
  version : ℕ
  chunkHash : ChunkHash
  createdAtMs : ℤ
  authoredAtMs : ℤ
  kind : String
  realm : String
  content : Bytes
  embeddingModel : String
  embedding : List F
  artifactRefs : List ArtifactRef
  sourceSession : Option String
  sourceTool : Option String
  harness : Option String
  embeddingModelId : String
  embeddingDim : ℕ

/-- A change to a memory's mutable state; `none` leaves a field as it is. -/
structure StateDeltaOp (F : Type) where
  memoryId : MemoryId
  strengthDelta : Option F
  confidenceDelta : Option F
  decayRate : Option F
  touch : Bool
  pin : Option Bool
  opTsMs : ℤ
  status : Option ℕ
  epistemicStatus : Option ℕ
  staged : Option Bool
  invalidatedBy : Option String

/-- A memory is forgotten. -/
structure DeleteMemoryOp where
  memoryId : MemoryId
  deletedAtMs : ℤ

/-- The content of a memory changes; an empty embedding means no new embedding. -/
structure UpdateMemoryContentOp (F : Type) where
  memoryId : MemoryId
  content : Bytes
  embedding : List F
  opTsMs : ℤ

/-- The semantic kind of a memory changes. -/
structure UpdateMemoryKindOp where
  memoryId : MemoryId
  newKind : String
  opTsMs : ℤ

/-- A memory moves to another tier. -/
structure DemoteMemoryOp where
  memoryId : MemoryId
  newTier : ℕ

/-- One outcome observation accrued into a memory's Beta utility posterior. -/
structure RecordOutcomeOp (F : Type) where
  memoryId : MemoryId
  success : Bool
  weight : F
  tsMs : ℤ

/-- The sparse code of a memory in the cortical index. -/
structure UpdateSparseCodeOp (F : Type) where
  memoryId : ℕ
  featureIds : List ℕ
  activations : List F
  tsMs : ℤ

/-- A trained product quantizer. -/
structure TrainPQOp where
  codebookBytes : Bytes

/-- The product-quantizer codes of one memory. -/
structure UpdateResidualPQOp where
  memoryId : MemoryId
  pqBytes : Bytes

/-! ## Associations, triplets, artifacts and code -/

/-- The kinds of association edges. -/
inductive EdgeType where
  | derivedFrom
  | sameSession
  | sameArtifact
  | coRetrieved
  | contradicts
  | supports
  | semanticNeighbor
  deriving DecidableEq, Repr

/-- A directed association edge. -/
structure AddAssocEdgeOp (F : Type) where
  src : MemoryId
  dst : MemoryId
  edgeType : EdgeType
  weight : F

/-- An association edge gains weight in both directions. -/
structure StrengthenAssocEdgeOp (F : Type) where
  src : MemoryId
  dst : MemoryId
  edgeType : EdgeType
  delta : F

/-- A completed recall touches its results and strengthens the edges between them. -/
structure RecordRecallBatchOp (F : Type) where
  memoryIds : List MemoryId
  centroidQ : List ℤ
  centroidScale : F
  contextHash : ℕ
  tsMs : ℤ
  baseAssocDelta : F

/-- A file artifact is registered. -/
structure UpsertArtifactOp where
  artifactId : ArtifactId
  normalizedPath : String
  repoRoot : Option String

/-- A triplet enters the graph. -/
structure AddTripletOp (F : Type) where
  tripletId : ℕ
  subject : String
  predicate : String
  object : String
  weight : F
  validFromMs : ℤ
  sourceMemoryId : Option ℕ
  sourceFile : Option String

/-- A triplet stops being valid. -/
structure InvalidateTripletOp where
  tripletId : ℕ
  invalidatedAtMs : ℤ

/-- Belief revision: `oldId` is superseded by `newId`. -/
structure SupersedeTripletOp where
  oldId : ℕ
  newId : ℕ
  supersededAtMs : ℤ

/-- All triplets of one source file stop being valid. -/
structure InvalidateTripletsBySourceFileOp where
  sourceFile : String
  invalidatedAtMs : ℤ

/-- A code symbol is added or replaced. -/
structure UpsertSymbolOp where
  rest : Bytes

/-- A code symbol is removed. -/
structure RemoveSymbolOp where
  symbolId : ℕ

/-- A call edge is added. -/
structure AddSymCallEdgeOp where
  callerId : ℕ
  calleeId : ℕ

/-- A call edge is removed. -/
structure RemoveSymCallEdgeOp where
  callerId : ℕ
  calleeId : ℕ

/-- A code file is added or replaced. -/
structure UpsertCodeFileOp where
  rest : Bytes

/-- All code files and symbols of a project are removed. -/
structure ClearProjectOp where
  project : String

/-- The description of a symbol changes. -/
structure UpdateSymbolDescriptionOp where
  symbolId : ℕ
  description : String
  opTsMs : ℤ

/-- An event about a symbol. -/
structure SymbolEventOp where
  timestampMs : ℤ
  rest : Bytes

/-! ## Domain events and registries -/

/-- A session lifecycle event. -/
structure SessionEventOp where
  eventId : ℕ
  sessionId : String
  kind : String
  payloadJson : Bytes
  realm : String
  tsMs : ℤ

/-- A transcript lifecycle event. -/
structure TranscriptEventOp where
  tsMs : ℤ
  rest : Bytes

/-- A task lifecycle event. -/
structure TaskEventOp where
  eventId : ℕ
  taskType : String
  taskId : String
  kind : String
  payloadJson : Bytes
  realm : String
  tsMs : ℤ
  fencingToken : ℕ

/-- A user-model entity event. -/
structure UserModelEventOp where
  tsMs : ℤ
  rest : Bytes

/-- A theme graph event. -/
structure ThemeEventOp where
  tsMs : ℤ
  rest : Bytes

/-- An analytics event. -/
structure AnalyticsEventOp where
  tsMs : ℤ
  rest : Bytes

/-- A cross-session message event. -/
structure MsgEventOp where
  eventId : ℕ
  domain : String
  kind : String
  target : String
  payloadJson : Bytes
  realm : String
  tsMs : ℤ

/-- A new version of a skill. -/
structure SkillUploadOp where
  skillId : String
  content : String
  uploadedBy : String
  tags : List String
  tsMs : ℤ

/-- The latest version of a skill is deprecated. -/
structure SkillDeprecateOp where
  skillId : String

/-- An agent identity is registered or updated. -/
structure AgentUpsertOp where
  agentId : String
  displayName : String
  description : String
  tsMs : ℤ

/-- An agent is revoked. -/
structure AgentDisableOp where
  agentId : String

/-! ## Constraints, triggers, surprise and debt -/

/-- A constraint fact is asserted. -/
structure AssertConstraintOp (F : Type) where
  factId : ℕ
  subject : String
  predicate : String
  object : String
  confidence : F
  scope : String
  branchId : ℕ
  provenanceSource : String
  provenanceSession : Option String
  provenanceBasis : String
  validFromMs : ℤ
  sourceMemoryId : Option ℕ

/-- A constraint fact is retracted. -/
structure RetractConstraintOp where
  factId : ℕ
  retractedAtMs : ℤ

/-- A rival branch is opened. -/
structure CreateBranchOp where
  branchId : ℕ
  parentId : ℕ
  scope : String
  createdMs : ℤ

/-- A branch conflict is resolved. -/
structure ResolveBranchOp where
  winnerId : ℕ
  loserId : ℕ
  resolvedAtMs : ℤ

/-- A trigger automaton is added. -/
structure AddTriggerOp where
  triggerJson : Bytes

/-- The status of a trigger changes. -/
structure UpdateTriggerOp where
  triggerId : ℕ
  status : ℕ
  firedMs : ℤ

/-- A trigger fires. -/
structure FireTriggerOp where
  triggerId : ℕ
  firedMs : ℤ

/-- A surprise event. -/
structure RecordSurpriseOp (F : Type) where
  eventId : ℕ
  contextSketch : String
  action : String
  expected : Option String
  actual : String
  surpriseMagnitude : F
  domain : String
  timestampMs : ℤ
  realm : String
  sessionId : Option String
  sourceMemoryId : Option ℕ

/-- An epistemic debt is registered. -/
structure RegisterDebtOp (F : Type) where
  debtId : ℕ
  pattern : String
  competingHypotheses : List String
  discriminatingTest : Option String
  fragilityScore : F
  domain : String
  createdMs : ℤ
  realm : String
  sourceSession : Option String

/-- The status of a debt changes. -/
structure UpdateDebtOp where
  debtId : ℕ
  status : ℕ
  resolvedMs : ℤ
  resolution : Option String

/-- Evidence is attached to a debt. -/
structure AttachDebtEvidenceOp (F : Type) where
  debtId : ℕ
  evidenceMemoryIds : List ℕ
  confidence : F
  note : Option String
  attachedMs : ℤ

/-! ## Learning -/

/-- The weight of a source in a query domain. -/
structure UpdateSourceWeightOp (F : Type) where
  source : String
  queryDomain : String
  weight : F

/-- Feedback about a source in a query domain. -/
structure RecordFeedbackOp (F : Type) where
  source : String
  queryDomain : String
  wasUseful : Bool
  newWeight : F
  successCount : ℕ
  totalCount : ℕ

/-- The surprise credit of a memory. -/
structure UpdateSurpriseCreditOp (F : Type) where
  memoryId : ℕ
  credit : F
  lastDir : ℤ
  sameDirStreak : ℕ
  lastSurpriseId : ℕ
  updatedMs : ℤ

/-- A wisdom candidate is added or replaced. -/
structure UpsertWisdomCandidateOp (F : Type) where
  candidateId : ℕ
  clusterKey : String
  domain : String
  action : String
  summary : String
  episodeIds : List ℕ
  debtIds : List ℕ
  supportCount : ℕ
  crossSessionCount : ℕ
  meanSurprise : F
  promotionScore : F
  createdMs : ℤ

/-- A wisdom candidate changes its lifecycle state. -/
structure UpdateWisdomLifecycleOp where
  candidateId : ℕ
  memoryId : Option ℕ
  oldState : ℕ
  newState : ℕ
  contradictionCount : ℕ
  updatedMs : ℤ

/-- New weights of the learned scorer. -/
structure UpdateScorerModelOp where
  appliedAtMs : ℤ
  rest : Bytes

/-! ## Interventions, agent tasks and wisdom lineages -/

/-- An intervention starts. -/
structure StartInterventionOp where
  id : ℕ
  realm : String
  sessionId : String
  taskId : Option ℕ
  agentId : String
  domain : String
  intent : String
  actionType : ℕ
  actionRef : String
  preconditions : List String
  expectedObservables : List String
  reversalCost : ℕ
  startedMs : ℤ

/-- An observation of an intervention. -/
structure AddObservationOp (F : Type) where
  id : ℕ
  interventionId : ℕ
  kind : ℕ
  evidenceRefs : List ℕ
  summary : String
  confidence : F
  timestampMs : ℤ

/-- An intervention ends. -/
structure CloseInterventionOp where
  interventionId : ℕ
  status : ℕ
  closedMs : ℤ

/-- The outcome of an intervention is attributed. -/
structure RecordAttributionOp (F : Type) where
  interventionId : ℕ
  primaryClass : ℕ
  secondaryClass : Option ℕ
  confidenceDelta : F
  surpriseId : Option ℕ
  debtIds : List ℕ
  sourceMemoryIds : List ℕ
  skillMemoryIds : List ℕ
  note : Option String
  timestampMs : ℤ

/-- An agent task is registered. -/
structure RegisterTaskOp where
  id : ℕ
  sessionId : String
  realm : String
  goal : String
  constraints : List String
  acceptanceCriteria : List String
  priority : ℕ
  parentTaskId : Option ℕ
  tags : List String
  deadlineMs : Option ℤ
  createdMs : ℤ

/-- An agent task changes. -/
structure UpdateTaskOp where
  taskId : ℕ
  status : ℕ
  addInterventionId : Option ℕ
  addTag : Option String
  updatedMs : ℤ

/-- A task is handed from one agent to another. -/
structure AddDelegationOp where
  id : ℕ
  taskId : ℕ
  fromAgent : String
  toAgent : String
  handoffNote : Option String
  delegatedAt : ℤ

/-- A memory is linked to a task as evidence. -/
structure LinkEvidenceOp (F : Type) where
  id : ℕ
  taskId : ℕ
  memoryId : ℕ
  producedBy : String
  evidenceKind : ℕ
  relevance : F
  createdMs : ℤ

/-- An open question of a task. -/
structure AddProbeOp where
  id : ℕ
  taskId : ℕ
  question : String
  expectedAnswerer : Option String
  priority : ℕ
  createdMs : ℤ

/-- A question is answered. -/
structure ResolveProbeOp where
  probeId : ℕ
  status : ℕ
  answer : Option String
  resolvedMs : ℤ

/-- An acceptance criterion is checked. -/
structure SetCriterionOp where
  id : ℕ
  taskId : ℕ
  criterion : String
  isMet : Bool
  evidenceNote : Option String
  checkedMs : ℤ

/-- A wisdom lineage is added or replaced. -/
structure UpsertWisdomLineageOp where
  lineageId : ℕ
  wisdomCandidateId : ℕ
  claim : String
  envelopeJson : String
  seedEpisodeIds : List ℕ
  seedSurpriseIds : List ℕ
  seedInterventionIds : List ℕ
  seedDebtIds : List ℕ
  ancestorLineageId : Option ℕ
  derivationVersion : ℕ
  derivationRelation : Option String
  rederiveTtlMs : ℤ
  createdMs : ℤ
  updatedMs : ℤ

/-- The masses of a lineage are adjudicated. -/
structure AdjudicateLineageOp (F : Type) where
  lineageId : ℕ
  supportMass : F
  contradictionMass : F
  stalenessMass : F
  lastSupportedMs : ℤ
  lastChallengedMs : ℤ
  adjudicatedMs : ℤ

/-- A lineage changes its state. -/
structure TransitionLineageOp where
  lineageId : ℕ
  oldState : ℕ
  newState : ℕ
  reason : String
  rederiveTaskId : Option ℕ
  transitionedMs : ℤ

/-- A challenger of a lineage is recorded. -/
structure RecordChallengerOp where
  lineageId : ℕ
  interventionId : Option ℕ
  surpriseId : Option ℕ
  outcomeSummary : String
  attachedMs : ℤ

/-- A rederivation of a lineage is closed. -/
structure CloseRederiveOp where
  lineageId : ℕ
  action : ℕ
  newEnvelopeJson : Option String
  forkClaim : Option String
  forkLineageId : Option ℕ
  closedMs : ℤ

/-! ## The operation type -/

/-- A logged mutation of the store. -/
inductive Op (F : Type) where
  | putPayload (o : PutPayloadOp F)
  | updateState (o : StateDeltaOp F)
  | updateStateBatch (deltas : List (StateDeltaOp F))
  | deleteMemory (o : DeleteMemoryOp)
  | addAssocEdge (o : AddAssocEdgeOp F)
  | upsertArtifact (o : UpsertArtifactOp)
  | addTriplet (o : AddTripletOp F)
  | invalidateTriplet (o : InvalidateTripletOp)
  | upsertSymbol (o : UpsertSymbolOp)
  | removeSymbol (o : RemoveSymbolOp)
  | addSymCallEdge (o : AddSymCallEdgeOp)
  | removeSymCallEdge (o : RemoveSymCallEdgeOp)
  | upsertCodeFile (o : UpsertCodeFileOp)
  | updateSparseCode (o : UpdateSparseCodeOp F)
  | demoteMemory (o : DemoteMemoryOp)
  | trainPQ (o : TrainPQOp)
  | updateResidualPQ (o : UpdateResidualPQOp)
  | sessionEvent (o : SessionEventOp)
  | transcriptEvent (o : TranscriptEventOp)
  | taskEvent (o : TaskEventOp)
  | userModelEvent (o : UserModelEventOp)
  | themeEvent (o : ThemeEventOp)
  | analyticsEvent (o : AnalyticsEventOp)
  | clearProject (o : ClearProjectOp)
  | updateSymbolDescription (o : UpdateSymbolDescriptionOp)
  | updateMemoryContent (o : UpdateMemoryContentOp F)
  | recordRecallBatch (o : RecordRecallBatchOp F)
  | strengthenAssocEdge (o : StrengthenAssocEdgeOp F)
  | msgEvent (o : MsgEventOp)
  | skillUpload (o : SkillUploadOp)
  | skillDeprecate (o : SkillDeprecateOp)
  | agentUpsert (o : AgentUpsertOp)
  | agentDisable (o : AgentDisableOp)
  | assertConstraint (o : AssertConstraintOp F)
  | retractConstraint (o : RetractConstraintOp)
  | createBranch (o : CreateBranchOp)
  | resolveBranch (o : ResolveBranchOp)
  | addTrigger (o : AddTriggerOp)
  | updateTrigger (o : UpdateTriggerOp)
  | fireTrigger (o : FireTriggerOp)
  | recordSurprise (o : RecordSurpriseOp F)
  | registerDebt (o : RegisterDebtOp F)
  | updateDebt (o : UpdateDebtOp)
  | updateSourceWeight (o : UpdateSourceWeightOp F)
  | recordFeedback (o : RecordFeedbackOp F)
  | updateSurpriseCredit (o : UpdateSurpriseCreditOp F)
  | upsertWisdomCandidate (o : UpsertWisdomCandidateOp F)
  | updateWisdomLifecycle (o : UpdateWisdomLifecycleOp)
  | updateScorerModel (o : UpdateScorerModelOp)
  | attachDebtEvidence (o : AttachDebtEvidenceOp F)
  | startIntervention (o : StartInterventionOp)
  | addObservation (o : AddObservationOp F)
  | closeIntervention (o : CloseInterventionOp)
  | recordAttribution (o : RecordAttributionOp F)
  | registerTask (o : RegisterTaskOp)
  | updateTask (o : UpdateTaskOp)
  | addDelegation (o : AddDelegationOp)
  | linkEvidence (o : LinkEvidenceOp F)
  | addProbe (o : AddProbeOp)
  | resolveProbe (o : ResolveProbeOp)
  | setCriterion (o : SetCriterionOp)
  | upsertWisdomLineage (o : UpsertWisdomLineageOp)
  | adjudicateLineage (o : AdjudicateLineageOp F)
  | transitionLineage (o : TransitionLineageOp)
  | recordChallenger (o : RecordChallengerOp)
  | closeRederive (o : CloseRederiveOp)
  | invalidateTripletsBySourceFile (o : InvalidateTripletsBySourceFileOp)
  | updateMemoryKind (o : UpdateMemoryKindOp)
  | symbolEvent (o : SymbolEventOp)
  | supersedeTriplet (o : SupersedeTripletOp)
  | recordOutcome (o : RecordOutcomeOp F)

/-- The discriminant byte of an operation. -/
def opTypeByte {F : Type} : Op F → UInt8
  | .putPayload _ => 0
  | .updateState _ => 1
  | .updateStateBatch _ => 70
  | .deleteMemory _ => 2
  | .addAssocEdge _ => 3
  | .upsertArtifact _ => 4
  | .addTriplet _ => 5
  | .invalidateTriplet _ => 6
  | .upsertSymbol _ => 7
  | .removeSymbol _ => 8
  | .addSymCallEdge _ => 9
  | .removeSymCallEdge _ => 10
  | .upsertCodeFile _ => 11
  | .updateSparseCode _ => 12
  | .demoteMemory _ => 13
  | .trainPQ _ => 14
  | .updateResidualPQ _ => 15
  | .sessionEvent _ => 16
  | .transcriptEvent _ => 17
  | .taskEvent _ => 18
  | .userModelEvent _ => 19
  | .themeEvent _ => 20
  | .analyticsEvent _ => 21
  | .clearProject _ => 22
  | .updateSymbolDescription _ => 23
  | .updateMemoryContent _ => 24
  | .recordRecallBatch _ => 25
  | .strengthenAssocEdge _ => 26
  | .msgEvent _ => 27
  | .skillUpload _ => 28
  | .skillDeprecate _ => 29
  | .agentUpsert _ => 30
  | .agentDisable _ => 31
  | .assertConstraint _ => 32
  | .retractConstraint _ => 33
  | .createBranch _ => 34
  | .resolveBranch _ => 35
  | .addTrigger _ => 36
  | .updateTrigger _ => 37
  | .fireTrigger _ => 38
  | .recordSurprise _ => 39
  | .registerDebt _ => 40
  | .updateDebt _ => 41
  | .updateSourceWeight _ => 42
  | .recordFeedback _ => 43
  | .updateSurpriseCredit _ => 44
  | .upsertWisdomCandidate _ => 45
  | .updateWisdomLifecycle _ => 46
  | .updateScorerModel _ => 47
  | .attachDebtEvidence _ => 48
  | .startIntervention _ => 49
  | .addObservation _ => 50
  | .closeIntervention _ => 51
  | .recordAttribution _ => 52
  | .registerTask _ => 53
  | .updateTask _ => 54
  | .addDelegation _ => 55
  | .linkEvidence _ => 56
  | .addProbe _ => 57
  | .resolveProbe _ => 58
  | .setCriterion _ => 59
  | .upsertWisdomLineage _ => 60
  | .adjudicateLineage _ => 61
  | .transitionLineage _ => 62
  | .recordChallenger _ => 63
  | .closeRederive _ => 64
  | .invalidateTripletsBySourceFile _ => 65
  | .updateMemoryKind _ => 66
  | .symbolEvent _ => 67
  | .supersedeTriplet _ => 68
  | .recordOutcome _ => 69

/-- A clock reading that is zero or negative counts as unset. -/
def nz (v : ℤ) : Option ℤ := if 0 < v then some v else none

/-- The wall clock of an operation, if it carries one. -/
def opTimestamp {F : Type} : Op F → Option ℤ
  | .putPayload o => nz o.createdAtMs
  | .updateState o => nz o.opTsMs
  | .updateStateBatch v => ((v.map (·.opTsMs)).max?).bind nz
  | .deleteMemory o => nz o.deletedAtMs
  | .addAssocEdge _ => none
  | .upsertArtifact _ => none
  | .addTriplet o => nz o.validFromMs
  | .invalidateTriplet o => nz o.invalidatedAtMs
  | .upsertSymbol _ => none
  | .removeSymbol _ => none
  | .addSymCallEdge _ => none
  | .removeSymCallEdge _ => none
  | .upsertCodeFile _ => none
  | .updateSparseCode o => nz o.tsMs
  | .demoteMemory _ => none
  | .trainPQ _ => none
  | .updateResidualPQ _ => none
  | .sessionEvent o => nz o.tsMs
  | .transcriptEvent o => nz o.tsMs
  | .taskEvent o => nz o.tsMs
  | .userModelEvent o => nz o.tsMs
  | .themeEvent o => nz o.tsMs
  | .analyticsEvent o => nz o.tsMs
  | .clearProject _ => none
  | .updateSymbolDescription o => nz o.opTsMs
  | .updateMemoryContent o => nz o.opTsMs
  | .recordRecallBatch o => nz o.tsMs
  | .strengthenAssocEdge _ => none
  | .msgEvent o => nz o.tsMs
  | .skillUpload o => nz o.tsMs
  | .skillDeprecate _ => none
  | .agentUpsert o => nz o.tsMs
  | .agentDisable _ => none
  | .assertConstraint o => nz o.validFromMs
  | .retractConstraint o => nz o.retractedAtMs
  | .createBranch o => nz o.createdMs
  | .resolveBranch o => nz o.resolvedAtMs
  | .addTrigger _ => none
  | .updateTrigger o => nz o.firedMs
  | .fireTrigger o => nz o.firedMs
  | .recordSurprise o => nz o.timestampMs
  | .registerDebt o => nz o.createdMs
  | .updateDebt o => nz o.resolvedMs
  | .updateSourceWeight _ => none
  | .recordFeedback _ => none
  | .updateSurpriseCredit o => nz o.updatedMs
  | .upsertWisdomCandidate o => nz o.createdMs
  | .updateWisdomLifecycle o => nz o.updatedMs
  | .updateScorerModel o => nz o.appliedAtMs
  | .attachDebtEvidence o => nz o.attachedMs
  | .startIntervention o => nz o.startedMs
  | .addObservation o => nz o.timestampMs
  | .closeIntervention o => nz o.closedMs
  | .recordAttribution o => nz o.timestampMs
  | .registerTask o => nz o.createdMs
  | .updateTask o => nz o.updatedMs
  | .addDelegation _ => none
  | .linkEvidence o => nz o.createdMs
  | .addProbe o => nz o.createdMs
  | .resolveProbe o => nz o.resolvedMs
  | .setCriterion o => nz o.checkedMs
  | .upsertWisdomLineage o => nz o.updatedMs
  | .adjudicateLineage o => nz o.adjudicatedMs
  | .transitionLineage o => nz o.transitionedMs
  | .recordChallenger o => nz o.attachedMs
  | .closeRederive o => nz o.closedMs
  | .invalidateTripletsBySourceFile o => nz o.invalidatedAtMs
  | .updateMemoryKind o => nz o.opTsMs
  | .symbolEvent o => nz o.timestampMs
  | .supersedeTriplet o => nz o.supersededAtMs
  | .recordOutcome o => nz o.tsMs

end ChittaField
