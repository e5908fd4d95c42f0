import ChittaField.Lib.Lists
import ChittaField.Lib.Maps
import ChittaField.Log.Reader
import ChittaField.Memory.State

/-!
# The wisdom lineage store

A lineage is a claim that was promoted, with the support and the contradiction that it has met since
and a state that follows from them.  Surprises, outcomes of interventions and the passing of time move
it; an agent may look at it again and close that look with a verdict.

The functions here change the store; the calls that make them, with what they log, are in
`ChittaField.Organs.LineageReplay`.
-/

namespace ChittaField

variable {F : Type}

/-! ## Thresholds -/

section Thresholds

variable (F) [F32 F]

def watchContradictionRatio : F := F32.lit (30 / 100)
def inflamedContradictionRatio : F := F32.lit (60 / 100)
def watchStaleness : F := F32.lit (40 / 100)
def inflamedStaleness : F := F32.lit (70 / 100)
def stalenessGrowthPerTick : F := F32.lit (5 / 100)

/-- What is added at a support; the source subtracts the opposite. -/
def stalenessDecayPerSupport : F := F32.lit (-(8 / 100))

def supportDeltaHit : F := F32.lit (12 / 100)
def contradictionDeltaHit : F := F32.lit (18 / 100)

end Thresholds

/-- Seven days. -/
def defaultRederiveTtlMs : ℤ := 604800000

/-- Three days. -/
def stalenessGraceMs : ℤ := 259200000

/-! ## The data -/

/-- The state of a lineage. -/
inductive LineageState where
  | trusted
  | watch
  | inflamed
  | demoted
  deriving DecidableEq, Repr

/-- The state of a code; unknown codes are trusted. -/
def LineageState.ofU8 : ℕ → LineageState
  | 1 => .watch
  | 2 => .inflamed
  | 3 => .demoted
  | _ => .trusted

def LineageState.asU8 : LineageState → ℕ
  | .trusted => 0
  | .watch => 1
  | .inflamed => 2
  | .demoted => 3

@[simp]
lemma LineageState.ofU8_asU8 (s : LineageState) : ofU8 s.asU8 = s := by cases s <;> rfl

/-- The verdict on a lineage. -/
inductive RederiveAction where
  | reaffirm
  | narrow
  | split
  | demote
  deriving DecidableEq, Repr

/-- The verdict of a code; unknown codes demote. -/
def RederiveAction.ofU8 : ℕ → RederiveAction
  | 0 => .reaffirm
  | 1 => .narrow
  | 2 => .split
  | _ => .demote

/-- Where a claim applies. -/
structure ApplicabilityEnvelope where
  domain : String
  actionTypes : List String
  preconditions : List String
  sourceFamilies : List String
  deriving DecidableEq

/-- An envelope without a domain and without action types; it applies anywhere. -/
instance : Inhabited ApplicabilityEnvelope := ⟨⟨"", [], [], []⟩⟩

/-- How well an envelope fits a domain and an action. -/
def ApplicabilityEnvelope.overlap [F32 F] (e : ApplicabilityEnvelope) (domain action : String) : F :=
  let domainScore : F :=
    F32.lit (if e.domain = "*" ∨ e.domain = "" ∨ e.domain = domain then 1 else 0)
  let actionScore : F :=
    F32.lit (if e.actionTypes = [] ∨ "*" ∈ e.actionTypes ∨ action ∈ e.actionTypes then 1 else 0)
  F32.div (F32.add domainScore actionScore) (F32.lit 2)

/-- Evidence against a lineage. -/
structure ChallengerEvidence where
  interventionId : Option ℕ
  surpriseId : Option ℕ
  outcomeSummary : String
  attachedMs : ℤ
  deriving DecidableEq

/-- A lineage. -/
structure WisdomLineage (F : Type) where
  id : ℕ
  wisdomCandidateId : ℕ
  claim : String
  envelope : ApplicabilityEnvelope
  seedEpisodeIds : List ℕ
  seedSurpriseIds : List ℕ
  seedInterventionIds : List ℕ
  seedDebtIds : List ℕ
  ancestorLineageId : Option ℕ
  derivationVersion : ℕ
  derivationRelation : Option String
  supportMass : F
  contradictionMass : F
  stalenessMass : F
  lastSupportedMs : ℤ
  lastChallengedMs : ℤ
  state : LineageState
  challengers : List ChallengerEvidence
  rederiveTaskId : Option ℕ
  rederiveOpenedMs : Option ℤ
  rederiveTtlMs : ℤ
  createdMs : ℤ
  updatedMs : ℤ

/-- The store. -/
structure WisdomLineageStore (F : Type) where
  nextId : ℕ
  lineages : List (WisdomLineage F)
  idToIndex : ℕ → Option ℕ
  byCandidate : ℕ → Option ℕ
  byDomain : String → Option (List ℕ)
  byState : ℕ → Option (List ℕ)

namespace WisdomLineageStore

/-- An empty store. -/
def new : WisdomLineageStore F where
  nextId := 1
  lineages := []
  idToIndex _ := none
  byCandidate _ := none
  byDomain _ := none
  byState _ := none

/-- The lineage of an id. -/
def get (s : WisdomLineageStore F) (id : ℕ) : Option (WisdomLineage F) :=
  (s.idToIndex id).bind fun idx => s.lineages[idx]?

/-- Change the lineage of an id, if there is one. -/
def modify (s : WisdomLineageStore F) (id : ℕ) (f : WisdomLineage F → WisdomLineage F) :
    WisdomLineageStore F :=
  match s.idToIndex id with
  | none => s
  | some idx => { s with lineages := s.lineages.modify idx f }

/-! ## Enrolment -/

/-- Add a lineage to the indexes by candidate, domain and state. -/
def indexInsert (s : WisdomLineageStore F) (l : WisdomLineage F) : WisdomLineageStore F :=
  { s with
    byCandidate := Function.update s.byCandidate l.wisdomCandidateId (some l.id)
    byDomain := Maps.push s.byDomain l.envelope.domain l.id
    byState := Maps.push s.byState l.state.asU8 l.id }

/-- Remove a lineage from the indexes by candidate, domain and state. -/
def indexRemove (s : WisdomLineageStore F) (l : WisdomLineage F) : WisdomLineageStore F :=
  { s with
    byCandidate := Function.update s.byCandidate l.wisdomCandidateId none
    byDomain := Maps.modifyAt s.byDomain l.envelope.domain (List.filter (· ≠ l.id))
    byState := Maps.modifyAt s.byState l.state.asU8 (List.filter (· ≠ l.id)) }

/-- Append a lineage. -/
def pushLineage (s : WisdomLineageStore F) (l : WisdomLineage F) : WisdomLineageStore F :=
  { s.indexInsert l with
    idToIndex := Function.update s.idToIndex l.id (some s.lineages.length)
    lineages := s.lineages ++ [l] }

/-- A lineage without support and contradiction. -/
def enrolled [F32 F] (o : UpsertWisdomLineageOp) (envelope : ApplicabilityEnvelope) :
    WisdomLineage F where
  id := o.lineageId
  wisdomCandidateId := o.wisdomCandidateId
  claim := o.claim
  envelope := envelope
  seedEpisodeIds := o.seedEpisodeIds
  seedSurpriseIds := o.seedSurpriseIds
  seedInterventionIds := o.seedInterventionIds
  seedDebtIds := o.seedDebtIds
  ancestorLineageId := o.ancestorLineageId
  derivationVersion := o.derivationVersion
  derivationRelation := o.derivationRelation
  supportMass := F32.lit 0
  contradictionMass := F32.lit 0
  stalenessMass := F32.lit 0
  lastSupportedMs := o.createdMs
  lastChallengedMs := 0
  state := .trusted
  challengers := []
  rederiveTaskId := none
  rederiveOpenedMs := none
  rederiveTtlMs := o.rederiveTtlMs
  createdMs := o.createdMs
  updatedMs := o.updatedMs

/-- What is asked for at an enrolment. -/
structure Enrolment where
  wisdomCandidateId : ℕ
  claim : String
  envelopeJson : String
  seedEpisodeIds : List ℕ
  seedSurpriseIds : List ℕ
  seedInterventionIds : List ℕ
  seedDebtIds : List ℕ
  ancestorLineageId : Option ℕ
  derivationRelation : Option String

/-- The operation of an enrolment; its derivation version is always zero. -/
def Enrolment.op (e : Enrolment) (lineageId : ℕ) (now : ℤ) : UpsertWisdomLineageOp where
  lineageId := lineageId
  wisdomCandidateId := e.wisdomCandidateId
  claim := e.claim
  envelopeJson := e.envelopeJson
  seedEpisodeIds := e.seedEpisodeIds
  seedSurpriseIds := e.seedSurpriseIds
  seedInterventionIds := e.seedInterventionIds
  seedDebtIds := e.seedDebtIds
  ancestorLineageId := e.ancestorLineageId
  derivationVersion := 0
  derivationRelation := e.derivationRelation
  rederiveTtlMs := defaultRederiveTtlMs
  createdMs := now
  updatedMs := now

/-- Enroll a lineage, unless its candidate has one; its id. -/
def enroll [F32 F] (s : WisdomLineageStore F) (e : Enrolment) (envelope : ApplicabilityEnvelope)
    (nowMs : ℤ) : WisdomLineageStore F × ℕ :=
  match s.byCandidate e.wisdomCandidateId with
  | some existing => (s, existing)
  | none =>
    let version := if e.ancestorLineageId.isSome then 1 else 0
    ({ s with nextId := s.nextId + 1 }.pushLineage
      (enrolled { e.op s.nextId nowMs with derivationVersion := version } envelope), s.nextId)

/-- Add a lineage of a given id, or replace the one that has it. -/
def replayUpsert (s : WisdomLineageStore F) (l : WisdomLineage F) : WisdomLineageStore F :=
  match s.idToIndex l.id with
  | some idx =>
    let s := ((s.lineages[idx]?).elim s s.indexRemove).indexInsert l
    { s with lineages := s.lineages.set idx l }
  | none => { s with nextId := if s.nextId ≤ l.id then l.id + 1 else s.nextId }.pushLineage l

/-! ## Transitions -/

/-- A lineage in a new state, which a task may look at again. -/
def moved (newState : LineageState) (rederiveTaskId : Option ℕ) (nowMs : ℤ) (l : WisdomLineage F) :
    WisdomLineage F :=
  { l with
    state := newState
    rederiveTaskId := rederiveTaskId.orElse fun _ => l.rederiveTaskId
    rederiveOpenedMs := rederiveTaskId.elim l.rederiveOpenedMs fun _ => some nowMs
    updatedMs := nowMs }

/-- Move a lineage to a state; whether it was in another one. -/
def transitionState (s : WisdomLineageStore F) (id : ℕ) (newState : LineageState)
    (rederiveTaskId : Option ℕ) (nowMs : ℤ) : WisdomLineageStore F × Bool :=
  match s.get id with
  | none => (s, false)
  | some l =>
    if l.state = newState then (s, false)
    else
      ({ s.modify id (moved newState rederiveTaskId nowMs) with
        byState := Maps.push
          (Maps.modifyAt s.byState l.state.asU8 (List.filter (· ≠ id))) newState.asU8 id }, true)

variable [F32 F]

/-- The state that the masses of a lineage call for, if it is another one. -/
def evaluateTransition (l : WisdomLineage F) : Option LineageState :=
  let ratio := F32.div l.contradictionMass (F32.add l.supportMass (F32.lit (1 / 100)))
  let inflamed := F32.lt (inflamedContradictionRatio F) ratio ||
    F32.lt (inflamedStaleness F) l.stalenessMass
  let watch := F32.lt (watchContradictionRatio F) ratio || F32.lt (watchStaleness F) l.stalenessMass
  match l.state with
  | .trusted => if inflamed then some .inflamed else if watch then some .watch else none
  | .watch => if inflamed then some .inflamed else none
  | .inflamed => none
  | .demoted => none

/-- Move a lineage to the state that its masses call for; that state. -/
def settle (s : WisdomLineageStore F) (id : ℕ) (nowMs : ℤ) :
    WisdomLineageStore F × Option LineageState :=
  match (s.get id).bind evaluateTransition with
  | none => (s, none)
  | some newState => ((s.transitionState id newState none nowMs).1, some newState)

/-! ## Adjudication -/

/-- A lineage that has met support, contradiction or staleness. -/
def massed (supportDelta contradictionDelta stalenessDelta : F) (nowMs : ℤ) (l : WisdomLineage F) :
    WisdomLineage F :=
  let l := if F32.lt (F32.lit 0) supportDelta then
      { l with
        supportMass := F32.min (F32.add l.supportMass supportDelta) (F32.lit 10)
        stalenessMass := F32.max (F32.add l.stalenessMass (stalenessDecayPerSupport F)) (F32.lit 0)
        lastSupportedMs := nowMs }
    else l
  let l := if F32.lt (F32.lit 0) contradictionDelta then
      { l with
        contradictionMass := F32.min (F32.add l.contradictionMass contradictionDelta) (F32.lit 10)
        lastChallengedMs := nowMs }
    else l
  let l := if F32.lt (F32.lit 0) stalenessDelta then
      { l with stalenessMass := F32.min (F32.add l.stalenessMass stalenessDelta) (F32.lit 1) }
    else l
  { l with updatedMs := nowMs }

/-- Change the masses of a lineage that is not demoted, and its state with them; the new state. -/
def adjudicate (s : WisdomLineageStore F) (id : ℕ)
    (supportDelta contradictionDelta stalenessDelta : F) (nowMs : ℤ) :
    WisdomLineageStore F × Option LineageState :=
  match s.get id with
  | none => (s, none)
  | some l =>
    if l.state = .demoted then (s, none)
    else
      (s.modify id (massed supportDelta contradictionDelta stalenessDelta nowMs)).settle id nowMs

omit [F32 F] in
/-- Set the masses of a lineage. -/
def replayAdjudicate (s : WisdomLineageStore F) (o : AdjudicateLineageOp F) : WisdomLineageStore F :=
  s.modify o.lineageId ({ · with
    supportMass := o.supportMass
    contradictionMass := o.contradictionMass
    stalenessMass := o.stalenessMass
    lastSupportedMs := o.lastSupportedMs
    lastChallengedMs := o.lastChallengedMs
    updatedMs := o.adjudicatedMs })

omit [F32 F] in
/-- Attach evidence against a lineage. -/
def recordChallenger (s : WisdomLineageStore F) (id : ℕ) (evidence : ChallengerEvidence)
    (nowMs : ℤ) : WisdomLineageStore F :=
  s.modify id fun l => { l with challengers := l.challengers ++ [evidence], updatedMs := nowMs }

omit [F32 F] in
/-- A lineage that no task looks at. -/
def unwatched (l : WisdomLineage F) : WisdomLineage F :=
  { l with rederiveTaskId := none, rederiveOpenedMs := none }

/-- A lineage without contradiction and staleness. -/
def absolved (l : WisdomLineage F) : WisdomLineage F :=
  unwatched { l with contradictionMass := F32.lit 0, stalenessMass := F32.lit 0 }

/-- Close the look at a lineage; the id of the fork, if it is known and was split. -/
def closeRederive (s : WisdomLineageStore F) (id : ℕ) (action : RederiveAction)
    (newEnvelope : Option ApplicabilityEnvelope) (forkLineageId : Option ℕ) (nowMs : ℤ) :
    WisdomLineageStore F × Option ℕ :=
  match action with
  | .reaffirm => (((s.modify id absolved).transitionState id .trusted none nowMs).1, none)
  | .narrow =>
    (((s.modify id fun l =>
      { absolved { l with envelope := newEnvelope.getD l.envelope } with
        derivationVersion := l.derivationVersion + 1 }).transitionState id .trusted none nowMs).1,
      none)
  | .split =>
    ((s.transitionState id .demoted none nowMs).1.modify id unwatched,
      forkLineageId.filter fun _ => (s.get id).isSome)
  | .demote => ((s.transitionState id .demoted none nowMs).1.modify id unwatched, none)

/-! ## Staleness -/

/-- A lineage that has grown staler. -/
def grown (nowMs : ℤ) (l : WisdomLineage F) : WisdomLineage F :=
  { l with
    stalenessMass := F32.min (F32.add l.stalenessMass (stalenessGrowthPerTick F)) (F32.lit 1)
    updatedMs := nowMs }

omit [F32 F] in
/-- The last support of a lineage is more than three days ago. -/
def needsGrowth (nowMs : ℤ) (l : WisdomLineage F) : Bool :=
  decide (stalenessGraceMs < nowMs - l.lastSupportedMs)

omit [F32 F] in
/-- A lineage that time makes stale. -/
def ages (l : WisdomLineage F) : Bool := l.state = .trusted ∨ l.state = .watch

/-- Make one lineage staler if it needs it; its new state. -/
def tickOne (nowMs : ℤ) (s : WisdomLineageStore F) (id : ℕ) :
    WisdomLineageStore F × Option LineageState :=
  if (s.get id).any (needsGrowth nowMs) then (s.modify id (grown nowMs)).settle id nowMs else (s, none)

/-- Make lineages of these ids staler; those that changed their state are added to a list. -/
def tickAll (nowMs : ℤ) (ids : List ℕ) (r : WisdomLineageStore F × List ℕ) :
    WisdomLineageStore F × List ℕ :=
  ids.foldl (fun r id =>
    let t := tickOne nowMs r.1 id
    (t.1, if t.2.isSome then r.2 ++ [id] else r.2)) r

/-- Make lineages staler; those that changed their state. -/
def tickStaleness (s : WisdomLineageStore F) (nowMs : ℤ) : WisdomLineageStore F × List ℕ :=
  tickAll nowMs ((s.lineages.filter ages).map WisdomLineage.id) (s, [])

/-- The lineages that are not demoted and fit a domain and an action. -/
def findByEnvelope (s : WisdomLineageStore F) (domain action : String) : List ℕ :=
  (s.lineages.filter fun l =>
    l.state ≠ .demoted ∧ F32.lt (F32.lit (1 / 2) : F) (l.envelope.overlap domain action)).map
      WisdomLineage.id

end WisdomLineageStore

end ChittaField
