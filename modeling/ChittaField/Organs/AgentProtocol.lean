import ChittaField.Lib.Lists
import ChittaField.Lib.Maps
import ChittaField.Lib.Replayed
import ChittaField.Log.Reader
import ChittaField.Memory.State

/-!
# The agent protocol store

The tasks of agents, with delegations, evidence, open questions and completion criteria.  Each call
changes the store and logs an operation, which a start applies by code of its own.

The two sides differ in three places: the time at which a task was last changed is not replayed where
something is attached to it; an update without a status is logged as one that makes the task active;
and a memory that is linked again is logged again.  `agent_protocol_survives` says that without these
a replay of the log rebuilds the store.
-/

namespace ChittaField

variable {F : Type}

/-! ## The data -/

/-- The status of a task. -/
inductive TaskStatus where
  | active
  | blocked
  | completed
  | failed
  | abandoned
  deriving DecidableEq, Repr

/-- The status of a code; unknown codes are active. -/
def TaskStatus.ofCode : ℕ → TaskStatus
  | 1 => .blocked
  | 2 => .completed
  | 3 => .failed
  | 4 => .abandoned
  | _ => .active

/-- The status of a delegation. -/
inductive DelegationStatus where
  | active
  | completed
  | recalled
  deriving DecidableEq, Repr

/-- What a piece of evidence is. -/
inductive EvidenceKind where
  | observation
  | artifact
  | result
  | analysis
  | userFeedback
  deriving DecidableEq, Repr

/-- The kind of a code; unknown codes are observations. -/
def EvidenceKind.ofCode : ℕ → EvidenceKind
  | 1 => .artifact
  | 2 => .result
  | 3 => .analysis
  | 4 => .userFeedback
  | _ => .observation

/-- The status of a question. -/
inductive ProbeStatus where
  | isOpen
  | answered
  | dismissed
  deriving DecidableEq, Repr

/-- The status of a code; unknown codes are open. -/
def ProbeStatus.ofCode : ℕ → ProbeStatus
  | 1 => .answered
  | 2 => .dismissed
  | _ => .isOpen

/-- A task. -/
structure TaskContract where
  id : ℕ
  sessionId : String
  realm : String
  goal : String
  constraints : List String
  acceptanceCriteria : List String
  priority : ℕ
  status : TaskStatus
  parentTaskId : Option ℕ
  interventionIds : List ℕ
  tags : List String
  createdMs : ℤ
  updatedMs : ℤ
  deadlineMs : Option ℤ
  deriving DecidableEq

/-- A task is handed from one agent to another. -/
structure DelegationEdge where
  id : ℕ
  taskId : ℕ
  fromAgent : String
  toAgent : String
  delegatedAt : ℤ
  handoffNote : Option String
  status : DelegationStatus
  deriving DecidableEq

/-- A memory that is evidence for a task. -/
structure EvidenceLink (F : Type) where
  id : ℕ
  taskId : ℕ
  memoryId : MemoryId
  producedBy : String
  evidenceKind : EvidenceKind
  relevance : F
  createdMs : ℤ
  deriving DecidableEq

/-- A question of a task. -/
structure PendingProbe where
  id : ℕ
  taskId : ℕ
  question : String
  expectedAnswerer : Option String
  priority : ℕ
  status : ProbeStatus
  createdMs : ℤ
  resolvedMs : Option ℤ
  answer : Option String
  deriving DecidableEq

/-- A criterion for the completion of a task. -/
structure CompletionCriterion where
  id : ℕ
  taskId : ℕ
  criterion : String
  isMet : Bool
  checkedMs : Option ℤ
  evidenceNote : Option String
  deriving DecidableEq

/-- A task with what is attached to it. -/
structure TaskFullView (F : Type) where
  task : TaskContract
  delegations : List DelegationEdge
  evidence : List (EvidenceLink F)
  probes : List PendingProbe
  criteria : List CompletionCriterion
  deriving DecidableEq

/-- The store.  The indexes hold positions. -/
structure AgentProtocolStore (F : Type) where
  nextTaskId : ℕ
  nextDelegationId : ℕ
  nextEvidenceId : ℕ
  nextProbeId : ℕ
  nextCriterionId : ℕ
  tasks : List TaskContract
  idToTask : ℕ → Option ℕ
  activeTasks : Finset ℕ
  tasksBySession : String → Option (List ℕ)
  tasksByRealm : String → Option (List ℕ)
  delegations : List DelegationEdge
  delegationsByTask : ℕ → Option (List ℕ)
  evidence : List (EvidenceLink F)
  evidenceByTask : ℕ → Option (List ℕ)
  /-- The evidence that a memory is for a task. -/
  evidenceDedup : ℕ × MemoryId → Option ℕ
  probes : List PendingProbe
  probesByTask : ℕ → Option (List ℕ)
  openProbes : Finset ℕ
  criteria : List CompletionCriterion
  criteriaByTask : ℕ → Option (List ℕ)
  /-- The position of a criterion by its text. -/
  criteriaDedup : ℕ × String → Option ℕ

namespace AgentProtocolStore

/-- An empty store. -/
def new : AgentProtocolStore F where
  nextTaskId := 1
  nextDelegationId := 1
  nextEvidenceId := 1
  nextProbeId := 1
  nextCriterionId := 1
  tasks := []
  idToTask _ := none
  activeTasks := ∅
  tasksBySession _ := none
  tasksByRealm _ := none
  delegations := []
  delegationsByTask _ := none
  evidence := []
  evidenceByTask _ := none
  evidenceDedup _ := none
  probes := []
  probesByTask _ := none
  openProbes := ∅
  criteria := []
  criteriaByTask _ := none
  criteriaDedup _ := none

/-! ## Queries -/

/-- The task of an id. -/
def getTask (s : AgentProtocolStore F) (id : ℕ) : Option TaskContract :=
  (s.idToTask id).bind fun idx => s.tasks[idx]?

/-- What stands at the positions that an index has for a key. -/
def atPositions {α : Type} (l : List α) (index : ℕ → Option (List ℕ)) (key : ℕ) : List α :=
  ((index key).getD []).filterMap fun idx => l[idx]?

/-- A task with what is attached to it. -/
def getTaskFull (s : AgentProtocolStore F) (id : ℕ) : Option (TaskFullView F) :=
  (s.getTask id).map fun task =>
    { task := task
      delegations := atPositions s.delegations s.delegationsByTask id
      evidence := atPositions s.evidence s.evidenceByTask id
      probes := atPositions s.probes s.probesByTask id
      criteria := atPositions s.criteria s.criteriaByTask id }

/-! ## Tasks -/

/-- A counter is above an id. -/
def above (next id : ℕ) : ℕ := if next ≤ id then id + 1 else next

/-- Add a task. -/
def insertTask (s : AgentProtocolStore F) (task : TaskContract) : AgentProtocolStore F :=
  { s with
    activeTasks := insert task.id s.activeTasks
    tasksBySession := Maps.push s.tasksBySession task.sessionId task.id
    tasksByRealm := Maps.push s.tasksByRealm task.realm task.id
    idToTask := Function.update s.idToTask task.id (some s.tasks.length)
    tasks := s.tasks ++ [task] }

/-- Add a task of a given id. -/
def replayRegisterTask (s : AgentProtocolStore F) (task : TaskContract) : AgentProtocolStore F :=
  { s with nextTaskId := above s.nextTaskId task.id }.insertTask task

/-- Append a value, unless there is none or it is there. -/
def addNew {α : Type} [DecidableEq α] (l : List α) : Option α → List α
  | none => l
  | some a => if a ∈ l then l else l ++ [a]

/-- A task that is over. -/
def isOver : TaskStatus → Bool
  | .active => false
  | .blocked => false
  | _ => true

/-- Update a task; whether it is there. -/
def updateTask (s : AgentProtocolStore F) (id : ℕ) (status : Option TaskStatus)
    (addInterventionId : Option ℕ) (addTag : Option String) (nowMs : ℤ) :
    AgentProtocolStore F × Bool :=
  match s.idToTask id with
  | none => (s, false)
  | some idx =>
    ({ s with
      activeTasks := if status.any isOver then s.activeTasks.erase id else s.activeTasks
      tasks := s.tasks.modify idx fun t =>
        { t with
          status := status.getD t.status
          interventionIds := addNew t.interventionIds addInterventionId
          tags := addNew t.tags addTag
          updatedMs := nowMs } }, true)

/-- A task has been changed. -/
def touch (s : AgentProtocolStore F) (taskId : ℕ) (nowMs : ℤ) : AgentProtocolStore F :=
  match s.idToTask taskId with
  | none => s
  | some idx => { s with tasks := s.tasks.modify idx ({ · with updatedMs := nowMs }) }

/-! ## What is attached to tasks -/

/-- Add a delegation of a given id. -/
def replayDelegation (s : AgentProtocolStore F) (del : DelegationEdge) : AgentProtocolStore F :=
  { s with
    nextDelegationId := above s.nextDelegationId del.id
    delegationsByTask := Maps.push s.delegationsByTask del.taskId s.delegations.length
    delegations := s.delegations ++ [del] }

/-- Add a piece of evidence of a given id. -/
def replayEvidence (s : AgentProtocolStore F) (ev : EvidenceLink F) : AgentProtocolStore F :=
  { s with
    nextEvidenceId := above s.nextEvidenceId ev.id
    evidenceByTask := Maps.push s.evidenceByTask ev.taskId s.evidence.length
    evidenceDedup := Function.update s.evidenceDedup (ev.taskId, ev.memoryId) (some ev.id)
    evidence := s.evidence ++ [ev] }

/-- Add a question of a given id. -/
def replayProbe (s : AgentProtocolStore F) (probe : PendingProbe) : AgentProtocolStore F :=
  { s with
    nextProbeId := above s.nextProbeId probe.id
    probesByTask := Maps.push s.probesByTask probe.taskId s.probes.length
    openProbes := if probe.status = .isOpen then insert probe.id s.openProbes else s.openProbes
    probes := s.probes ++ [probe] }

/-- Resolve the first question of an id; whether there is one. -/
def resolveProbe (s : AgentProtocolStore F) (probeId : ℕ) (status : ProbeStatus)
    (answer : Option String) (nowMs : ℤ) : AgentProtocolStore F × Bool :=
  match s.probes.findIdx? fun p => p.id = probeId with
  | none => (s, false)
  | some idx =>
    ({ s with
      probes := s.probes.modify idx
        ({ · with status := status, resolvedMs := some nowMs, answer := answer })
      openProbes := s.openProbes.erase probeId }, true)

/-- Add a criterion of a given id, or check the one of this text. -/
def replayCriterion (s : AgentProtocolStore F) (crit : CompletionCriterion) : AgentProtocolStore F :=
  let s := { s with nextCriterionId := above s.nextCriterionId crit.id }
  match s.criteriaDedup (crit.taskId, crit.criterion) with
  | some idx =>
    { s with
      criteria := s.criteria.modify idx ({ · with
        isMet := crit.isMet, checkedMs := crit.checkedMs, evidenceNote := crit.evidenceNote }) }
  | none =>
    { s with
      criteriaByTask := Maps.push s.criteriaByTask crit.taskId s.criteria.length
      criteriaDedup := Function.update s.criteriaDedup (crit.taskId, crit.criterion)
        (some s.criteria.length)
      criteria := s.criteria ++ [crit] }

/-! ## Replay -/

/-- The task of an operation. -/
def registered (o : RegisterTaskOp) : TaskContract where
  id := o.id
  sessionId := o.sessionId
  realm := o.realm
  goal := o.goal
  constraints := o.constraints
  acceptanceCriteria := o.acceptanceCriteria
  priority := o.priority
  status := .active
  parentTaskId := o.parentTaskId
  interventionIds := []
  tags := o.tags
  createdMs := o.createdMs
  updatedMs := o.createdMs
  deadlineMs := o.deadlineMs

/-- Apply an operation of the log. -/
def apply (s : AgentProtocolStore F) : Op F → AgentProtocolStore F
  | .registerTask o => s.replayRegisterTask (registered o)
  | .updateTask o =>
    (s.updateTask o.taskId (some (.ofCode o.status)) o.addInterventionId o.addTag o.updatedMs).1
  | .addDelegation o =>
    s.replayDelegation ⟨o.id, o.taskId, o.fromAgent, o.toAgent, o.delegatedAt, o.handoffNote, .active⟩
  | .linkEvidence o =>
    s.replayEvidence ⟨o.id, o.taskId, o.memoryId, o.producedBy, .ofCode o.evidenceKind, o.relevance,
      o.createdMs⟩
  | .addProbe o =>
    s.replayProbe ⟨o.id, o.taskId, o.question, o.expectedAnswerer, o.priority, .isOpen, o.createdMs,
      none, none⟩
  | .resolveProbe o => (s.resolveProbe o.probeId (.ofCode o.status) o.answer o.resolvedMs).1
  | .setCriterion o =>
    s.replayCriterion ⟨o.id, o.taskId, o.criterion, o.isMet, some o.checkedMs, o.evidenceNote⟩
  | _ => s

/-! ## Live calls -/

/-- A call. -/
inductive Call (F : Type) where
  | registerTask (goal : String) (constraints acceptanceCriteria : List String)
      (realm sessionId : String) (priority : ℕ) (parentTaskId : Option ℕ) (deadlineMs : Option ℤ)
      (tags : List String)
  | updateTask (taskId : ℕ) (status addInterventionId : Option ℕ) (addTag : Option String)
  | addDelegation (taskId : ℕ) (fromAgent toAgent : String) (handoffNote : Option String)
  | linkEvidence (taskId : ℕ) (memoryId : MemoryId) (producedBy : String) (evidenceKind : ℕ)
      (relevance : F)
  | addProbe (taskId : ℕ) (question : String) (expectedAnswerer : Option String) (priority : ℕ)
  | resolveProbe (probeId status : ℕ) (answer : Option String)
  | setCriterion (taskId : ℕ) (criterion : String) (isMet : Bool) (evidenceNote : Option String)

/-- Hand a task to another agent; the id of the delegation, if there is the task. -/
def addDelegation (s : AgentProtocolStore F) (taskId : ℕ) (fromAgent toAgent : String)
    (handoffNote : Option String) (nowMs : ℤ) : AgentProtocolStore F × Option ℕ :=
  if (s.idToTask taskId).isNone then (s, none)
  else
    (touch { s with
      nextDelegationId := s.nextDelegationId + 1
      delegationsByTask := Maps.push s.delegationsByTask taskId s.delegations.length
      delegations := s.delegations ++
        [⟨s.nextDelegationId, taskId, fromAgent, toAgent, nowMs, handoffNote, .active⟩] } taskId nowMs,
      some s.nextDelegationId)

/-- Link a memory to a task, unless it is linked already; the id of the evidence, if there is the
task. -/
def linkEvidence (s : AgentProtocolStore F) (taskId : ℕ) (memoryId : MemoryId) (producedBy : String)
    (evidenceKind : EvidenceKind) (relevance : F) (nowMs : ℤ) : AgentProtocolStore F × Option ℕ :=
  if (s.idToTask taskId).isNone then (s, none)
  else
    match s.evidenceDedup (taskId, memoryId) with
    | some existing => (s, some existing)
    | none =>
      (touch { s with
        nextEvidenceId := s.nextEvidenceId + 1
        evidenceByTask := Maps.push s.evidenceByTask taskId s.evidence.length
        evidenceDedup := Function.update s.evidenceDedup (taskId, memoryId) (some s.nextEvidenceId)
        evidence := s.evidence ++
          [⟨s.nextEvidenceId, taskId, memoryId, producedBy, evidenceKind, relevance, nowMs⟩] }
        taskId nowMs, some s.nextEvidenceId)

/-- Ask a question; its id, if there is the task. -/
def addProbe (s : AgentProtocolStore F) (taskId : ℕ) (question : String)
    (expectedAnswerer : Option String) (priority : ℕ) (nowMs : ℤ) :
    AgentProtocolStore F × Option ℕ :=
  if (s.idToTask taskId).isNone then (s, none)
  else
    (touch { s with
      nextProbeId := s.nextProbeId + 1
      probesByTask := Maps.push s.probesByTask taskId s.probes.length
      openProbes := insert s.nextProbeId s.openProbes
      probes := s.probes ++ [⟨s.nextProbeId, taskId, question, expectedAnswerer, priority, .isOpen,
        nowMs, none, none⟩] } taskId nowMs, some s.nextProbeId)

/-- Add a criterion or check it; its id, if there is the task. -/
def setCriterion (s : AgentProtocolStore F) (taskId : ℕ) (criterion : String) (isMet : Bool)
    (evidenceNote : Option String) (nowMs : ℤ) : AgentProtocolStore F × Option ℕ :=
  if (s.idToTask taskId).isNone then (s, none)
  else
    match s.criteriaDedup (taskId, criterion) with
    | some idx =>
      (touch { s with
        criteria := s.criteria.modify idx ({ · with
          isMet := isMet, checkedMs := some nowMs, evidenceNote := evidenceNote }) } taskId nowMs,
        (s.criteria[idx]?).map CompletionCriterion.id)
    | none =>
      (touch { s with
        nextCriterionId := s.nextCriterionId + 1
        criteriaByTask := Maps.push s.criteriaByTask taskId s.criteria.length
        criteriaDedup := Function.update s.criteriaDedup (taskId, criterion) (some s.criteria.length)
        criteria := s.criteria ++
          [⟨s.nextCriterionId, taskId, criterion, isMet, some nowMs, evidenceNote⟩] } taskId nowMs,
        some s.nextCriterionId)

/-- Make a call; the store, and what it gives to the log. -/
def call (s : AgentProtocolStore F) (now : ℤ) : Call F → AgentProtocolStore F × List (Op F)
  | .registerTask goal constraints criteria realm sessionId priority parentTaskId deadlineMs tags =>
    let o : RegisterTaskOp := ⟨s.nextTaskId, sessionId, realm, goal, constraints, criteria, priority,
      parentTaskId, tags, deadlineMs, now⟩
    ({ s with nextTaskId := s.nextTaskId + 1 }.insertTask (registered o), [.registerTask o])
  | .updateTask taskId status addInterventionId addTag =>
    let r := s.updateTask taskId (status.map .ofCode) addInterventionId addTag now
    (r.1, if r.2 then [.updateTask ⟨taskId, status.getD 0, addInterventionId, addTag, now⟩] else [])
  | .addDelegation taskId fromAgent toAgent handoffNote =>
    let r := s.addDelegation taskId fromAgent toAgent handoffNote now
    (r.1, (r.2.map fun id =>
      Op.addDelegation ⟨id, taskId, fromAgent, toAgent, handoffNote, now⟩).toList)
  | .linkEvidence taskId memoryId producedBy evidenceKind relevance =>
    let r := s.linkEvidence taskId memoryId producedBy (.ofCode evidenceKind) relevance now
    (r.1, (r.2.map fun id =>
      Op.linkEvidence ⟨id, taskId, memoryId, producedBy, evidenceKind, relevance, now⟩).toList)
  | .addProbe taskId question expectedAnswerer priority =>
    let r := s.addProbe taskId question expectedAnswerer priority now
    (r.1, (r.2.map fun id =>
      Op.addProbe ⟨id, taskId, question, expectedAnswerer, priority, now⟩).toList)
  | .resolveProbe probeId status answer =>
    let r := s.resolveProbe probeId (.ofCode status) answer now
    (r.1, if r.2 then [.resolveProbe ⟨probeId, status, answer, now⟩] else [])
  | .setCriterion taskId criterion isMet evidenceNote =>
    let r := s.setCriterion taskId criterion isMet evidenceNote now
    (r.1, (r.2.map fun id =>
      Op.setCriterion ⟨id, taskId, criterion, isMet, evidenceNote, now⟩).toList)

/-- A call at a time, and whether the log takes its operation. -/
structure Timed (F : Type) where
  now : ℤ
  call : Call F
  append : Except FieldError Unit

/-- Make a call.  Nothing is done where the store is disabled; where the append fails, the store has
changed already. -/
def live (disabled : Bool) (s : AgentProtocolStore F) (c : Timed F) :
    AgentProtocolStore F × List (Op F) :=
  if disabled then (s, [])
  else
    let r := s.call c.now c.call
    (r.1, if c.append.isOk then r.2 else [])

/-! ## A restart -/

/-- The task of an id, if there is one, was last changed at a time. -/
def Current (s : AgentProtocolStore F) (taskId : ℕ) (now : ℤ) : Prop :=
  ∀ t, s.getTask taskId = some t → t.updatedMs = now

instance (s : AgentProtocolStore F) (taskId : ℕ) (p : TaskContract → Prop) [DecidablePred p] :
    Decidable (∀ t, s.getTask taskId = some t → p t) :=
  match s.getTask taskId with
  | none => isTrue fun _ h => nomatch h
  | some t => decidable_of_iff (p t) ⟨fun hp _ h => Option.some.inj h ▸ hp, fun h => h t rfl⟩

instance (s : AgentProtocolStore F) (taskId : ℕ) (now : ℤ) : Decidable (s.Current taskId now) :=
  inferInstanceAs (Decidable (∀ t, s.getTask taskId = some t → t.updatedMs = now))

/-- What the log does not tell of a call does not matter: a task that is updated without a status is
active, a task to which something is attached was last changed at this time, and no memory is linked
to a task a second time. -/
def ToldCall (s : AgentProtocolStore F) (now : ℤ) : Call F → Prop
  | .registerTask .. => True
  | .updateTask taskId status _ _ =>
    status = none → ∀ t, s.getTask taskId = some t → t.status = .active
  | .addDelegation taskId .. => s.Current taskId now
  | .linkEvidence taskId memoryId .. =>
    s.Current taskId now ∧ ((s.idToTask taskId).isSome → s.evidenceDedup (taskId, memoryId) = none)
  | .addProbe taskId .. => s.Current taskId now
  | .resolveProbe .. => True
  | .setCriterion taskId .. => s.Current taskId now

instance (s : AgentProtocolStore F) (now : ℤ) : DecidablePred (s.ToldCall now)
  | .registerTask .. => isTrue trivial
  | .updateTask taskId status _ _ => inferInstanceAs
      (Decidable (status = none → ∀ t, s.getTask taskId = some t → t.status = .active))
  | .addDelegation taskId .. => inferInstanceAs (Decidable (s.Current taskId now))
  | .linkEvidence taskId memoryId .. => inferInstanceAs (Decidable (s.Current taskId now ∧
      ((s.idToTask taskId).isSome → s.evidenceDedup (taskId, memoryId) = none)))
  | .addProbe taskId .. => inferInstanceAs (Decidable (s.Current taskId now))
  | .resolveProbe .. => isTrue trivial
  | .setCriterion taskId .. => inferInstanceAs (Decidable (s.Current taskId now))

/-- A call that the log tells of as it was done. -/
def Told (s : AgentProtocolStore F) (c : Timed F) : Prop :=
  c.append.isOk = true ∧ s.ToldCall c.now c.call

instance (s : AgentProtocolStore F) (c : Timed F) : Decidable (s.Told c) :=
  inferInstanceAs (Decidable (_ ∧ _))

/-- The ids of the criteria are in use. -/
def CriteriaNumbered (s : AgentProtocolStore F) : Prop :=
  ∀ c ∈ s.criteria, c.id < s.nextCriterionId

variable {s : AgentProtocolStore F}

/-- A counter that is above an id stays. -/
lemma above_of_lt {next id : ℕ} (h : id < next) : above next id = next := if_neg (not_le.mpr h)

lemma above_self (next : ℕ) : above next next = next + 1 := if_pos le_rfl

lemma lt_above (next id : ℕ) : id < above next id := by
  unfold above
  split <;> omega

lemma le_above (next id : ℕ) : next ≤ above next id := by
  unfold above
  split <;> omega

/-- A change at the time at which the task was last changed is none. -/
lemma touch_of_current {taskId : ℕ} {now : ℤ} (h : s.Current taskId now) :
    s.touch taskId now = s := by
  unfold touch
  cases hidx : s.idToTask taskId with
  | none => rfl
  | some idx =>
    have hsame : s.tasks.modify idx ({ · with updatedMs := now }) = s.tasks := by
      refine Lists.modify_of_fixed fun t ht => ?_
      rw [← h t (by rw [getTask, hidx, Option.bind_some, ht])]
    simp only [hsame]

/-- Replaying keeps the ids of the criteria in use. -/
lemma CriteriaNumbered.apply (h : s.CriteriaNumbered) (o : Op F) :
    (s.apply o).CriteriaNumbered := by
  unfold AgentProtocolStore.apply
  split
  case h_2 o =>
    unfold updateTask
    split <;> exact h
  case h_6 o =>
    unfold resolveProbe
    split <;> exact h
  case h_7 o =>
    have hgrown : ∀ c ∈ s.criteria, c.id < above s.nextCriterionId o.id := fun c hc =>
      (h c hc).trans_le (le_above _ _)
    unfold replayCriterion
    dsimp only
    split
    · intro c hc
      obtain ⟨i, hi⟩ := List.mem_iff_getElem?.mp hc
      rw [List.getElem?_modify] at hi
      obtain ⟨b, hb, rfl⟩ := Option.map_eq_some_iff.mp hi
      split <;> exact hgrown b (List.mem_of_getElem? hb)
    · exact List.forall_mem_append.mpr ⟨hgrown, List.forall_mem_singleton.mpr (lt_above _ _)⟩
  all_goals exact h

/-- A call that the log tells of, and its replay. -/
lemma apply_live {disabled : Bool} {c : Timed F} (hnum : s.CriteriaNumbered) (h : s.Told c) :
    (s.live disabled c).2.foldl apply s = (s.live disabled c).1 := by
  obtain ⟨now, call, append⟩ := c
  obtain ⟨happend, htold⟩ := h
  simp only at happend htold
  unfold live
  cases disabled with
  | true => rfl
  | false =>
    simp only [happend, if_true, Bool.false_eq_true, if_false]
    cases call with
    | registerTask =>
      simp [AgentProtocolStore.call, apply, replayRegisterTask, registered, above_self]
    | updateTask taskId status =>
      simp only [AgentProtocolStore.call]
      cases hidx : s.idToTask taskId with
      | none => simp [updateTask, hidx]
      | some idx =>
        cases status with
        | some code => simp [updateTask, hidx, apply]
        | none =>
          -- the logged update makes the task active, which it is
          have hactive : ∀ t, s.tasks[idx]? = some t → t.status = .active := fun t ht =>
            htold rfl t (by rw [getTask, hidx, Option.bind_some, ht])
          simp only [updateTask, hidx, apply, Option.map_none, if_true, List.foldl_cons,
            List.foldl_nil, Option.getD_none, Option.getD_some, Option.any_none, Option.any_some,
            TaskStatus.ofCode, isOver, Bool.false_eq_true, if_false]
          congr 1
          refine Lists.modify_congr fun t ht => ?_
          rw [hactive t ht]
    | addDelegation taskId =>
      simp only [AgentProtocolStore.call, addDelegation]
      by_cases hknown : (s.idToTask taskId).isNone = true
      · simp [hknown]
      · rw [if_neg hknown, touch_of_current]
        · simp [apply, replayDelegation, above_self]
        · exact htold
    | linkEvidence taskId =>
      simp only [AgentProtocolStore.call, linkEvidence]
      by_cases hknown : (s.idToTask taskId).isNone = true
      · simp [hknown]
      · have hnew := htold.2 (by simpa [Option.isSome_iff_ne_none] using hknown)
        rw [if_neg hknown, hnew]
        dsimp only
        rw [touch_of_current]
        · simp [apply, replayEvidence, above_self]
        · exact htold.1
    | addProbe taskId =>
      simp only [AgentProtocolStore.call, addProbe]
      by_cases hknown : (s.idToTask taskId).isNone = true
      · simp [hknown]
      · rw [if_neg hknown, touch_of_current]
        · simp [apply, replayProbe, above_self]
        · exact htold
    | resolveProbe probeId =>
      simp only [AgentProtocolStore.call]
      cases hidx : s.probes.findIdx? fun p => p.id = probeId with
      | none => simp [resolveProbe, hidx]
      | some idx => simp [resolveProbe, hidx, apply]
    | setCriterion taskId criterion =>
      simp only [AgentProtocolStore.call, setCriterion]
      by_cases hknown : (s.idToTask taskId).isNone = true
      · simp [hknown]
      · rw [if_neg hknown]
        cases hidx : s.criteriaDedup (taskId, criterion) with
        | none =>
          dsimp only
          rw [touch_of_current]
          · simp [apply, replayCriterion, above_self, hidx]
          · exact htold
        | some idx =>
          dsimp only
          rw [touch_of_current]
          · cases hcrit : s.criteria[idx]? with
            | none => simp [List.modify_eq_self (List.getElem?_eq_none_iff.mp hcrit)]
            | some crit =>
              have hlt := hnum crit (List.mem_of_getElem? hcrit)
              simp [apply, replayCriterion, above_of_lt hlt, hidx]
          · exact htold

/-- Behind calls that the log tells of, a replay rebuilds the store. -/
theorem agent_protocol_survives (disabled : Bool) {calls : List (Timed F)}
    (h : Replayed.All (live disabled) Told new calls) :
    (Replayed.run (live disabled) new calls).2.foldl apply new =
      (Replayed.run (live disabled) new calls).1 := by
  have hstep : ∀ (s t : AgentProtocolStore F) c, t = s ∧ s.CriteriaNumbered → s.Told c →
      (s.live disabled c).2.foldl apply t = (s.live disabled c).1 ∧
        (s.live disabled c).1.CriteriaNumbered := by
    rintro s t c ⟨rfl, hnum⟩ hc
    have hsame : (t.live disabled c).2.foldl apply t = (t.live disabled c).1 := apply_live hnum hc
    refine ⟨hsame, ?_⟩
    rw [← hsame]
    exact List.foldlRecOn _ _ hnum fun _ h o _ => h.apply o
  have hnew : (new : AgentProtocolStore F).CriteriaNumbered := fun _ hc => nomatch hc
  exact (Replayed.related_run (fun s t => t = s ∧ s.CriteriaNumbered) hstep ⟨rfl, hnew⟩ h).1

/-! ## What a replay changes -/

/-- Register a task. -/
def sampleTask : Timed ℚ :=
  ⟨5, .registerTask "goal" [] [] "realm" "session" 1 none none [], .ok ()⟩

/-- A completed task gets a tag, a memory is linked to it twice, and a question is asked.  A replay
makes the task active, links the memory twice, and does not know when the question was asked. -/
theorem update_forgotten :
    let r := Replayed.run (live false) new
      [sampleTask, ⟨6, .updateTask 1 (some 2) none none, .ok ()⟩,
        ⟨7, .updateTask 1 none none (some "tag"), .ok ()⟩, ⟨7, .linkEvidence 1 9 "agent" 0 1, .ok ()⟩,
        ⟨7, .linkEvidence 1 9 "agent" 0 1, .ok ()⟩, ⟨8, .addProbe 1 "why" none 0, .ok ()⟩]
    let seen (s : AgentProtocolStore ℚ) := (s.getTaskFull 1).map fun v =>
      (v.task.status, v.task.updatedMs, v.evidence.map EvidenceLink.id)
    seen r.1 = some (.completed, 8, [1]) ∧
      seen (r.2.foldl apply new) = some (.active, 7, [1, 1]) := by
  decide +kernel

/-- A task is updated, and a memory, a question, a delegation and a criterion are attached to it. -/
theorem agent_protocol_survives_sample :
    let r := Replayed.run (live false) (new : AgentProtocolStore ℚ)
      [sampleTask, ⟨7, .updateTask 1 none none (some "tag"), .ok ()⟩,
        ⟨7, .linkEvidence 1 9 "agent" 0 1, .ok ()⟩, ⟨7, .addProbe 1 "why" none 0, .ok ()⟩,
        ⟨7, .addDelegation 1 "a" "b" none, .ok ()⟩, ⟨7, .setCriterion 1 "done" false none, .ok ()⟩,
        ⟨7, .setCriterion 1 "done" true none, .ok ()⟩, ⟨9, .resolveProbe 1 1 none, .ok ()⟩,
        ⟨9, .updateTask 1 (some 2) none none, .ok ()⟩]
    r.2.foldl apply new = r.1 :=
  agent_protocol_survives false (by decide +kernel)

end AgentProtocolStore

end ChittaField
