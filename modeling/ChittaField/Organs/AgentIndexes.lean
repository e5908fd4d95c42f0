import ChittaField.Organs.AgentProtocol

/-!
# The derived sets of the agent protocol store

The store keeps beside its tables the set of the tasks that are not over, the set of the open
questions, and indexes by which it keeps a memory or a criterion from being added to a task twice.
Each is adjusted where a table changes, by the live operations and by those of a replay.

`indexes_coherent_iff` says along which runs they agree with the tables.
-/

namespace ChittaField

variable {F : Type}

/-- The task and the memory of a piece of evidence. -/
def EvidenceLink.key (ev : EvidenceLink F) : ℕ × MemoryId := (ev.taskId, ev.memoryId)

/-- The task and the text of a criterion. -/
def CompletionCriterion.key (crit : CompletionCriterion) : ℕ × String :=
  (crit.taskId, crit.criterion)

namespace AgentProtocolStore

/-- An operation, live or of a replay. -/
inductive Step (F : Type) where
  | live (now : ℤ) (call : Call F)
  | replayRegisterTask (task : TaskContract)
  | replayUpdateTask (id status : ℕ) (addInterventionId : Option ℕ) (addTag : Option String)
      (updatedMs : ℤ)
  | replayDelegation (del : DelegationEdge)
  | replayEvidence (ev : EvidenceLink F)
  | replayProbe (probe : PendingProbe)
  | replayResolveProbe (probeId status : ℕ) (answer : Option String) (resolvedMs : ℤ)
  | replayCriterion (crit : CompletionCriterion)

/-- Do an operation. -/
def step (s : AgentProtocolStore F) : Step F → AgentProtocolStore F
  | .live now c => (s.call now c).1
  | .replayRegisterTask task => s.replayRegisterTask task
  | .replayUpdateTask id status addInterventionId addTag updatedMs =>
    (s.updateTask id (some (.ofCode status)) addInterventionId addTag updatedMs).1
  | .replayDelegation del => s.replayDelegation del
  | .replayEvidence ev => s.replayEvidence ev
  | .replayProbe probe => s.replayProbe probe
  | .replayResolveProbe probeId status answer resolvedMs =>
    (s.resolveProbe probeId (.ofCode status) answer resolvedMs).1
  | .replayCriterion crit => s.replayCriterion crit

/-- A task has criteria, all of which are met. -/
def allCriteriaMet (s : AgentProtocolStore F) (id : ℕ) : Bool :=
  match s.criteriaByTask id with
  | none => false
  | some idxs => !idxs.isEmpty && idxs.all fun idx => (s.criteria[idx]?).any (·.isMet)

/-- The active tasks that have criteria, all of which are met. -/
def tasksWithAllCriteriaMet (s : AgentProtocolStore F) : Finset ℕ :=
  s.activeTasks.filter fun id => s.allCriteriaMet id = true

/-! ## Coherence -/

/-- The status of the task of an id. -/
def statusOf (s : AgentProtocolStore F) (id : ℕ) : Option TaskStatus :=
  (s.getTask id).map (·.status)

/-- The task of an id is active or blocked. -/
def Running (s : AgentProtocolStore F) (id : ℕ) : Prop :=
  s.statusOf id = some .active ∨ s.statusOf id = some .blocked

/-- A question of an id is open. -/
def Asked (s : AgentProtocolStore F) (id : ℕ) : Prop :=
  ∃ p ∈ s.probes, p.id = id ∧ p.status = .isOpen

/-- The derived sets say what the tables say. -/
structure Coherent (s : AgentProtocolStore F) : Prop where
  activeTasks : ∀ id, id ∈ s.activeTasks ↔ s.Running id
  openProbes : ∀ id, id ∈ s.openProbes ↔ s.Asked id
  evidence : (s.evidence.map EvidenceLink.key).Nodup
  criteria : (s.criteria.map CompletionCriterion.key).Nodup
  allMet : ∀ id, id ∈ s.tasksWithAllCriteriaMet ↔ s.Running id ∧
    (∃ c ∈ s.criteria, c.taskId = id) ∧ ∀ c ∈ s.criteria, c.taskId = id → c.isMet = true

/-- A status with which a task belongs to the active ones. -/
def isRunning : TaskStatus → Bool
  | .active => true
  | .blocked => true
  | _ => false

/-- A question is answered or dismissed, and is the only open one of its id. -/
def ResolvesOnce (s : AgentProtocolStore F) (probeId : ℕ) (status : ProbeStatus) : Prop :=
  ∀ idx, (s.probes.findIdx? fun p => p.id = probeId) = some idx → status ≠ .isOpen ∧
    ∀ i p, s.probes[i]? = some p → p.id = probeId → i ≠ idx → p.status ≠ .isOpen

/-- A task that is over stays so. -/
def StaysOver (s : AgentProtocolStore F) (id : ℕ) (status : Option TaskStatus) : Prop :=
  status.any isRunning = true → (s.idToTask id).isSome = true → s.Running id

/-- An operation that the derived sets follow: none makes a task run that is over, or adds one that
is; none opens a question again, or answers one of several open ones of an id; and none adds a memory
to a task a second time. -/
def Followed (s : AgentProtocolStore F) : Step F → Prop
  | .live _ (.updateTask taskId status _ _) => s.StaysOver taskId (status.map .ofCode)
  | .live _ (.resolveProbe probeId status _) => s.ResolvesOnce probeId (.ofCode status)
  | .replayRegisterTask task => isRunning task.status = true
  | .replayUpdateTask id status _ _ _ => s.StaysOver id (some (.ofCode status))
  | .replayEvidence ev => ev.key ∉ s.evidence.map EvidenceLink.key
  | .replayResolveProbe probeId status _ _ => s.ResolvesOnce probeId (.ofCode status)
  | _ => True

/-! ## The positions -/

/-- The indexes hold the positions of what they name. -/
structure Indexed (s : AgentProtocolStore F) : Prop where
  tasks : ∀ id idx, s.idToTask id = some idx → ∃ t, s.tasks[idx]? = some t ∧ t.id = id
  evidence : ∀ ev ∈ s.evidence, s.evidenceDedup ev.key ≠ none
  criteria : ∀ key idx, s.criteriaDedup key = some idx ↔
    ∃ c, s.criteria[idx]? = some c ∧ c.key = key
  criteriaByTask : ∀ id idx, idx ∈ (s.criteriaByTask id).getD [] ↔
    ∃ c, s.criteria[idx]? = some c ∧ c.taskId = id

variable {s s' : AgentProtocolStore F}

lemma running_iff {id : ℕ} : s.Running id ↔ (s.statusOf id).any isRunning = true := by
  unfold Running
  cases s.statusOf id with
  | none => simp
  | some status => cases status <;> simp [isRunning]

lemma isOver_eq (status : TaskStatus) : isOver status = !isRunning status := by
  cases status <;> rfl

lemma Indexed.nodup_criteria (h : s.Indexed) : (s.criteria.map CompletionCriterion.key).Nodup := by
  refine List.nodup_iff_injective_getElem.mpr fun i j hij => Fin.ext ?_
  have hpos : ∀ i : Fin (s.criteria.map CompletionCriterion.key).length,
      s.criteriaDedup ((s.criteria.map CompletionCriterion.key)[i]) = some i.val := by
    intro i
    have hi : i.val < s.criteria.length := by simpa using i.isLt
    exact (h.criteria _ _).mpr ⟨s.criteria[i.val], List.getElem?_eq_getElem hi, by simp⟩
  exact Option.some.inj ((hpos i).symm.trans ((congrArg s.criteriaDedup hij).trans (hpos j)))

/-- Which criteria are met is read off their positions. -/
lemma Indexed.mem_allMet (h : s.Indexed) (id : ℕ) : id ∈ s.tasksWithAllCriteriaMet ↔
    id ∈ s.activeTasks ∧ (∃ c ∈ s.criteria, c.taskId = id) ∧
      ∀ c ∈ s.criteria, c.taskId = id → c.isMet = true := by
  have hidx := h.criteriaByTask id
  rw [tasksWithAllCriteriaMet, Finset.mem_filter]
  refine and_congr_right fun _ => ?_
  have hexists : (∃ c ∈ s.criteria, c.taskId = id) ↔ (s.criteriaByTask id).getD [] ≠ [] := by
    constructor
    · rintro ⟨c, hc, hid⟩
      obtain ⟨idx, hget⟩ := List.mem_iff_getElem?.mp hc
      exact List.ne_nil_of_mem ((hidx idx).mpr ⟨c, hget, hid⟩)
    · intro hne
      obtain ⟨idx, hmem⟩ := List.exists_mem_of_ne_nil _ hne
      obtain ⟨c, hget, hid⟩ := (hidx idx).mp hmem
      exact ⟨c, List.mem_of_getElem? hget, hid⟩
  have hall : (∀ c ∈ s.criteria, c.taskId = id → c.isMet = true) ↔
      ∀ idx ∈ (s.criteriaByTask id).getD [], (s.criteria[idx]?).any (·.isMet) = true := by
    constructor
    · intro hmet idx hmem
      obtain ⟨c, hget, hid⟩ := (hidx idx).mp hmem
      rw [hget]
      exact hmet c (List.mem_of_getElem? hget) hid
    · intro hmet c hc hid
      obtain ⟨idx, hget⟩ := List.mem_iff_getElem?.mp hc
      have hone := hmet idx ((hidx idx).mpr ⟨c, hget, hid⟩)
      rwa [hget] at hone
  rw [hexists, hall, allCriteriaMet]
  cases s.criteriaByTask id with
  | none => simp
  | some idxs => simp

/-- The active tasks are those that run. -/
def TasksAgree (s : AgentProtocolStore F) : Prop := ∀ id, id ∈ s.activeTasks ↔ s.Running id

/-- The open questions are those that are asked. -/
def ProbesAgree (s : AgentProtocolStore F) : Prop := ∀ id, id ∈ s.openProbes ↔ s.Asked id

/-- No memory is linked to a task twice. -/
def LinkedOnce (s : AgentProtocolStore F) : Prop := (s.evidence.map EvidenceLink.key).Nodup

/-- What is not a matter of positions. -/
lemma Indexed.coherent_iff (h : s.Indexed) :
    s.Coherent ↔ s.TasksAgree ∧ s.ProbesAgree ∧ s.LinkedOnce := by
  constructor
  · exact fun hc => ⟨hc.activeTasks, hc.openProbes, hc.evidence⟩
  · rintro ⟨hactive, hopen, hevidence⟩
    refine ⟨hactive, hopen, hevidence, h.nodup_criteria, fun id => ?_⟩
    rw [h.mem_allMet, hactive]

/-! ## What does not matter -/

/-- Stores that differ in counters, in times and in the indexes of which nothing is said. -/
structure Same (s s' : AgentProtocolStore F) : Prop where
  idToTask : s'.idToTask = s.idToTask
  activeTasks : s'.activeTasks = s.activeTasks
  tasks : s'.tasks.map (fun t => (t.id, t.status)) = s.tasks.map fun t => (t.id, t.status)
  evidence : s'.evidence = s.evidence
  evidenceDedup : s'.evidenceDedup = s.evidenceDedup
  probes : s'.probes = s.probes
  openProbes : s'.openProbes = s.openProbes
  criteria : s'.criteria = s.criteria
  criteriaByTask : s'.criteriaByTask = s.criteriaByTask
  criteriaDedup : s'.criteriaDedup = s.criteriaDedup

lemma Same.refl (s : AgentProtocolStore F) : Same s s :=
  ⟨rfl, rfl, rfl, rfl, rfl, rfl, rfl, rfl, rfl, rfl⟩

/-- The id and the status of what stands at a position. -/
lemma Same.getElem? (h : Same s s') (idx : ℕ) :
    (s'.tasks[idx]?).map (fun t => (t.id, t.status)) =
      (s.tasks[idx]?).map fun t => (t.id, t.status) := by
  rw [← List.getElem?_map, ← List.getElem?_map, h.tasks]

lemma Same.statusOf (h : Same s s') (id : ℕ) : s'.statusOf id = s.statusOf id := by
  unfold AgentProtocolStore.statusOf getTask
  rw [h.idToTask]
  cases s.idToTask id with
  | none => rfl
  | some idx =>
    have hget := congrArg (Option.map Prod.snd) (h.getElem? idx)
    simpa only [Option.map_map, Function.comp_def, Option.bind_some] using hget

lemma Same.indexed (h : Same s s') (hi : s.Indexed) : s'.Indexed where
  tasks id idx hidx := by
    rw [h.idToTask] at hidx
    obtain ⟨t, ht, hid⟩ := hi.tasks id idx hidx
    have hget := h.getElem? idx
    rw [ht] at hget
    obtain ⟨t', ht', heq⟩ := Option.map_eq_some_iff.mp hget
    exact ⟨t', ht', (congrArg Prod.fst heq).trans hid⟩
  evidence := by
    rw [h.evidence, h.evidenceDedup]
    exact hi.evidence
  criteria := by
    rw [h.criteria, h.criteriaDedup]
    exact hi.criteria
  criteriaByTask := by
    rw [h.criteria, h.criteriaByTask]
    exact hi.criteriaByTask

lemma Same.coherent_iff (h : Same s s') (hi : s.Indexed) : s'.Coherent ↔ s.Coherent := by
  rw [(h.indexed hi).coherent_iff, hi.coherent_iff]
  unfold TasksAgree ProbesAgree LinkedOnce Running Asked
  simp only [h.statusOf, h.activeTasks, h.probes, h.openProbes, h.evidence]

/-- When a task was last changed does not matter. -/
lemma Same.touch (h : Same s s') (taskId : ℕ) (now : ℤ) : Same s (s'.touch taskId now) := by
  unfold AgentProtocolStore.touch
  cases s'.idToTask taskId with
  | none => exact h
  | some idx =>
    refine ⟨h.idToTask, h.activeTasks, ?_, h.evidence, h.evidenceDedup, h.probes, h.openProbes,
      h.criteria, h.criteriaByTask, h.criteriaDedup⟩
    have hmap : (s'.tasks.modify idx fun t => { t with updatedMs := now }).map
        (fun t => (t.id, t.status)) = s'.tasks.map fun t => (t.id, t.status) := by
      apply Lists.map_modify_of_fixed
      exact fun _ => rfl
    exact hmap.trans h.tasks

/-! ## Tasks -/

lemma Indexed.insertTask (h : s.Indexed) (task : TaskContract) : (s.insertTask task).Indexed where
  tasks := by
    refine Maps.forall_update (fun id idx hidx => ?_) ?_
    · obtain ⟨t, ht, ht'⟩ := h.tasks id idx hidx
      exact ⟨t, List.getElem?_append_left (List.getElem?_eq_some_iff.mp ht).1 ▸ ht, ht'⟩
    · rintro _ ⟨⟩
      exact ⟨task, List.getElem?_concat_length, rfl⟩
  evidence := h.evidence
  criteria := h.criteria
  criteriaByTask := h.criteriaByTask

/-- A task that is added has its status, and the others keep theirs. -/
lemma Indexed.statusOf_insertTask (h : s.Indexed) (task : TaskContract) (id : ℕ) :
    (s.insertTask task).statusOf id = if id = task.id then some task.status else s.statusOf id := by
  unfold statusOf getTask
  change Option.map _ ((Function.update s.idToTask task.id (some s.tasks.length) id).bind
    fun idx => (s.tasks ++ [task])[idx]?) = _
  split
  case isTrue hid => rw [hid, Function.update_self, Option.bind_some, List.getElem?_concat_length,
    Option.map_some]
  case isFalse hid =>
    rw [Function.update_of_ne hid]
    cases hidx : s.idToTask id with
    | none => rfl
    | some idx =>
      obtain ⟨t, ht, -⟩ := h.tasks id idx hidx
      have hlt := (List.getElem?_eq_some_iff.mp ht).1
      rw [Option.bind_some, Option.bind_some, List.getElem?_append_left hlt]

/-- A task that is added is taken to be active. -/
lemma Indexed.coherent_insertTask (hi : s.Indexed) (h : s.Coherent) (task : TaskContract) :
    (s.insertTask task).Coherent ↔ isRunning task.status = true := by
  rw [(hi.insertTask task).coherent_iff]
  have hact : ∀ id, id ∈ (s.insertTask task).activeTasks ↔ id = task.id ∨ s.Running id := by
    intro id
    rw [← h.activeTasks id]
    exact Finset.mem_insert
  constructor
  · rintro ⟨htasks, -⟩
    have hrunning := (htasks task.id).mp ((hact task.id).mpr (Or.inl rfl))
    rwa [running_iff, hi.statusOf_insertTask, if_pos rfl] at hrunning
  · intro hrunning
    refine ⟨fun id => ?_, h.openProbes, h.evidence⟩
    rw [hact, running_iff, running_iff, hi.statusOf_insertTask]
    split
    case isTrue hid => exact ⟨fun _ => hrunning, fun _ => Or.inl hid⟩
    case isFalse hid => exact or_iff_right hid

/-- What an update leaves of a task that is there. -/
lemma updateTask_of_some {id idx : ℕ} (hidx : s.idToTask id = some idx)
    (status : Option TaskStatus) (intervention : Option ℕ) (tag : Option String) (now : ℤ) :
    (s.updateTask id status intervention tag now).1 =
      { s with
        activeTasks := if status.any isOver then s.activeTasks.erase id else s.activeTasks
        tasks := s.tasks.modify idx fun t =>
          { t with
            status := status.getD t.status
            interventionIds := addNew t.interventionIds intervention
            tags := addNew t.tags tag
            updatedMs := now } } := by
  rw [updateTask, hidx]

lemma updateTask_of_none {id : ℕ} (hidx : s.idToTask id = none)
    (status : Option TaskStatus) (intervention : Option ℕ) (tag : Option String) (now : ℤ) :
    (s.updateTask id status intervention tag now).1 = s := by
  rw [updateTask, hidx]

lemma Indexed.updateTask (h : s.Indexed) (id : ℕ) (status : Option TaskStatus)
    (intervention : Option ℕ) (tag : Option String) (now : ℤ) :
    (s.updateTask id status intervention tag now).1.Indexed := by
  cases hidx : s.idToTask id with
  | none => rwa [updateTask_of_none hidx]
  | some idx =>
    rw [updateTask_of_some hidx]
    refine ⟨fun id' idx' hidx' => ?_, h.evidence, h.criteria, h.criteriaByTask⟩
    obtain ⟨t, ht, hid⟩ := h.tasks id' idx' hidx'
    simp only [List.getElem?_modify, ht]
    refine ⟨_, rfl, ?_⟩
    split <;> exact hid

/-- An update sets the status of its task. -/
lemma Indexed.statusOf_updateTask (h : s.Indexed) {id idx : ℕ} (hidx : s.idToTask id = some idx)
    (status : Option TaskStatus) (intervention : Option ℕ) (tag : Option String) (now : ℤ) (id' : ℕ) :
    (s.updateTask id status intervention tag now).1.statusOf id' =
      if id' = id then (s.statusOf id).map status.getD else s.statusOf id' := by
  rw [updateTask_of_some hidx]
  obtain ⟨t, ht, hid⟩ := h.tasks id idx hidx
  unfold statusOf getTask
  simp only [List.getElem?_modify]
  by_cases heq : id' = id
  · rw [if_pos heq, heq, hidx]
    simp [ht]
  · rw [if_neg heq]
    cases hidx' : s.idToTask id' with
    | none => rfl
    | some idx' =>
      obtain ⟨t', ht', hid'⟩ := h.tasks id' idx' hidx'
      -- one position holds one task
      have hne : idx ≠ idx' := by
        rintro rfl
        rw [ht] at ht'
        exact heq (hid'.symm.trans ((congrArg TaskContract.id (Option.some.inj ht')).symm.trans hid))
      simp [ht', hne]

/-- An update is followed unless it makes a task run that is over. -/
lemma Indexed.coherent_updateTask (hi : s.Indexed) (h : s.Coherent) (id : ℕ)
    (status : Option TaskStatus) (intervention : Option ℕ) (tag : Option String) (now : ℤ) :
    (s.updateTask id status intervention tag now).1.Coherent ↔ s.StaysOver id status := by
  cases hidx : s.idToTask id with
  | none =>
    rw [updateTask_of_none hidx]
    exact iff_of_true h fun _ hsome => by simp [hidx] at hsome
  | some idx =>
    obtain ⟨t, ht, -⟩ := hi.tasks id idx hidx
    have hold : s.statusOf id = some t.status := by simp [statusOf, getTask, hidx, ht]
    have hprobes : (s.updateTask id status intervention tag now).1.ProbesAgree := by
      rw [updateTask_of_some hidx]
      exact h.openProbes
    have hevidence : (s.updateTask id status intervention tag now).1.LinkedOnce := by
      rw [updateTask_of_some hidx]
      exact h.evidence
    have hact : (s.updateTask id status intervention tag now).1.activeTasks =
        if status.any isOver then s.activeTasks.erase id else s.activeTasks := by
      rw [updateTask_of_some hidx]
    have hstatus := hi.statusOf_updateTask hidx status intervention tag now
    rw [(hi.updateTask id status intervention tag now).coherent_iff, StaysOver, hidx]
    have htasks : (s.updateTask id status intervention tag now).1.TasksAgree ↔
        (status.any isRunning = true → s.Running id) := by
      unfold TasksAgree
      simp only [hact, running_iff, hstatus]
      cases status with
      | none =>
        refine iff_of_true (fun id' => ?_) (by simp)
        rw [Option.any_none, if_neg Bool.false_ne_true, h.activeTasks, running_iff]
        split
        case isTrue heq => rw [heq, hold, Option.map_some, Option.getD_none]
        case isFalse => rfl
      | some status =>
        rw [hold, Option.any_some, Option.any_some, isOver_eq]
        cases hrun : isRunning status with
        | true =>
          constructor
          · intro hall _
            have hin := (hall id).mpr (by simp [hrun])
            rwa [Bool.not_true, if_neg Bool.false_ne_true, h.activeTasks, running_iff, hold] at hin
          · intro hrunning id'
            rw [Bool.not_true, if_neg Bool.false_ne_true, h.activeTasks, running_iff]
            split
            case isTrue heq =>
              rw [heq, hold]
              exact iff_of_true (hrunning rfl) (by simpa using hrun)
            case isFalse => rfl
        | false =>
          refine iff_of_true (fun id' => ?_) (fun hfalse => absurd hfalse Bool.false_ne_true)
          rw [Bool.not_false, if_pos rfl, Finset.mem_erase, h.activeTasks, running_iff]
          split
          case isTrue heq => simp [heq, hrun]
          case isFalse hne => exact and_iff_right hne
    simp [htasks, hprobes, hevidence]

/-! ## Evidence, questions and criteria -/

lemma Indexed.replayEvidence (h : s.Indexed) (ev : EvidenceLink F) :
    (s.replayEvidence ev).Indexed where
  tasks := h.tasks
  evidence := by
    change ∀ e ∈ s.evidence ++ [ev], Function.update s.evidenceDedup ev.key (some ev.id) e.key ≠ none
    intro e he
    by_cases hkey : e.key = ev.key
    · rw [hkey, Function.update_self]
      exact Option.some_ne_none _
    · rw [Function.update_of_ne hkey]
      rcases List.mem_append.mp he with he | he
      · exact h.evidence e he
      · exact absurd (congrArg EvidenceLink.key (List.mem_singleton.mp he)) hkey
  criteria := h.criteria
  criteriaByTask := h.criteriaByTask

/-- A replay links a memory without a look at what is linked. -/
lemma Indexed.coherent_replayEvidence (hi : s.Indexed) (h : s.Coherent) (ev : EvidenceLink F) :
    (s.replayEvidence ev).Coherent ↔ ev.key ∉ s.evidence.map EvidenceLink.key := by
  have hlinked : (s.replayEvidence ev).LinkedOnce ↔ ev.key ∉ s.evidence.map EvidenceLink.key := by
    change ((s.evidence ++ [ev]).map EvidenceLink.key).Nodup ↔ _
    rw [List.map_append, List.map_singleton, ← List.concat_eq_append, List.nodup_concat]
    exact and_iff_left h.evidence
  rw [(hi.replayEvidence ev).coherent_iff, hlinked]
  exact ⟨fun hc => hc.2.2, fun hnew => ⟨h.activeTasks, h.openProbes, hnew⟩⟩

lemma Indexed.replayProbe (h : s.Indexed) (probe : PendingProbe) : (s.replayProbe probe).Indexed :=
  ⟨h.tasks, h.evidence, h.criteria, h.criteriaByTask⟩

/-- A question that is added is open if it says so. -/
lemma Indexed.coherent_replayProbe (hi : s.Indexed) (h : s.Coherent) (probe : PendingProbe) :
    (s.replayProbe probe).Coherent := by
  refine (hi.replayProbe probe).coherent_iff.mpr ⟨h.activeTasks, fun id => ?_, h.evidence⟩
  have hasked : (s.replayProbe probe).Asked id ↔
      s.Asked id ∨ (probe.id = id ∧ probe.status = .isOpen) := by
    change (∃ p ∈ s.probes ++ [probe], p.id = id ∧ p.status = .isOpen) ↔ _
    simp only [List.mem_append, List.mem_singleton, or_and_right, exists_or, exists_eq_left]
    exact Iff.rfl
  rw [hasked, ← h.openProbes]
  change id ∈ (if probe.status = .isOpen then insert probe.id s.openProbes else s.openProbes) ↔ _
  split
  case isTrue hopen => rw [Finset.mem_insert, and_iff_left hopen, or_comm, eq_comm]
  case isFalse hopen => exact (or_iff_left fun hid => hopen hid.2).symm

/-- What an answer leaves of a question that is there. -/
lemma resolveProbe_of_some {probeId idx : ℕ}
    (hidx : (s.probes.findIdx? fun p => p.id = probeId) = some idx) (status : ProbeStatus)
    (answer : Option String) (now : ℤ) :
    (s.resolveProbe probeId status answer now).1 =
      { s with
        probes := s.probes.modify idx
          ({ · with status := status, resolvedMs := some now, answer := answer })
        openProbes := s.openProbes.erase probeId } := by
  rw [resolveProbe, hidx]

lemma resolveProbe_of_none {probeId : ℕ}
    (hidx : (s.probes.findIdx? fun p => p.id = probeId) = none) (status : ProbeStatus)
    (answer : Option String) (now : ℤ) : (s.resolveProbe probeId status answer now).1 = s := by
  rw [resolveProbe, hidx]

lemma Indexed.resolveProbe (h : s.Indexed) (probeId : ℕ) (status : ProbeStatus)
    (answer : Option String) (now : ℤ) : (s.resolveProbe probeId status answer now).1.Indexed := by
  cases hidx : s.probes.findIdx? fun p => p.id = probeId with
  | none => rwa [resolveProbe_of_none hidx]
  | some idx =>
    rw [resolveProbe_of_some hidx]
    exact ⟨h.tasks, h.evidence, h.criteria, h.criteriaByTask⟩

/-- Which questions are open behind an answer to the one at a position. -/
lemma asked_modify {probes : List PendingProbe} {idx probeId : ℕ} {p : PendingProbe}
    (hp : probes[idx]? = some p) (hid : p.id = probeId) {f : PendingProbe → PendingProbe}
    (hf : ∀ q, (f q).id = q.id) (id : ℕ) :
    (∃ q ∈ probes.modify idx f, q.id = id ∧ q.status = .isOpen) ↔
      (id = probeId ∧ (f p).status = .isOpen) ∨
        ∃ i q, probes[i]? = some q ∧ i ≠ idx ∧ q.id = id ∧ q.status = .isOpen := by
  simp only [List.mem_iff_getElem?, List.getElem?_modify]
  constructor
  · rintro ⟨q, ⟨i, hi⟩, hqid, hopen⟩
    obtain ⟨q', hq', rfl⟩ := Option.map_eq_some_iff.mp hi
    by_cases hidx : idx = i
    · rw [if_pos hidx] at hqid hopen
      obtain rfl := Option.some.inj ((hidx ▸ hp).symm.trans hq')
      exact Or.inl ⟨hqid.symm.trans ((hf p).trans hid), hopen⟩
    · rw [if_neg hidx] at hqid hopen
      exact Or.inr ⟨i, q', hq', Ne.symm hidx, hqid, hopen⟩
  · rintro (⟨rfl, hopen⟩ | ⟨i, q, hq, hne, hqid, hopen⟩)
    · exact ⟨f p, ⟨idx, by simp [hp]⟩, (hf p).trans hid, hopen⟩
    · exact ⟨q, ⟨i, by simp [hq, Ne.symm hne]⟩, hqid, hopen⟩

/-- An answer is followed if its question is open no more. -/
lemma Indexed.coherent_resolveProbe (hi : s.Indexed) (h : s.Coherent) (probeId : ℕ)
    (status : ProbeStatus) (answer : Option String) (now : ℤ) :
    (s.resolveProbe probeId status answer now).1.Coherent ↔ s.ResolvesOnce probeId status := by
  rw [(hi.resolveProbe probeId status answer now).coherent_iff]
  cases hidx : s.probes.findIdx? fun p => p.id = probeId with
  | none =>
    rw [resolveProbe_of_none hidx]
    exact iff_of_true ⟨h.activeTasks, h.openProbes, h.evidence⟩
      fun idx hsome => by simp [hidx] at hsome
  | some idx =>
    obtain ⟨hlt, hfound, -⟩ := List.findIdx?_eq_some_iff_getElem.mp hidx
    have hget : s.probes[idx]? = some s.probes[idx] := List.getElem?_eq_getElem hlt
    have hid : s.probes[idx].id = probeId := of_decide_eq_true hfound
    rw [resolveProbe_of_some hidx]
    have hasked := asked_modify hget hid (f := fun p =>
      { p with status := status, resolvedMs := some now, answer := answer }) fun _ => rfl
    have hprobes : (∀ id, id ∈ s.openProbes.erase probeId ↔
        ∃ q ∈ s.probes.modify idx fun p =>
          { p with status := status, resolvedMs := some now, answer := answer },
          q.id = id ∧ q.status = .isOpen) ↔ s.ResolvesOnce probeId status := by
      simp only [hasked, Finset.mem_erase, h.openProbes]
      constructor
      · intro hall idx' hidx'
        obtain rfl := Option.some.inj (hidx.symm.trans hidx')
        have hclosed := fun hopen => ((hall probeId).mpr hopen).1 rfl
        exact ⟨fun hopen => hclosed (Or.inl ⟨rfl, hopen⟩),
          fun i q hq hqid hne hopen => hclosed (Or.inr ⟨i, q, hq, hne, hqid, hopen⟩)⟩
      · intro honce id
        obtain ⟨hstatus, hothers⟩ := honce idx hidx
        constructor
        · rintro ⟨hne, q, hq, hqid, hopen⟩
          obtain ⟨i, hi⟩ := List.mem_iff_getElem?.mp hq
          refine Or.inr ⟨i, q, hi, ?_, hqid, hopen⟩
          rintro rfl
          exact hne (hqid.symm.trans ((congrArg PendingProbe.id
            (Option.some.inj (hget.symm.trans hi))).symm.trans hid))
        · rintro (⟨-, hopen⟩ | ⟨i, q, hq, hne, hqid, hopen⟩)
          · exact absurd hopen hstatus
          · refine ⟨?_, q, List.mem_of_getElem? hq, hqid, hopen⟩
            rintro rfl
            exact hothers i q hq hqid hne hopen
    exact ⟨fun hc => hprobes.mp hc.2.1, fun hr => ⟨h.activeTasks, hprobes.mpr hr, h.evidence⟩⟩

/-- A criterion is checked. -/
def checkCriterion (s : AgentProtocolStore F) (idx : ℕ) (isMet : Bool) (checkedMs : Option ℤ)
    (evidenceNote : Option String) : AgentProtocolStore F :=
  { s with
    criteria := s.criteria.modify idx ({ · with
      isMet := isMet, checkedMs := checkedMs, evidenceNote := evidenceNote }) }

lemma Indexed.checkCriterion (h : s.Indexed) (idx : ℕ) (isMet : Bool) (checkedMs : Option ℤ)
    (evidenceNote : Option String) : (s.checkCriterion idx isMet checkedMs evidenceNote).Indexed := by
  have hiff : ∀ (i : ℕ) (p : CompletionCriterion → Prop),
      (∀ c : CompletionCriterion,
        p { c with isMet := isMet, checkedMs := checkedMs, evidenceNote := evidenceNote } ↔ p c) →
      ((∃ c, (s.checkCriterion idx isMet checkedMs evidenceNote).criteria[i]? = some c ∧ p c) ↔
        ∃ c, s.criteria[i]? = some c ∧ p c) := by
    intro i p hp
    unfold AgentProtocolStore.checkCriterion
    simp only [List.getElem?_modify]
    cases s.criteria[i]? with
    | none => simp
    | some c => by_cases hi : idx = i <;> simp [hi, hp]
  exact ⟨h.tasks, h.evidence, fun key i => (h.criteria key i).trans (hiff i _ fun _ => Iff.rfl).symm,
    fun id i => (h.criteriaByTask id i).trans (hiff i _ fun _ => Iff.rfl).symm⟩

/-- A criterion is added. -/
def addCriterion (s : AgentProtocolStore F) (crit : CompletionCriterion) : AgentProtocolStore F :=
  { s with
    criteriaByTask := Maps.push s.criteriaByTask crit.taskId s.criteria.length
    criteriaDedup := Function.update s.criteriaDedup crit.key (some s.criteria.length)
    criteria := s.criteria ++ [crit] }

/-- What stands at the positions of a list with one more entry. -/
lemma exists_getElem?_concat {α : Type} {l : List α} {a : α} {i : ℕ} {p : α → Prop} :
    (∃ b, (l ++ [a])[i]? = some b ∧ p b) ↔
      (∃ b, l[i]? = some b ∧ p b) ∨ (i = l.length ∧ p a) := by
  rw [List.getElem?_append]
  split
  case isTrue hlt => exact (or_iff_left fun h => absurd h.1 hlt.ne).symm
  case isFalse hge =>
    rw [List.getElem?_eq_none_iff.mpr (not_lt.mp hge)]
    rcases Nat.lt_or_eq_of_le (not_lt.mp hge) with hlt | rfl
    · rw [List.getElem?_eq_none_iff.mpr (by simp only [List.length_singleton]; omega)]
      simp [hlt.ne']
    · simp

lemma Indexed.addCriterion (h : s.Indexed) {crit : CompletionCriterion}
    (hnew : s.criteriaDedup crit.key = none) : (s.addCriterion crit).Indexed where
  tasks := h.tasks
  evidence := h.evidence
  criteria key idx := by
    change Function.update s.criteriaDedup crit.key (some s.criteria.length) key = some idx ↔
      ∃ c, (s.criteria ++ [crit])[idx]? = some c ∧ c.key = key
    rw [exists_getElem?_concat, ← h.criteria]
    by_cases hkey : key = crit.key
    · rw [hkey, Function.update_self, hnew]
      simp [eq_comm]
    · rw [Function.update_of_ne hkey]
      exact (or_iff_left fun hc => hkey hc.2.symm).symm
  criteriaByTask id idx := by
    change idx ∈ (Maps.push s.criteriaByTask crit.taskId s.criteria.length id).getD [] ↔
      ∃ c, (s.criteria ++ [crit])[idx]? = some c ∧ c.taskId = id
    rw [exists_getElem?_concat, ← h.criteriaByTask]
    unfold Maps.push
    by_cases hid : id = crit.taskId
    · rw [hid, Function.update_self]
      simp
    · rw [Function.update_of_ne hid]
      exact (or_iff_left fun hc => hid hc.2.symm).symm

/-- What is attached to a task by an operation. -/
inductive Attached (s : AgentProtocolStore F) : AgentProtocolStore F → Prop where
  | nothing : Attached s s
  | evidence (ev : EvidenceLink F) (hnew : ev.key ∉ s.evidence.map EvidenceLink.key) :
    Attached s (s.replayEvidence ev)
  | probe (probe : PendingProbe) : Attached s (s.replayProbe probe)
  | check (idx : ℕ) (isMet : Bool) (checkedMs : Option ℤ) (evidenceNote : Option String) :
    Attached s (s.checkCriterion idx isMet checkedMs evidenceNote)
  | criterion (crit : CompletionCriterion) (hnew : s.criteriaDedup crit.key = none) :
    Attached s (s.addCriterion crit)

lemma Attached.indexed (ha : Attached s s') (h : s.Indexed) : s'.Indexed := by
  cases ha with
  | nothing => exact h
  | evidence ev _ => exact h.replayEvidence ev
  | probe probe => exact h.replayProbe probe
  | check idx isMet checkedMs evidenceNote => exact h.checkCriterion idx isMet checkedMs evidenceNote
  | criterion crit hnew => exact h.addCriterion hnew

/-- What is attached to a task leaves the store coherent. -/
lemma Attached.coherent (ha : Attached s s') (hi : s.Indexed) (h : s.Coherent) : s'.Coherent := by
  have hi' := ha.indexed hi
  cases ha with
  | nothing => exact h
  | evidence ev hnew => exact (hi.coherent_replayEvidence h ev).mpr hnew
  | probe probe => exact hi.coherent_replayProbe h probe
  | check => exact hi'.coherent_iff.mpr ⟨h.activeTasks, h.openProbes, h.evidence⟩
  | criterion => exact hi'.coherent_iff.mpr ⟨h.activeTasks, h.openProbes, h.evidence⟩

/-! ## Live calls -/

lemma attached_addDelegation (s : AgentProtocolStore F) (taskId : ℕ) (fromAgent toAgent : String)
    (note : Option String) (now : ℤ) :
    ∃ s₁, Attached s s₁ ∧ Same s₁ (s.addDelegation taskId fromAgent toAgent note now).1 := by
  refine ⟨s, .nothing, ?_⟩
  unfold addDelegation
  split
  · exact .refl s
  · apply Same.touch
    exact ⟨rfl, rfl, rfl, rfl, rfl, rfl, rfl, rfl, rfl, rfl⟩

/-- A live call looks whether a memory is linked already. -/
lemma Indexed.attached_linkEvidence (h : s.Indexed) (taskId : ℕ) (memoryId : MemoryId)
    (producedBy : String) (kind : EvidenceKind) (relevance : F) (now : ℤ) :
    ∃ s₁, Attached s s₁ ∧
      Same s₁ (s.linkEvidence taskId memoryId producedBy kind relevance now).1 := by
  unfold linkEvidence
  split
  · exact ⟨s, .nothing, .refl s⟩
  · cases hdedup : s.evidenceDedup (taskId, memoryId) with
    | some => exact ⟨s, .nothing, .refl s⟩
    | none =>
      let ev : EvidenceLink F := ⟨s.nextEvidenceId, taskId, memoryId, producedBy, kind, relevance, now⟩
      refine ⟨s.replayEvidence ev, .evidence ev fun hmem => ?_, ?_⟩
      · obtain ⟨e, he, hkey⟩ := List.mem_map.mp hmem
        exact h.evidence e he (hkey ▸ hdedup)
      · apply Same.touch
        exact ⟨rfl, rfl, rfl, rfl, rfl, rfl, rfl, rfl, rfl, rfl⟩

lemma attached_addProbe (s : AgentProtocolStore F) (taskId : ℕ) (question : String)
    (expectedAnswerer : Option String) (priority : ℕ) (now : ℤ) :
    ∃ s₁, Attached s s₁ ∧ Same s₁ (s.addProbe taskId question expectedAnswerer priority now).1 := by
  unfold addProbe
  split
  · exact ⟨s, .nothing, .refl s⟩
  · let probe : PendingProbe :=
      ⟨s.nextProbeId, taskId, question, expectedAnswerer, priority, .isOpen, now, none, none⟩
    refine ⟨s.replayProbe probe, .probe probe, ?_⟩
    apply Same.touch
    exact ⟨rfl, rfl, rfl, rfl, rfl, rfl, rfl, rfl, rfl, rfl⟩

lemma attached_setCriterion (s : AgentProtocolStore F) (taskId : ℕ) (criterion : String)
    (isMet : Bool) (note : Option String) (now : ℤ) :
    ∃ s₁, Attached s s₁ ∧ Same s₁ (s.setCriterion taskId criterion isMet note now).1 := by
  unfold setCriterion
  split
  · exact ⟨s, .nothing, .refl s⟩
  · cases hdedup : s.criteriaDedup (taskId, criterion) with
    | some idx =>
      refine ⟨s.checkCriterion idx isMet (some now) note, .check idx isMet (some now) note, ?_⟩
      apply Same.touch
      exact ⟨rfl, rfl, rfl, rfl, rfl, rfl, rfl, rfl, rfl, rfl⟩
    | none =>
      let crit : CompletionCriterion :=
        ⟨s.nextCriterionId, taskId, criterion, isMet, some now, note⟩
      refine ⟨s.addCriterion crit, .criterion crit hdedup, ?_⟩
      apply Same.touch
      exact ⟨rfl, rfl, rfl, rfl, rfl, rfl, rfl, rfl, rfl, rfl⟩

lemma attached_replayCriterion (s : AgentProtocolStore F) (crit : CompletionCriterion) :
    ∃ s₁, Attached s s₁ ∧ Same s₁ (s.replayCriterion crit) := by
  unfold replayCriterion
  dsimp only
  cases hdedup : s.criteriaDedup (crit.taskId, crit.criterion) with
  | some idx =>
    exact ⟨s.checkCriterion idx crit.isMet crit.checkedMs crit.evidenceNote, .check ..,
      rfl, rfl, rfl, rfl, rfl, rfl, rfl, rfl, rfl, rfl⟩
  | none =>
    exact ⟨s.addCriterion crit, .criterion crit hdedup,
      rfl, rfl, rfl, rfl, rfl, rfl, rfl, rfl, rfl, rfl⟩

/-! ## Runs -/

/-- What an operation does that attaches something. -/
lemma Indexed.step_attached (hi : s.Indexed) {s' : AgentProtocolStore F} {cond : Prop}
    (h : ∃ s₁, Attached s s₁ ∧ Same s₁ s') (hcond : cond) :
    s'.Indexed ∧ (s.Coherent → (s'.Coherent ↔ cond)) := by
  obtain ⟨s₁, ha, hsame⟩ := h
  exact ⟨hsame.indexed (ha.indexed hi), fun hc =>
    iff_of_true ((hsame.coherent_iff (ha.indexed hi)).mpr (ha.coherent hi hc)) hcond⟩

/-- What an operation does that adds a task. -/
lemma Indexed.step_insertTask (hi : s.Indexed) {s' : AgentProtocolStore F} {cond : Prop}
    (task : TaskContract) (hsame : Same (s.insertTask task) s')
    (hcond : isRunning task.status = true ↔ cond) :
    s'.Indexed ∧ (s.Coherent → (s'.Coherent ↔ cond)) := by
  have hi' := hi.insertTask task
  exact ⟨hsame.indexed hi', fun hc =>
    (hsame.coherent_iff hi').trans ((hi.coherent_insertTask hc task).trans hcond)⟩

/-- An operation keeps the positions, and a coherent store coherent iff the derived sets follow it. -/
lemma Indexed.step (hi : s.Indexed) (op : Step F) :
    (s.step op).Indexed ∧ (s.Coherent → ((s.step op).Coherent ↔ s.Followed op)) := by
  cases op with
  | live now call =>
    cases call with
    | registerTask goal constraints criteria realm sessionId priority parentTaskId deadlineMs tags =>
      let o : RegisterTaskOp := ⟨s.nextTaskId, sessionId, realm, goal, constraints, criteria,
        priority, parentTaskId, tags, deadlineMs, now⟩
      exact hi.step_insertTask (registered o) ⟨rfl, rfl, rfl, rfl, rfl, rfl, rfl, rfl, rfl, rfl⟩
        (iff_of_true rfl trivial)
    | updateTask =>
      exact ⟨hi.updateTask .., fun hc => hi.coherent_updateTask hc ..⟩
    | addDelegation => exact hi.step_attached (attached_addDelegation ..) trivial
    | linkEvidence => exact hi.step_attached (hi.attached_linkEvidence ..) trivial
    | addProbe => exact hi.step_attached (attached_addProbe ..) trivial
    | resolveProbe =>
      exact ⟨hi.resolveProbe .., fun hc => hi.coherent_resolveProbe hc ..⟩
    | setCriterion => exact hi.step_attached (attached_setCriterion ..) trivial
  | replayRegisterTask task =>
    exact hi.step_insertTask task ⟨rfl, rfl, rfl, rfl, rfl, rfl, rfl, rfl, rfl, rfl⟩ Iff.rfl
  | replayUpdateTask =>
    exact ⟨hi.updateTask .., fun hc => hi.coherent_updateTask hc ..⟩
  | replayDelegation del =>
    exact hi.step_attached
      ⟨s, .nothing, rfl, rfl, rfl, rfl, rfl, rfl, rfl, rfl, rfl, rfl⟩ trivial
  | replayEvidence ev => exact ⟨hi.replayEvidence ev, fun hc => hi.coherent_replayEvidence hc ev⟩
  | replayProbe probe => exact hi.step_attached ⟨_, .probe probe, .refl _⟩ trivial
  | replayResolveProbe =>
    exact ⟨hi.resolveProbe .., fun hc => hi.coherent_resolveProbe hc ..⟩
  | replayCriterion crit => exact hi.step_attached (attached_replayCriterion s crit) trivial

lemma indexed_new : (new : AgentProtocolStore F).Indexed where
  tasks := by rintro _ _ ⟨⟩
  evidence := by rintro _ ⟨⟩
  criteria _ _ := by simp [new]
  criteriaByTask _ _ := by simp [new]

lemma coherent_new : (new : AgentProtocolStore F).Coherent :=
  indexed_new.coherent_iff.mpr ⟨fun _ => by simp [new, Running, statusOf, getTask],
    fun _ => by simp [new, Asked], List.nodup_nil⟩

/-- The derived sets say what the tables say behind every operation of a run iff they follow all
operations. -/
theorem indexes_coherent_iff (ops : List (Step F)) :
    Replayed.All (fun s op => (s.step op, ([] : List Unit)))
        (fun s op => (s.step op).Coherent) (new : AgentProtocolStore F) ops ↔
      Replayed.All (fun s op => (s.step op, ([] : List Unit))) Followed new ops :=
  Replayed.all_iff Indexed Coherent (fun _ op hi => (hi.step op).1)
    (fun _ op hi hc => (hi.step op).2 hc) indexed_new coherent_new

/-- The store behind a task that is completed and made active again, a question that is answered and
opened again, and a memory that a replay links a second time. -/
def reopened : AgentProtocolStore ℚ :=
  [.live 1 (.registerTask "goal" [] [] "realm" "session" 0 none none []),
    .live 2 (.addProbe 1 "why" none 0), .live 3 (.updateTask 1 (some 2) none none),
    .live 4 (.updateTask 1 (some 0) none none), .live 5 (.resolveProbe 1 0 none),
    .live 6 (.linkEvidence 1 9 "agent" 0 1),
    .replayEvidence ⟨1, 1, 9, "agent", .observation, 1, 6⟩].foldl step new

/-- The task is active, but not among the active ones; nor is the question among the open ones, and
the memory is linked twice. -/
theorem reopened_stays_out : ¬ reopened.Coherent ∧
    reopened.statusOf 1 = some .active ∧ reopened.activeTasks = ∅ ∧
    reopened.probes.map (fun p => (p.id, p.status)) = [(1, .isOpen)] ∧ reopened.openProbes = ∅ ∧
    reopened.evidence.map EvidenceLink.key = [(1, 9), (1, 9)] := by
  have hstatus : reopened.statusOf 1 = some .active := by decide +kernel
  have hempty : reopened.activeTasks = ∅ := by decide +kernel
  refine ⟨fun h => ?_, hstatus, hempty, by decide +kernel, by decide +kernel, by decide +kernel⟩
  have hin := (h.activeTasks 1).mpr (Or.inl hstatus)
  rw [hempty] at hin
  exact absurd hin (Finset.notMem_empty 1)

end AgentProtocolStore

end ChittaField
