import ChittaField.Lib.Slots
import ChittaField.Organs.AgentProtocol
import ChittaField.Organs.Constraints
import ChittaField.Organs.Dispatch
import ChittaField.Organs.LineageReplay
import ChittaField.Organs.Triggers

/-!
# Records of two writers

Tasks, facts, triggers and lineages are numbered by the store that they are in.  Two instances that
have read the same logs give the same numbers to what they register next, and an instance that
applies the operations of both finds one record under each number.

`records_apart` says that records stay apart as long as no two writers register records of the same
kind.
-/

namespace ChittaField

variable {F : Type}

/-! ## The stores -/

/-- The stores that number their records. -/
structure RecordStores (F : Type) where
  tasks : AgentProtocolStore F
  constraints : ConstraintStore F
  triggers : TriggerStore F
  lineages : WisdomLineageStore F

/-- How triggers and envelopes are written and read. -/
structure Codec (F : Type) where
  text : TriggerText F
  outside : WisdomLineageStore.Outside F

/-- A record by the organ that has it and its number. -/
abbrev RecordKey : Type := OrganName × ℕ

/-- A record. -/
inductive StoredRecord (F : Type) where
  | task (t : TaskContract)
  | constraint (c : Constraint F)
  | trigger (t : TriggerAutomaton F)
  | lineage (l : WisdomLineage F)

/-- A fact without its branch, which the log does not have. -/
def unbranched (c : Constraint F) : Constraint F := { c with branchId := 0 }

/-- A lineage without its version, which the log does not have. -/
def unversioned (l : WisdomLineage F) : WisdomLineage F := { l with derivationVersion := 0 }

namespace RecordStores

/-- Empty stores. -/
def new : RecordStores F := ⟨.new, .new, .new, .new⟩

/-- What is registered under a key. -/
def found (s : RecordStores F) (key : RecordKey) : Option (StoredRecord F) :=
  match key.1 with
  | .agentProtocol => (s.tasks.getTask key.2).map .task
  | .constraint => ((s.constraints.get key.2).map unbranched).map .constraint
  | .trigger => (s.triggers.get key.2).map .trigger
  | .wisdomLineage => ((s.lineages.get key.2).map unversioned).map .lineage
  | _ => none

variable [F32 F]

/-- Apply an operation; each store passes on those of the others. -/
def apply (codec : Codec F) (s : RecordStores F) (op : Op F) : RecordStores F where
  tasks := s.tasks.apply op
  constraints := s.constraints.apply op
  triggers := s.triggers.apply codec.text op
  lineages := s.lineages.apply codec.outside op

/-! ## Registering -/

/-- A call that registers a record. -/
inductive Registration (F : Type) where
  | registerTask (goal : String) (constraints acceptanceCriteria : List String)
      (realm sessionId : String) (priority : ℕ) (parentTaskId : Option ℕ) (deadlineMs : Option ℤ)
      (tags : List String)
  | assertConstraint (subject predicate object : String) (confidence : F) (scope : String)
      (branchId : ℕ) (provenance : Provenance) (sourceMemoryId : Option MemoryId)
  | addTrigger (name : String) (condition : TriggerCondition) (action : TriggerAction)
      (deadlineMs : ℤ) (tensionThreshold gain : F) (realm : String) (sourceSession : Option String)
  | enrollWisdomLineage (e : WisdomLineageStore.Enrolment)

omit [F32 F] in
/-- The organ that gets the record. -/
def Registration.organ : Registration F → OrganName
  | .registerTask .. => .agentProtocol
  | .assertConstraint .. => .constraint
  | .addTrigger .. => .trigger
  | .enrollWisdomLineage .. => .wisdomLineage

/-- Register a record at a time; the stores, and the key that is returned with what is logged. -/
def register (codec : Codec F) (s : RecordStores F) :
    ℤ × Registration F → RecordStores F × List (RecordKey × Op F)
  | (now, .registerTask goal constraints criteria realm sessionId priority parent deadline tags) =>
    let r := s.tasks.call now
      (.registerTask goal constraints criteria realm sessionId priority parent deadline tags)
    ({ s with tasks := r.1 }, r.2.map fun op => ((.agentProtocol, s.tasks.nextTaskId), op))
  | (now, .assertConstraint subject predicate object confidence scope branchId provenance memory) =>
    let r := s.constraints.call now
      (.assertConstraint subject predicate object confidence scope branchId provenance memory)
    ({ s with constraints := r.1 }, r.2.map fun op => ((.constraint, s.constraints.nextId), op))
  | (now, .addTrigger name condition action deadlineMs threshold gain realm session) =>
    let r := s.triggers.addTrigger name condition action deadlineMs threshold gain realm session now
    ({ s with triggers := r.1 }, ((r.1.get r.2).map fun t =>
      ((.trigger, r.2), Op.addTrigger ⟨codec.text.toJson t⟩)).toList)
  | (now, .enrollWisdomLineage e) =>
    let r := s.lineages.enroll e ((codec.outside.fromJson e.envelopeJson).getD default) now
    ({ s with lineages := r.1 },
      [((.wisdomLineage, r.2), .upsertWisdomLineage (e.op r.2 now))])

/-- The stores of a writer behind its registrations, with the keys and the log. -/
abbrev written (codec : Codec F) (s : RecordStores F) (calls : List (ℤ × Registration F)) :
    RecordStores F × List (RecordKey × Op F) :=
  Replayed.run (register codec) s calls

/-- The log tells of a registration as it was done: the text of a trigger is read as that trigger,
and a candidate is enrolled that has no lineage. -/
def Plain (codec : Codec F) (s : RecordStores F) : ℤ × Registration F → Prop
  | (now, .addTrigger name condition action deadlineMs threshold gain realm session) =>
    let r := s.triggers.addTrigger name condition action deadlineMs threshold gain realm session now
    ∀ t, r.1.get r.2 = some t → codec.text.fromJson (codec.text.toJson t) = some t
  | (_, .enrollWisdomLineage e) => s.lineages.byCandidate e.wisdomCandidateId = none
  | _ => True

/-! ## Updates -/

omit [F32 F] in
/-- An operation that updates a record of a writer with these keys. -/
def UpdatesOwn (keys : List RecordKey) : Op F → Prop
  | .updateTask o => (.agentProtocol, o.taskId) ∈ keys
  | .retractConstraint o => (.constraint, o.factId) ∈ keys
  | .resolveBranch _ => ∃ id, (.constraint, id) ∈ keys
  | .updateTrigger o => (.trigger, o.triggerId) ∈ keys
  | .fireTrigger o => (.trigger, o.triggerId) ∈ keys
  | .adjudicateLineage o => (.wisdomLineage, o.lineageId) ∈ keys
  | .transitionLineage o => (.wisdomLineage, o.lineageId) ∈ keys
  | .recordChallenger o => (.wisdomLineage, o.lineageId) ∈ keys
  | .closeRederive o => (.wisdomLineage, o.lineageId) ∈ keys
  | _ => False

/-- Stores have the records of a writer under its keys, and no updates of the records of another
writer change them. -/
structure HasApart (codec : Codec F) (s : RecordStores F)
    (writer other : RecordStores F × List (RecordKey × Op F)) : Prop where
  retrievable : ∀ key ∈ writer.2.map Prod.fst,
    (s.found key).isSome = true ∧ s.found key = writer.1.found key
  unharmed : ∀ ops : List (Op F), (∀ op ∈ ops, UpdatesOwn (other.2.map Prod.fst) op) →
    ∀ key ∈ writer.2.map Prod.fst, (ops.foldl (apply codec) s).found key = s.found key

/-! ## One organ at a time -/

omit [F32 F] in
/-- Stores are the same for an organ. -/
def Agree (name : OrganName) (s s' : RecordStores F) : Prop :=
  match name with
  | .agentProtocol => s.tasks = s'.tasks
  | .constraint => s.constraints = s'.constraints
  | .trigger => s.triggers = s'.triggers
  | .wisdomLineage => s.lineages = s'.lineages
  | _ => True

section Organs

variable {codec : Codec F} {name : OrganName} {s s' s'' : RecordStores F} {op : Op F}

omit [F32 F] in
lemma Agree.refl (name : OrganName) (s : RecordStores F) : Agree name s s := by
  cases name <;> first | rfl | trivial

omit [F32 F] in
lemma Agree.trans (h : Agree name s s') (h' : Agree name s' s'') : Agree name s s'' := by
  cases name <;> first | exact Eq.trans h h' | trivial

omit [F32 F] in
lemma Agree.symm (h : Agree name s s') : Agree name s' s := by
  cases name <;> first | exact Eq.symm h | trivial

omit [F32 F] in
/-- What is found under a key depends on its organ. -/
lemma Agree.found {key : RecordKey} (h : Agree key.1 s s') : s.found key = s'.found key := by
  obtain ⟨name, id⟩ := key
  unfold RecordStores.found
  cases name <;> first | rfl | (unfold Agree at h; simp only at h ⊢; rw [h])

/-- Operations of other organs change nothing. -/
lemma agree_apply_of_ne (h : owner op ≠ some name) : Agree name (s.apply codec op) s := by
  cases name with
  | agentProtocol => cases op <;> first | rfl | exact absurd rfl h
  | constraint => cases op <;> first | rfl | exact absurd rfl h
  | trigger => cases op <;> first | rfl | exact absurd rfl h
  | wisdomLineage => cases op <;> first | rfl | exact absurd rfl h
  | _ => trivial

/-- An operation keeps stores the same. -/
lemma Agree.apply (h : Agree name s s') (op : Op F) :
    Agree name (s.apply codec op) (s'.apply codec op) := by
  cases name <;>
    first | trivial | (unfold Agree at h ⊢; simp only [RecordStores.apply] at h ⊢; rw [h])

lemma Agree.foldl (h : Agree name s s') (ops : List (Op F)) :
    Agree name (ops.foldl (RecordStores.apply codec) s) (ops.foldl (RecordStores.apply codec) s') := by
  induction ops generalizing s s' with
  | nil => exact h
  | cons op ops ih => exact ih (h.apply op)

/-- An organ sees its own operations only. -/
lemma agree_foldl_filter (codec : Codec F) (name : OrganName) (ops : List (Op F))
    (s : RecordStores F) :
    Agree name (ops.foldl (RecordStores.apply codec) s)
      ((ops.filter fun op => owner op = some name).foldl (RecordStores.apply codec) s) := by
  induction ops generalizing s with
  | nil => exact Agree.refl name s
  | cons op ops ih =>
    by_cases hop : owner op = some name
    · rw [List.filter_cons_of_pos (by simpa using hop)]
      exact ih _
    · rw [List.filter_cons_of_neg (by simpa using hop)]
      exact ((agree_apply_of_ne hop).foldl ops).trans (ih s)

/-- Where no operation is of an organ, it stays as it is. -/
lemma agree_foldl_of_ne {ops : List (Op F)} (h : ∀ op ∈ ops, owner op ≠ some name) :
    Agree name (ops.foldl (RecordStores.apply codec) s) s := by
  have hnil : (ops.filter fun op => owner op = some name) = [] :=
    List.filter_eq_nil_iff.mpr fun op hop => by simpa using h op hop
  have hfilter := agree_foldl_filter codec name ops s
  rwa [hnil] at hfilter

end Organs

/-! ## A writer and its log -/

omit [F32 F] in
/-- Stores that a replay has filled as a writer has: all but the branches of facts and the versions of
lineages. -/
structure Follows (live rep : RecordStores F) : Prop where
  tasks : rep.tasks = live.tasks
  triggers : rep.triggers = live.triggers
  nextFact : rep.constraints.nextId = live.constraints.nextId
  factIndex : rep.constraints.idToIndex = live.constraints.idToIndex
  facts : rep.constraints.constraints.map unbranched = live.constraints.constraints.map unbranched
  nextLineage : rep.lineages.nextId = live.lineages.nextId
  lineageIndex : rep.lineages.idToIndex = live.lineages.idToIndex
  lineages : rep.lineages.lineages.map unversioned = live.lineages.lineages.map unversioned
  sound : rep.lineages.Sound

section Follows

variable {codec : Codec F} {live rep : RecordStores F}

omit [F32 F] in
lemma length_of_map_eq {α β : Type} {f : α → β} {l l' : List α} (h : l.map f = l'.map f) :
    l.length = l'.length := by
  simpa using congrArg List.length h

omit [F32 F] in
/-- They show the same records. -/
lemma Follows.found (h : Follows live rep) (key : RecordKey) : rep.found key = live.found key := by
  obtain ⟨name, id⟩ := key
  unfold RecordStores.found
  cases name with
  | agentProtocol => simp only [h.tasks]
  | trigger => simp only [h.triggers]
  | constraint =>
    have hsame : (rep.constraints.get id).map unbranched =
        (live.constraints.get id).map unbranched := by
      unfold ConstraintStore.get
      rw [h.factIndex]
      exact Slots.map_lookup_congr unbranched h.facts
    simp only [hsame]
  | wisdomLineage =>
    have hsame : (rep.lineages.get id).map unversioned = (live.lineages.get id).map unversioned := by
      unfold WisdomLineageStore.get
      rw [h.lineageIndex]
      exact Slots.map_lookup_congr unversioned h.lineages
    simp only [hsame]
  | _ => rfl

/-- A fact that is asserted comes behind all others, in whatever branch. -/
lemma assertFact_eq (s : ConstraintStore F) (o : AssertConstraintOp F) :
    ∃ branchId, (s.assertFact o).nextId = s.nextId + 1 ∧
      (s.assertFact o).idToIndex =
        Slots.indexed s.idToIndex s.constraints o.factId ∧
      (s.assertFact o).constraints = s.constraints ++ [ConstraintStore.asserted o branchId] := by
  unfold ConstraintStore.assertFact
  dsimp only
  split
  · exact ⟨_, rfl, rfl, rfl⟩
  · exact ⟨_, rfl, rfl, rfl⟩

/-- A trigger that is armed is found, and a replay of it does the same. -/
lemma addTrigger_eq (s : TriggerStore F) (name : String) (condition : TriggerCondition)
    (action : TriggerAction) (deadlineMs : ℤ) (threshold gain : F) (realm : String)
    (session : Option String) (now : ℤ) :
    ∃ t, (s.addTrigger name condition action deadlineMs threshold gain realm session now).1.get
        (s.addTrigger name condition action deadlineMs threshold gain realm session now).2 = some t ∧
      s.replayAdd t =
        (s.addTrigger name condition action deadlineMs threshold gain realm session now).1 := by
  refine ⟨_, Slots.lookup_append_self _, ?_⟩
  simp [TriggerStore.replayAdd, TriggerStore.addTrigger]

/-- A registration and its replay. -/
lemma Follows.register (h : Follows live rep) {c : ℤ × Registration F} (hc : live.Plain codec c) :
    Follows (live.register codec c).1
      ((live.register codec c).2.foldl (fun s o => s.apply codec o.2) rep) := by
  obtain ⟨now, reg⟩ := c
  cases reg with
  | registerTask =>
    refine ⟨?_, h.triggers, h.nextFact, h.factIndex, h.facts, h.nextLineage, h.lineageIndex,
      h.lineages, h.sound⟩
    change rep.tasks.apply (.registerTask _) = _
    rw [h.tasks]
    simp [RecordStores.register, AgentProtocolStore.call, AgentProtocolStore.apply,
      AgentProtocolStore.replayRegisterTask, AgentProtocolStore.registered,
      AgentProtocolStore.above_self]
  | assertConstraint subject predicate object confidence scope branchId provenance memory =>
    obtain ⟨opened, hnext, hindex, hfacts⟩ := assertFact_eq live.constraints
      (live.constraints.assertOp subject predicate object confidence scope branchId provenance memory
        now)
    have hlen := length_of_map_eq h.facts
    refine ⟨h.tasks, h.triggers, ?_, ?_, ?_, h.nextLineage, h.lineageIndex, h.lineages, h.sound⟩
    · refine Eq.trans ?_ hnext.symm
      exact (if_pos h.nextFact.le).trans rfl
    · refine Eq.trans ?_ hindex.symm
      change Slots.indexed rep.constraints.idToIndex rep.constraints.constraints _ = _
      rw [h.factIndex, Slots.indexed, hlen]
      rfl
    · refine Eq.trans ?_ (congrArg (List.map unbranched) hfacts).symm
      change (rep.constraints.constraints ++ [_]).map unbranched = _
      rw [List.map_append, List.map_append, h.facts]
      rfl
  | addTrigger name condition action deadlineMs threshold gain realm session =>
    obtain ⟨t, hget, hreplay⟩ := addTrigger_eq live.triggers name condition action deadlineMs threshold
      gain realm session now
    have htext : codec.text.fromJson (codec.text.toJson t) = some t := hc t hget
    simp only [RecordStores.register, hget, Option.map_some, Option.toList_some, List.foldl_cons,
      List.foldl_nil]
    refine ⟨h.tasks, ?_, h.nextFact, h.factIndex, h.facts, h.nextLineage, h.lineageIndex,
      h.lineages, h.sound⟩
    change (codec.text.fromJson (codec.text.toJson t)).elim rep.triggers rep.triggers.replayAdd = _
    rw [htext, Option.elim_some, h.triggers, hreplay]
  | enrollWisdomLineage e =>
    have hnone : live.lineages.byCandidate e.wisdomCandidateId = none := hc
    have hlen := length_of_map_eq h.lineages
    simp only [RecordStores.register, WisdomLineageStore.enroll, hnone, List.foldl_cons,
      List.foldl_nil]
    have hupsert := h.sound.replayUpsert_next (l := WisdomLineageStore.enrolled
      (e.op live.lineages.nextId now) ((codec.outside.fromJson e.envelopeJson).getD default))
      h.nextLineage.symm
    have hsound : (rep.lineages.apply codec.outside
      (.upsertWisdomLineage (e.op live.lineages.nextId now))).Sound := h.sound.apply _
    refine ⟨h.tasks, h.triggers, h.nextFact, h.factIndex, h.facts, ?_, ?_, ?_, hsound⟩
    · refine (congrArg WisdomLineageStore.nextId hupsert).trans ?_
      exact congrArg (· + 1) h.nextLineage
    · refine (congrArg WisdomLineageStore.idToIndex hupsert).trans ?_
      change Slots.indexed rep.lineages.idToIndex rep.lineages.lineages _ = _
      rw [h.lineageIndex, Slots.indexed, hlen]
      rfl
    · refine (congrArg (fun s => s.lineages.map unversioned) hupsert).trans ?_
      change (rep.lineages.lineages ++ [_]).map unversioned = (live.lineages.lineages ++ [_]).map _
      rw [List.map_append, List.map_append, h.lineages]
      rfl

end Follows

/-! ## Keys -/

section Keys

variable {codec : Codec F} {s : RecordStores F} {c : ℤ × Registration F}

/-- A registration logs operations of its organ only, under keys of it. -/
lemma owner_register {o : RecordKey × Op F} (h : o ∈ (s.register codec c).2) :
    owner o.2 = some c.2.organ ∧ o.1.1 = c.2.organ := by
  obtain ⟨now, reg⟩ := c
  cases reg with
  | registerTask =>
    rw [List.mem_singleton.mp h]
    exact ⟨rfl, rfl⟩
  | assertConstraint =>
    rw [List.mem_singleton.mp h]
    exact ⟨rfl, rfl⟩
  | addTrigger =>
    obtain ⟨t, -, rfl⟩ := Option.map_eq_some_iff.mp (Option.mem_toList.mp h)
    exact ⟨rfl, rfl⟩
  | enrollWisdomLineage e =>
    rw [List.mem_singleton.mp h]
    exact ⟨rfl, rfl⟩

/-- A registration changes the store of its organ only. -/
lemma agree_register_of_ne {name : OrganName} (h : c.2.organ ≠ name) :
    Agree name (s.register codec c).1 s := by
  obtain ⟨now, reg⟩ := c
  cases reg <;> cases name <;> first | rfl | trivial

/-- A registration hides no record. -/
lemma isSome_found_register (hc : s.Plain codec c) {key : RecordKey}
    (h : (s.found key).isSome = true) : ((s.register codec c).1.found key).isSome = true := by
  by_cases horgan : c.2.organ = key.1
  · obtain ⟨name, id⟩ := key
    obtain ⟨now, reg⟩ := c
    obtain rfl : reg.organ = name := horgan
    cases reg with
    | registerTask =>
      unfold RecordStores.found at h ⊢
      dsimp only [Registration.organ] at h ⊢
      rw [Option.isSome_map] at h ⊢
      exact Slots.isSome_lookup_append _ h
    | assertConstraint subject predicate object confidence scope branchId provenance memory =>
      obtain ⟨opened, -, hindex, hfacts⟩ := assertFact_eq s.constraints
        (s.constraints.assertOp subject predicate object confidence scope branchId provenance memory
          now)
      unfold RecordStores.found at h ⊢
      dsimp only [Registration.organ] at h ⊢
      rw [Option.isSome_map, Option.isSome_map] at h ⊢
      unfold ConstraintStore.get
      dsimp only [RecordStores.register, ConstraintStore.call]
      rw [hindex, hfacts]
      exact Slots.isSome_lookup_append _ h
    | addTrigger =>
      unfold RecordStores.found at h ⊢
      dsimp only [Registration.organ] at h ⊢
      rw [Option.isSome_map] at h ⊢
      exact Slots.isSome_lookup_append _ h
    | enrollWisdomLineage e =>
      have hnone : s.lineages.byCandidate e.wisdomCandidateId = none := hc
      unfold RecordStores.found at h ⊢
      dsimp only [Registration.organ] at h ⊢
      rw [Option.isSome_map, Option.isSome_map] at h ⊢
      dsimp only [RecordStores.register]
      rw [WisdomLineageStore.enroll, hnone]
      exact Slots.isSome_lookup_append _ h
  · rw [(agree_register_of_ne horgan).found]
    exact h

/-- The record of a registration is found. -/
lemma isSome_found_key (hc : s.Plain codec c) {o : RecordKey × Op F}
    (h : o ∈ (s.register codec c).2) : ((s.register codec c).1.found o.1).isSome = true := by
  obtain ⟨now, reg⟩ := c
  cases reg with
  | registerTask =>
    rw [List.mem_singleton.mp h]
    unfold RecordStores.found
    dsimp only
    rw [Option.isSome_map]
    exact Option.isSome_iff_exists.mpr ⟨_, Slots.lookup_append_self _⟩
  | assertConstraint subject predicate object confidence scope branchId provenance memory =>
    rw [List.mem_singleton.mp h]
    obtain ⟨opened, -, hindex, hfacts⟩ := assertFact_eq s.constraints
      (s.constraints.assertOp subject predicate object confidence scope branchId provenance memory now)
    unfold RecordStores.found
    dsimp only
    rw [Option.isSome_map, Option.isSome_map]
    unfold ConstraintStore.get
    dsimp only [RecordStores.register, ConstraintStore.call]
    rw [hindex, hfacts]
    exact Option.isSome_iff_exists.mpr ⟨_, Slots.lookup_append_self _⟩
  | addTrigger =>
    obtain ⟨t, hget, rfl⟩ := Option.map_eq_some_iff.mp (Option.mem_toList.mp h)
    unfold RecordStores.found
    dsimp only
    rw [Option.isSome_map]
    exact Option.isSome_iff_exists.mpr ⟨t, hget⟩
  | enrollWisdomLineage e =>
    have hnone : s.lineages.byCandidate e.wisdomCandidateId = none := hc
    rw [List.mem_singleton.mp h]
    unfold RecordStores.found
    dsimp only [RecordStores.register]
    rw [Option.isSome_map, Option.isSome_map, WisdomLineageStore.enroll, hnone]
    exact Option.isSome_iff_exists.mpr ⟨_, Slots.lookup_append_self _⟩

/-- The records of a writer, and what its log has. -/
structure WrittenBy (calls : List (ℤ × Registration F))
    (w : RecordStores F × List (RecordKey × Op F)) : Prop where
  found : ∀ key ∈ w.2.map Prod.fst, (w.1.found key).isSome = true
  logged : ∀ o ∈ w.2, ∃ c ∈ calls, owner o.2 = some c.2.organ ∧ o.1.1 = c.2.organ

lemma isSome_found_written {calls : List (ℤ × Registration F)}
    (hcalls : Replayed.All (register codec) (Plain codec) s calls) {key : RecordKey}
    (h : (s.found key).isSome = true) : ((written codec s calls).1.found key).isSome = true := by
  induction calls generalizing s with
  | nil => exact h
  | cons c calls ih => exact ih hcalls.2 (isSome_found_register hcalls.1 h)

lemma writtenBy {calls : List (ℤ × Registration F)}
    (hcalls : Replayed.All (register codec) (Plain codec) s calls) :
    WrittenBy calls (written codec s calls) := by
  induction calls generalizing s with
  | nil => exact ⟨fun _ h => (nomatch h), fun _ h => (nomatch h)⟩
  | cons c calls ih =>
    have hrest := ih hcalls.2
    constructor
    · intro key hkey
      rw [written, Replayed.run, List.map_append, List.mem_append] at hkey
      rcases hkey with hkey | hkey
      · obtain ⟨o, ho, rfl⟩ := List.mem_map.mp hkey
        exact isSome_found_written hcalls.2 (isSome_found_key hcalls.1 ho)
      · exact hrest.found key hkey
    · intro o ho
      rw [written, Replayed.run, List.mem_append] at ho
      rcases ho with ho | ho
      · exact ⟨c, List.mem_cons_self, owner_register ho⟩
      · obtain ⟨c', hc', hown⟩ := hrest.logged o ho
        exact ⟨c', List.mem_cons_of_mem _ hc', hown⟩

end Keys

/-! ## Two writers -/

omit [F32 F] in
/-- The log of a writer. -/
abbrev logOf (w : RecordStores F × List (RecordKey × Op F)) : List (Op F) := w.2.map Prod.snd

/-- The stores behind a meeting of two writers that started with the same stores: one has applied the
log of the other, or both logs are replayed, in an order that keeps that of each. -/
inductive Meeting (codec : Codec F) (start : RecordStores F)
    (a b : RecordStores F × List (RecordKey × Op F)) : RecordStores F → Prop
  | syncForeign : Meeting codec start a b ((logOf b).foldl (apply codec) a.1)
  | syncForeign' : Meeting codec start a b ((logOf a).foldl (apply codec) b.1)
  | replay (instA instB : InstanceId) (handed : List (InstanceId × ℕ × Op F))
      (hwriters : ∀ o ∈ handed, o.1 = instA ∨ o.1 = instB)
      (ha : (handed.filter (·.1 = instA)).map (·.2.2) = logOf a)
      (hb : (handed.filter (·.1 = instB)).map (·.2.2) = logOf b) :
      Meeting codec start a b ((handed.map (·.2.2)).foldl (apply codec) start)

section Meeting

variable {codec : Codec F} {start s : RecordStores F} {a b : RecordStores F × List (RecordKey × Op F)}
  {calls callsA callsB : List (ℤ × Registration F)}

lemma Meeting.symm (h : Meeting codec start a b s) : Meeting codec start b a s := by
  cases h with
  | syncForeign => exact .syncForeign'
  | syncForeign' => exact .syncForeign
  | replay instA instB handed hwriters ha hb =>
    exact .replay instB instA handed (fun o ho => (hwriters o ho).symm) hb ha

omit [F32 F] in
/-- An update is of the organ of the record. -/
lemma UpdatesOwn.owner {keys : List RecordKey} {op : Op F} (h : UpdatesOwn keys op) :
    ∃ key ∈ keys, ChittaField.owner op = some key.1 := by
  unfold UpdatesOwn at h
  split at h
  case h_3 => exact ⟨_, h.choose_spec, rfl⟩
  case h_10 => exact h.elim
  all_goals exact ⟨_, h, rfl⟩

/-- A writer changes the stores of the organs that it registers with. -/
lemma agree_written_of_ne {name : OrganName} (h : ∀ c ∈ calls, c.2.organ ≠ name) :
    Agree name (written codec s calls).1 s := by
  induction calls generalizing s with
  | nil => exact Agree.refl name s
  | cons c calls ih =>
    exact (ih (List.forall_mem_cons.mp h).2).trans
      (agree_register_of_ne (h c List.mem_cons_self))

/-- A replay of the log of a writer shows its records. -/
lemma found_replay (hstart : start.lineages.Sound)
    (hcalls : Replayed.All (register codec) (Plain codec) start calls) (key : RecordKey) :
    ((logOf (written codec start calls)).foldl (apply codec) start).found key =
      (written codec start calls).1.found key := by
  have hfollows : Follows start start := ⟨rfl, rfl, rfl, rfl, rfl, rfl, rfl, rfl, hstart⟩
  have hrun : Follows (written codec start calls).1
      ((written codec start calls).2.foldl (fun s o => s.apply codec o.2) start) :=
    Replayed.related_run Follows (fun _ _ _ h hc => h.register hc) hfollows hcalls
  rw [logOf, List.foldl_map]
  exact hrun.found key

/-- Where a replay hands on the operations of two writers, an organ that one of them does not use sees
those of the other. -/
lemma agree_replay {name : OrganName} {instA instB : InstanceId}
    {handed : List (InstanceId × ℕ × Op F)} (hwriters : ∀ o ∈ handed, o.1 = instA ∨ o.1 = instB)
    (ha : (handed.filter (·.1 = instA)).map (·.2.2) = logOf a)
    (hb : (handed.filter (·.1 = instB)).map (·.2.2) = logOf b)
    (hnone : ∀ op ∈ logOf b, owner op ≠ some name) :
    Agree name ((handed.map (·.2.2)).foldl (apply codec) start)
      ((logOf a).foldl (apply codec) start) := by
  have hfilter : (handed.map (·.2.2)).filter (fun op => owner op = some name) =
      (logOf a).filter fun op => owner op = some name := by
    rw [← ha, List.filter_map, List.filter_map, List.filter_filter]
    refine congrArg _ (List.filter_congr fun o ho => ?_)
    by_cases hown : owner o.2.2 = some name
    · have hinst : o.1 = instA := by
        refine (hwriters o ho).resolve_right fun hinst => hnone o.2.2 ?_ hown
        rw [← hb]
        exact List.mem_map_of_mem (List.mem_filter.mpr ⟨ho, decide_eq_true hinst⟩)
      simp [hinst]
    · simp [hown]
  have hmerged := agree_foldl_filter codec name (handed.map (·.2.2)) start
  rw [hfilter] at hmerged
  exact hmerged.trans (agree_foldl_filter codec name (logOf a) start).symm

/-- The records of one of two writers that register with different organs. -/
lemma hasApart (hstart : start.lineages.Sound)
    (ha : Replayed.All (register codec) (Plain codec) start callsA)
    (hb : Replayed.All (register codec) (Plain codec) start callsB)
    (hkinds : ∀ c ∈ callsA, ∀ c' ∈ callsB, c.2.organ ≠ c'.2.organ)
    (hs : Meeting codec start (written codec start callsA) (written codec start callsB) s) :
    HasApart codec s (written codec start callsA) (written codec start callsB) := by
  have hwa := writtenBy ha
  have hwb := writtenBy hb
  -- the organ of a key of the one writer is used by no call of the other
  have hother : ∀ key ∈ (written codec start callsA).2.map Prod.fst,
      ∀ c' ∈ callsB, c'.2.organ ≠ key.1 := by
    intro key hkey c' hc'
    obtain ⟨o, ho, rfl⟩ := List.mem_map.mp hkey
    obtain ⟨c, hc, -, hkind⟩ := hwa.logged o ho
    rw [hkind]
    exact (hkinds c hc c' hc').symm
  constructor
  · intro key hkey
    have hnone : ∀ op ∈ logOf (written codec start callsB), owner op ≠ some key.1 := by
      intro op hop
      obtain ⟨o, ho, rfl⟩ := List.mem_map.mp hop
      obtain ⟨c', hc', howner, -⟩ := hwb.logged o ho
      rw [howner]
      exact fun h => hother key hkey c' hc' (Option.some.inj h)
    have hsame : s.found key = (written codec start callsA).1.found key := by
      cases hs with
      | syncForeign => exact (agree_foldl_of_ne hnone).found
      | syncForeign' =>
        have hb : Agree key.1 (written codec start callsB).1 start :=
          agree_written_of_ne (hother key hkey)
        exact (hb.foldl _).found.trans (found_replay hstart ha key)
      | replay instA instB handed hwriters hlogA hlogB =>
        exact (agree_replay hwriters hlogA hlogB hnone).found.trans (found_replay hstart ha key)
    exact ⟨hsame ▸ hwa.found key hkey, hsame⟩
  · intro ops hops key hkey
    refine (agree_foldl_of_ne fun op hop howner => ?_).found
    obtain ⟨key', hkey', howner'⟩ := (hops op hop).owner
    obtain ⟨o, ho, rfl⟩ := List.mem_map.mp hkey'
    obtain ⟨c', hc', -, hkind⟩ := hwb.logged o ho
    refine hother key hkey c' hc' ?_
    rw [← hkind]
    exact Option.some.inj (howner'.symm.trans howner)

end Meeting

/-- Two instances that have read the same history and register records of different kinds find all of
them when they meet, and neither touches a record of the other. -/
theorem records_apart (codec : Codec F) (history : List (Op F))
    {callsA callsB : List (ℤ × Registration F)}
    (ha : Replayed.All (register codec) (Plain codec) (history.foldl (apply codec) new) callsA)
    (hb : Replayed.All (register codec) (Plain codec) (history.foldl (apply codec) new) callsB)
    (hkinds : ∀ c ∈ callsA, ∀ c' ∈ callsB, c.2.organ ≠ c'.2.organ) :
    let start := history.foldl (apply codec) new
    let a := written codec start callsA
    let b := written codec start callsB
    ∀ s, Meeting codec start a b s → HasApart codec s a b ∧ HasApart codec s b a := by
  intro start a b s hs
  have hstart : start.lineages.Sound :=
    List.foldlRecOn (motive := fun s : RecordStores F => s.lineages.Sound) history (apply codec)
      WisdomLineageStore.sound_new fun _ h op _ => h.apply op
  exact ⟨hasApart hstart ha hb hkinds hs,
    hasApart hstart hb ha (fun c hc c' hc' => (hkinds c' hc' c hc).symm) hs.symm⟩

/-! ## Records that collide -/

/-- Numbers that do not round, one text for every trigger, and no envelopes. -/
def sampleCodec : Codec ℚ where
  text := ⟨fun _ => [], fun _ => none⟩
  outside := WisdomLineageStore.sampleOutside

/-- Register a task. -/
def sampleRegistration (goal : String) : ℤ × Registration ℚ :=
  (5, .registerTask goal [] [] "realm" "session" 1 none none [])

/-- Two instances register a task each, and both get the same id.  The one that applies the log of the
other finds the task of the other under it; completing its own task completes that one. -/
theorem records_collide :
    let a := written sampleCodec new [sampleRegistration "mine"]
    let b := written sampleCodec new [sampleRegistration "theirs"]
    let s := (logOf b).foldl (apply sampleCodec) a.1
    let seen (s : RecordStores ℚ) := (s.tasks.getTask 1).map fun t => (t.goal, t.status)
    a.2.map Prod.fst = [(.agentProtocol, 1)] ∧ b.2.map Prod.fst = [(.agentProtocol, 1)] ∧
      seen a.1 = some ("mine", .active) ∧ seen s = some ("theirs", .active) ∧
      UpdatesOwn (a.2.map Prod.fst) (.updateTask ⟨1, 2, none, none, 6⟩ : Op ℚ) ∧
      seen (s.apply sampleCodec (.updateTask ⟨1, 2, none, none, 6⟩)) =
        some ("theirs", .completed) := by
  refine ⟨rfl, rfl, rfl, rfl, List.mem_singleton.mpr rfl, rfl⟩

/-- Enroll a candidate. -/
def sampleEnrolment : ℤ × Registration ℚ :=
  (7, .enrollWisdomLineage ⟨5, "claim", "", [], [], [], [], none, none⟩)

/-- One instance registers tasks and the other a lineage. -/
theorem records_apart_sample :
    let a := written sampleCodec new [sampleRegistration "one", sampleRegistration "two"]
    let b := written sampleCodec new [sampleEnrolment]
    let s := (logOf b).foldl (apply sampleCodec) a.1
    HasApart sampleCodec s a b ∧ HasApart sampleCodec s b a := by
  have ha : Replayed.All (register sampleCodec) (Plain sampleCodec) new
      [sampleRegistration "one", sampleRegistration "two"] := ⟨trivial, trivial, trivial⟩
  have hb : Replayed.All (register sampleCodec) (Plain sampleCodec) new [sampleEnrolment] :=
    ⟨rfl, trivial⟩
  exact records_apart sampleCodec [] ha hb (by decide) _ .syncForeign

end RecordStores

end ChittaField
