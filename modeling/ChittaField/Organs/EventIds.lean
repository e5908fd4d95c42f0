import ChittaField.Organs.Sessions

/-!
# Ids of events

Every event takes its id from a counter of the process, which starts at one whenever the store is
opened.  The registry of messages also holds the events of the snapshot, those that were replayed
and those of peers, with the ids that other counters gave them.

The ids identify the events that the registry holds, and those it would hold behind a restart, as
long as no id is handed out that an event loaded or ingested since the last open carries, and as
the events of peers bring no id twice and none that is taken.
-/

namespace ChittaField

/-! ## Events and their ids -/

/-- Of events with one id there is one. -/
def Identified (events : List MsgEvent) : Prop :=
  ∀ e ∈ events, ∀ e' ∈ events, e.eventId = e'.eventId → e = e'

/-- Events of the first list and events of the second do not share an id, unless they are the same. -/
def Compatible (events others : List MsgEvent) : Prop :=
  ∀ e ∈ events, ∀ e' ∈ others, e.eventId = e'.eventId → e = e'

instance (events : List MsgEvent) : Decidable (Identified events) :=
  inferInstanceAs (Decidable (∀ e ∈ events, ∀ e' ∈ events, e.eventId = e'.eventId → e = e'))

instance (events others : List MsgEvent) : Decidable (Compatible events others) :=
  inferInstanceAs (Decidable (∀ e ∈ events, ∀ e' ∈ others, e.eventId = e'.eventId → e = e'))

lemma Identified.subset {events more : List MsgEvent} (h : Identified more)
    (hsub : events ⊆ more) : Identified events :=
  fun e he e' he' hid => h e (hsub he) e' (hsub he') hid

lemma identified_singleton (e : MsgEvent) : Identified [e] := by
  intro a ha b hb _
  rw [List.mem_singleton.mp ha, List.mem_singleton.mp hb]

lemma identified_append {events more : List MsgEvent} :
    Identified (events ++ more) ↔ Identified events ∧ Identified more ∧ Compatible events more := by
  constructor
  · intro h
    refine ⟨h.subset (List.subset_append_left ..), h.subset (List.subset_append_right ..), ?_⟩
    intro e he e' he' hid
    exact h e (List.mem_append_left _ he) e' (List.mem_append_right _ he') hid
  · rintro ⟨hevents, hmore, hboth⟩ e he e' he' hid
    rcases List.mem_append.mp he with he | he <;> rcases List.mem_append.mp he' with he' | he'
    · exact hevents e he e' he' hid
    · exact hboth e he e' he' hid
    · exact (hboth e' he' e he hid.symm).symm
    · exact hmore e he e' he' hid

/-- The event with an id: the targets are walked in some order, the events of each as they came. -/
def getEventById (order : TargetOrder) (m : MsgRegistry) (eventId : ℕ) : Option MsgEvent :=
  ((order.walk m).flatMap fun t => m.filter (·.target = t)).find? (·.eventId = eventId)

/-- The walk meets all events. -/
lemma mem_walk_events (order : TargetOrder) (m : MsgRegistry) (e : MsgEvent) :
    e ∈ ((order.walk m).flatMap fun t => m.filter (·.target = t)) ↔ e ∈ m := by
  simp only [List.mem_flatMap, List.mem_filter, decide_eq_true_eq]
  constructor
  · rintro ⟨t, -, he, -⟩
    exact he
  · intro he
    exact ⟨e.target, (order.mem_walk m _).mpr ⟨e, he, rfl⟩, he, rfl⟩

/-- Ids identify events iff looking one up by its id finds it. -/
theorem identified_iff_getEventById (order : TargetOrder) (m : MsgRegistry) :
    Identified m ↔ ∀ e ∈ m, getEventById order m e.eventId = some e := by
  constructor
  · intro h e he
    have hsome : (getEventById order m e.eventId).isSome := by
      rw [getEventById, List.find?_isSome]
      exact ⟨e, (mem_walk_events order m e).mpr he, by simp⟩
    obtain ⟨found, hfound⟩ := Option.isSome_iff_exists.mp hsome
    have hmem := (mem_walk_events order m found).mp (List.mem_of_find?_eq_some hfound)
    have hid : found.eventId = e.eventId := by
      simpa using List.find?_some hfound
    rw [hfound, h found hmem e he hid]
  · intro h e he e' he' hid
    have hsame := h e he
    rw [hid, h e' he'] at hsame
    exact (Option.some.inj hsame).symm

/-! ## The store -/

/-- The counter, the registry of messages, the events of the snapshot and those that were logged
since; beside them the events that came to the registry since the last open without an id from the
counter. -/
structure IdStore where
  nextId : ℕ
  messages : MsgRegistry
  snapshot : List MsgEvent
  tail : List MsgEvent
  others : List MsgEvent

/-- The call, with the id that the counter hands out. -/
def SessionCall.withId (eventId : ℕ) : SessionCall → SessionCall
  | .register _ sessionId kind realm nowMs => .register eventId sessionId kind realm nowMs
  | .heartbeat _ sessionId nowMs => .heartbeat eventId sessionId nowMs
  | .deregister _ sessionId nowMs => .deregister eventId sessionId nowMs
  | .emitEvent _ domain kind entityId payload realm tsMs =>
    .emitEvent eventId domain kind entityId payload realm tsMs

/-- Only what is emitted is kept as a message right away. -/
def SessionCall.mirrored : SessionCall → Bool
  | .emitEvent .. => true
  | .register .. | .heartbeat .. | .deregister .. => false

/-- What happens to the store. -/
inductive IdStep where
  /-- A call; whether its operation was appended. -/
  | call (c : SessionCall) (appended : Bool)
  /-- A call whose event is of no interest to the registry. -/
  | otherEvent
  | saveFullSnapshot (order : TargetOrder)
  /-- Ingest operations that peers have logged. -/
  | syncForeign (ops : List SessionLogOp)
  /-- Close and open, with the operations that peers have logged meanwhile. -/
  | reopen (ops : List SessionLogOp)

namespace IdStore

/-- The counter starts at one. -/
def new : IdStore := ⟨1, [], [], [], []⟩

/-- The event of a call: the one the counter's id is handed out for. -/
def event (s : IdStore) (c : SessionCall) : Option MsgEvent :=
  (c.withId s.nextId).op.map (·.message)

/-- The events that an open would load. -/
def loaded (s : IdStore) : List MsgEvent := s.snapshot ++ s.tail

/-- One step. -/
def live (s : IdStore) : IdStep → IdStore × List Unit
  | .call c appended =>
    let s' := { s with nextId := s.nextId + 1 }
    match s.event c, appended with
    | some e, true =>
      ({ s' with
        messages := if c.mirrored then s.messages ++ [e] else s.messages
        tail := s.tail ++ [e] }, [])
    | _, _ => (s', [])
  | .otherEvent => ({ s with nextId := s.nextId + 1 }, [])
  | .saveFullSnapshot order =>
    ({ s with snapshot := ledgerSessionEvents order s.messages, tail := [] }, [])
  | .syncForeign ops =>
    ({ s with
      messages := s.messages ++ ops.map (·.message)
      tail := s.tail ++ ops.map (·.message)
      others := s.others ++ ops.map (·.message) }, [])
  | .reopen ops =>
    let messages := s.loaded ++ ops.map (·.message)
    ({ s with nextId := 1, messages, tail := s.tail ++ ops.map (·.message), others := messages }, [])

/-- Ids identify events: those of the registry, whichever way it is walked, and those that an open
would load into it. -/
structure IdsIdentify (s : IdStore) : Prop where
  held : Identified s.messages
  looked_up : ∀ (order : TargetOrder), ∀ e ∈ s.messages,
    getEventById order s.messages e.eventId = some e
  loads : Identified s.loaded

/-- A step brings no id that is taken. -/
def StepFresh (s : IdStore) : IdStep → Prop
  | .call c appended =>
    match s.event c, appended with
    | some e, true =>
      (c.mirrored → Compatible (s.others.filter (· ∈ s.messages)) [e]) ∧
        Compatible (s.others.filter (· ∈ s.loaded)) [e]
    | _, _ => True
  | .otherEvent | .saveFullSnapshot _ => True
  | .syncForeign ops =>
    Identified (ops.map (·.message)) ∧ Compatible s.messages (ops.map (·.message)) ∧
      Compatible s.loaded (ops.map (·.message))
  | .reopen ops =>
    Identified (ops.map (·.message)) ∧ Compatible s.loaded (ops.map (·.message))

/-! ## Own ids -/

/-- Every event that is held or would be loaded came from elsewhere, or has an id that the counter
has passed. -/
structure Passed (s : IdStore) : Prop where
  held : ∀ e ∈ s.messages, e ∈ s.others ∨ e.eventId < s.nextId
  loads : ∀ e ∈ s.loaded, e ∈ s.others ∨ e.eventId < s.nextId

lemma passed_new : new.Passed := ⟨by simp [new], by simp [new, loaded]⟩

variable {s : IdStore}

/-- The event of a call has the id that is handed out. -/
lemma eventId_of_event {c : SessionCall} {e : MsgEvent} (h : s.event c = some e) :
    e.eventId = s.nextId := by
  obtain ⟨op, hop, rfl⟩ := Option.map_eq_some_iff.mp h
  cases c with
  | register | heartbeat | deregister =>
    obtain rfl := Option.some.inj hop
    rfl
  | emitEvent =>
    simp only [SessionCall.withId, SessionCall.op] at hop
    split_ifs at hop <;> obtain rfl := Option.some.inj hop <;> rfl

/-- A checkpoint takes events that are held. -/
lemma ledgerSessionEvents_subset (order : TargetOrder) (m : MsgRegistry) :
    ledgerSessionEvents order m ⊆ m := by
  intro e he
  obtain ⟨t, -, he⟩ := List.mem_flatMap.mp ((List.perm_insertionSort _ _).mem_iff.mp he)
  refine List.mem_of_mem_filter (p := (·.target = t)) ?_
  rcases List.mem_append.mp he with he | he
  · exact List.mem_of_mem_filter he
  · split_ifs at he
    · exact absurd he List.not_mem_nil
    · obtain ⟨kind, -, hlatest⟩ := List.mem_filterMap.mp he
      exact List.mem_of_mem_filter (List.mem_of_mem_filter (latest_mem hlatest))

/-- What one step makes of a store that a call left. -/
lemma live_call (s : IdStore) (c : SessionCall) (appended : Bool) :
    (∃ e, s.event c = some e ∧ appended = true ∧
        (s.live (.call c appended)).1 =
          { s with
            nextId := s.nextId + 1
            messages := if c.mirrored then s.messages ++ [e] else s.messages
            tail := s.tail ++ [e] } ∧
        (s.StepFresh (.call c appended) ↔
          (c.mirrored → Compatible (s.others.filter (· ∈ s.messages)) [e]) ∧
            Compatible (s.others.filter (· ∈ s.loaded)) [e])) ∨
      (s.live (.call c appended)).1 = { s with nextId := s.nextId + 1 } ∧
        s.StepFresh (.call c appended) := by
  cases he : s.event c with
  | none => exact Or.inr ⟨by simp [live, he], by simp [StepFresh, he]⟩
  | some e =>
    cases appended with
    | false => exact Or.inr ⟨by simp [live, he], by simp [StepFresh, he]⟩
    | true => exact Or.inl ⟨e, rfl, rfl, by simp [live, he], by simp [StepFresh, he]⟩

lemma loaded_syncForeign (s : IdStore) (ops : List SessionLogOp) :
    (s.live (.syncForeign ops)).1.loaded = s.loaded ++ ops.map (·.message) :=
  (List.append_assoc ..).symm

lemma loaded_reopen (s : IdStore) (ops : List SessionLogOp) :
    (s.live (.reopen ops)).1.loaded = s.loaded ++ ops.map (·.message) :=
  (List.append_assoc ..).symm

/-- Counting on keeps the ids passed. -/
lemma Passed.count (h : s.Passed) : ({ s with nextId := s.nextId + 1 } : IdStore).Passed :=
  ⟨fun e he => (h.held e he).imp_right Nat.lt_succ_of_lt,
    fun e he => (h.loads e he).imp_right Nat.lt_succ_of_lt⟩

lemma passed_live (h : s.Passed) (step : IdStep) : (s.live step).1.Passed := by
  cases step with
  | call c appended =>
    rcases s.live_call c appended with ⟨e, he, -, hlive, -⟩ | ⟨hlive, -⟩
    · rw [hlive]
      have hnew : ∀ e' ∈ [e], e' ∈ s.others ∨ e'.eventId < s.nextId + 1 := by
        intro e' he'
        rw [List.mem_singleton.mp he', eventId_of_event he]
        exact Or.inr (Nat.lt_succ_self _)
      refine ⟨?_, ?_⟩
      · dsimp only
        split_ifs
        · exact List.forall_mem_append.mpr ⟨h.count.held, hnew⟩
        · exact h.count.held
      · rw [loaded, ← List.append_assoc]
        exact List.forall_mem_append.mpr ⟨h.count.loads, hnew⟩
    · rw [hlive]
      exact h.count
  | otherEvent => exact h.count
  | saveFullSnapshot order =>
    refine ⟨h.held, fun e he => h.held e ?_⟩
    change e ∈ ledgerSessionEvents order s.messages ++ [] at he
    rw [List.append_nil] at he
    exact ledgerSessionEvents_subset order s.messages he
  | syncForeign ops =>
    refine ⟨fun e he => ?_, fun e he => ?_⟩
    · rcases List.mem_append.mp he with he | he
      · exact (h.held e he).imp_left (List.mem_append_left _)
      · exact Or.inl (List.mem_append_right _ he)
    · rw [loaded_syncForeign] at he
      rcases List.mem_append.mp he with he | he
      · exact (h.loads e he).imp_left (List.mem_append_left _)
      · exact Or.inl (List.mem_append_right _ he)
  | reopen ops =>
    refine ⟨fun e he => Or.inl he, fun e he => Or.inl ?_⟩
    rw [loaded_reopen] at he
    exact he

/-- The counter's next id is that of no own event, so it is taken only if another event has it. -/
lemma compatible_filter {events others : List MsgEvent} {e : MsgEvent}
    (h : ∀ a ∈ events, a ∈ others ∨ a.eventId < e.eventId) :
    Compatible (others.filter (· ∈ events)) [e] ↔ Compatible events [e] := by
  constructor
  · intro hothers a ha b hb hid
    rcases h a ha with hother | hlt
    · exact hothers a (List.mem_filter.mpr ⟨hother, decide_eq_true ha⟩) b hb hid
    · rw [List.mem_singleton.mp hb] at hid
      omega
  · intro hevents a ha
    exact hevents a (of_decide_eq_true (List.mem_filter.mp ha).2)

/-! ## Steps and runs -/

/-- The lookups follow from the ids. -/
lemma idsIdentify_iff :
    s.IdsIdentify ↔ Identified s.messages ∧ Identified s.loaded :=
  ⟨fun h => ⟨h.held, h.loads⟩,
    fun h => ⟨h.1, fun order => (identified_iff_getEventById order _).mp h.1, h.2⟩⟩

lemma idsIdentify_new : new.IdsIdentify :=
  idsIdentify_iff.mpr ⟨List.forall_mem_nil _, List.forall_mem_nil _⟩

/-- Adding an event to events that are identified. -/
lemma identified_concat {events : List MsgEvent} (h : Identified events) (e : MsgEvent) :
    Identified (events ++ [e]) ↔ Compatible events [e] := by
  rw [identified_append]
  exact ⟨fun hall => hall.2.2, fun hboth => ⟨h, identified_singleton e, hboth⟩⟩

lemma idsIdentify_live (hpassed : s.Passed) (h : s.IdsIdentify) (step : IdStep) :
    (s.live step).1.IdsIdentify ↔ s.StepFresh step := by
  obtain ⟨hheld, hloads⟩ := idsIdentify_iff.mp h
  cases step with
  | call c appended =>
    rcases s.live_call c appended with ⟨e, he, -, hlive, hfresh⟩ | ⟨hlive, hfresh⟩
    · have hid := eventId_of_event he
      have hloaded : Compatible (s.others.filter (· ∈ s.loaded)) [e] ↔
          Identified (s.loaded ++ [e]) :=
        (compatible_filter (hid ▸ hpassed.loads)).trans (identified_concat hloads e).symm
      have hmessages : Compatible (s.others.filter (· ∈ s.messages)) [e] ↔
          Identified (s.messages ++ [e]) :=
        (compatible_filter (hid ▸ hpassed.held)).trans (identified_concat hheld e).symm
      rw [hlive, hfresh, idsIdentify_iff, hloaded, hmessages, loaded, loaded, List.append_assoc]
      refine and_congr_left fun _ => ?_
      cases c.mirrored with
      | true => simp
      | false => simp [hheld]
    · rw [hlive]
      exact ⟨fun _ => hfresh, fun _ => idsIdentify_iff.mpr ⟨hheld, hloads⟩⟩
  | otherEvent => exact ⟨fun _ => trivial, fun _ => idsIdentify_iff.mpr ⟨hheld, hloads⟩⟩
  | saveFullSnapshot order =>
    refine ⟨fun _ => trivial, fun _ => idsIdentify_iff.mpr ⟨hheld, hheld.subset ?_⟩⟩
    change ledgerSessionEvents order s.messages ++ [] ⊆ s.messages
    rw [List.append_nil]
    exact ledgerSessionEvents_subset order s.messages
  | syncForeign ops =>
    rw [idsIdentify_iff, loaded_syncForeign, identified_append]
    change Identified (s.messages ++ ops.map (·.message)) ∧ _ ↔ _
    rw [identified_append]
    exact ⟨fun hall => ⟨hall.1.2.1, hall.1.2.2, hall.2.2.2⟩,
      fun hall => ⟨⟨hheld, hall.1, hall.2.1⟩, hloads, hall.1, hall.2.2⟩⟩
  | reopen ops =>
    rw [idsIdentify_iff, loaded_reopen]
    change Identified (s.loaded ++ ops.map (·.message)) ∧ _ ↔ _
    rw [and_self, identified_append]
    exact ⟨fun hall => ⟨hall.2.1, hall.2.2⟩, fun hall => ⟨hloads, hall.1, hall.2⟩⟩

/-- Along any run of calls, checkpoints, ingestions and restarts, ids identify the events that the
registry holds, and those it would hold behind an open, iff no step brings an id that is taken: a
call is not handed the id of an event that was loaded at the last open or ingested since, and peers
bring no id twice and none that is held or would be loaded. -/
theorem ids_identify_iff (steps : List IdStep) :
    Replayed.All live (fun s step => (s.live step).1.IdsIdentify) new steps ↔
      Replayed.All live StepFresh new steps :=
  Replayed.all_iff Passed IdsIdentify (fun _ step h => passed_live h step)
    (fun _ step hpassed h => idsIdentify_live hpassed h step) passed_new idsIdentify_new

/-- Two messages, the second one behind a restart: both are handed the id one. -/
theorem id_is_handed_out_twice :
    let send (payload : Bytes) : IdStep :=
      .call (.emitEvent 0 "msg" "send" "s" payload "" 0) true
    let s := (Replayed.run live new [send [0x61], .reopen [], send [0x62]]).1
    ¬s.IdsIdentify ∧ s.messages.map (·.eventId) = [1, 1] ∧
      s.messages.map (·.payloadJson) = ["a", "b"] := by
  intro send s
  have hids : s.messages.map (·.eventId) = [1, 1] := by decide +kernel
  have hpayloads : s.messages.map (·.payloadJson) = ["a", "b"] := by decide +kernel
  refine ⟨fun h => ?_, hids, hpayloads⟩
  have hheld : Identified s.messages := h.held
  revert hheld
  decide +kernel

end IdStore

end ChittaField
