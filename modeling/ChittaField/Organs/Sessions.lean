import Mathlib.Data.String.Basic
import ChittaField.Lib.Lists
import ChittaField.Lib.Replayed
import ChittaField.Memory.Indexes
import ChittaField.Store.KeyText

/-!
# Sessions

Sessions register, send heartbeats and deregister.  Every such event is logged and told to the
registry of sessions.  Events that are emitted, and all events of a replay, are also kept by the
registry of messages; it is from these that a checkpoint takes the sessions.

A checkpoint does not take all events: a session that was deregistered has none, others have their
latest registration and their latest heartbeat.  `sessions_survive` says when the sessions are the
same behind a restart: no checkpoint is taken while the registry of messages lacks an event, or has
a registration behind a deregistration of the same session, or has events of one session whose times
go back; and the kind of a session reads the same when it comes back from JSON.
-/

namespace ChittaField

/-! ## The registry of sessions -/

/-- What has become of a session. -/
inductive SessionStatus where
  | active
  | closed
  deriving DecidableEq

/-- A session. -/
structure SessionRecord where
  sessionId : String
  kind : String
  realm : String
  startedAtMs : ℤ
  lastHeartbeatMs : ℤ
  status : SessionStatus
  deriving DecidableEq

/-- The sessions by their ids. -/
abbrev SessionRegistry := String → Option SessionRecord

namespace SessionRegistry

def register (r : SessionRegistry) (sessionId kind realm : String) (nowMs : ℤ) : SessionRegistry :=
  Function.update r sessionId (some ⟨sessionId, kind, realm, nowMs, nowMs, .active⟩)

def heartbeat (r : SessionRegistry) (sessionId : String) (nowMs : ℤ) : SessionRegistry :=
  Maps.modifyAt r sessionId fun s => { s with lastHeartbeatMs := nowMs }

def deregister (r : SessionRegistry) (sessionId : String) : SessionRegistry :=
  Maps.modifyAt r sessionId fun s => { s with status := .closed }

/-- The active sessions. -/
def listActive (r : SessionRegistry) : SessionRegistry :=
  fun sessionId => (r sessionId).filter (·.status = .active)

/-- Tell of an event.  The kind of the session is that of a registration. -/
def tell (r : SessionRegistry) (eventKind sessionId kind realm : String) (tsMs : ℤ) :
    SessionRegistry :=
  if eventKind = "register" then r.register sessionId kind realm tsMs
  else if eventKind = "heartbeat" then r.heartbeat sessionId tsMs
  else if eventKind = "deregister" then r.deregister sessionId
  else r

end SessionRegistry

/-! ## The registry of messages -/

/-- An event that is kept. -/
structure MsgEvent where
  eventId : ℕ
  domain : String
  kind : String
  target : String
  payloadJson : String
  realm : String
  tsMs : ℤ
  deriving DecidableEq

/-- The events in the order in which they came; those of a target are in the same order. -/
abbrev MsgRegistry := List MsgEvent

/-- The order in which the targets of events are walked. -/
structure TargetOrder where
  walk : MsgRegistry → List String
  nodup : ∀ m, (walk m).Nodup
  mem_walk : ∀ m t, t ∈ walk m ↔ ∃ e ∈ m, e.target = t

/-- The event with the latest time; of several the last one. -/
def latest (events : List MsgEvent) : Option MsgEvent :=
  events.foldl (fun best e =>
    match best with
    | none => some e
    | some b => if b.tsMs ≤ e.tsMs then some e else some b) none

/-- The events of a target that a checkpoint takes. -/
def checkpointed (events : List MsgEvent) : List MsgEvent :=
  let session := events.filter (·.domain = "session")
  events.filter (fun e => e.domain = "ledger" ∧ e.kind = "task_records") ++
    if session = [] ∨ session.any (·.kind = "deregister") then []
    else ["register", "heartbeat"].filterMap fun kind => latest (session.filter (·.kind = kind))

/-- The events that a checkpoint takes. -/
def ledgerSessionEvents (order : TargetOrder) (m : MsgRegistry) : List MsgEvent :=
  ((order.walk m).flatMap fun t => checkpointed (m.filter (·.target = t))).insertionSort
    (·.tsMs ≤ ·.tsMs)

/-! ## Checkpoint, restart and replay -/

/-- The JSON library, as far as it is used: the string under `kind` of a text. -/
structure KindReader where
  kindOf : String → Option String
  kindOf_empty : kindOf "" = none

/-- The kind of a session that a text gives. -/
def KindReader.sessionKind (json : KindReader) (text : String) : String :=
  (json.kindOf text).getD ""

/-- The kind of a session that bytes give; they have to be text. -/
def KindReader.sessionKindOfSlice (json : KindReader) (payload : Bytes) : String :=
  ((String.fromUTF8? ⟨payload.toArray⟩).bind json.kindOf).getD ""

/-- An operation that one of the registries is told of. -/
inductive SessionLogOp where
  | session (o : SessionEventOp)
  | msg (o : MsgEventOp)

/-- The event that the registry of messages keeps. -/
def SessionLogOp.message : SessionLogOp → MsgEvent
  | .session o =>
    ⟨o.eventId, "session", o.kind, o.sessionId, decodeText o.payloadJson, o.realm, o.tsMs⟩
  | .msg o => ⟨o.eventId, o.domain, o.kind, o.target, decodeText o.payloadJson, o.realm, o.tsMs⟩

variable (json : KindReader)

/-- Apply a logged operation. -/
def applySessionOp (s : SessionRegistry × MsgRegistry) (op : SessionLogOp) :
    SessionRegistry × MsgRegistry :=
  (match op with
    | .session o =>
      s.1.tell o.kind o.sessionId (json.sessionKindOfSlice o.payloadJson) o.realm o.tsMs
    | .msg _ => s.1,
    s.2 ++ [op.message])

/-- Load an event of a snapshot. -/
def loadSessionEvent (s : SessionRegistry × MsgRegistry) (ev : MsgEvent) :
    SessionRegistry × MsgRegistry :=
  (if ev.domain = "session" then
    s.1.tell ev.kind ev.target (json.sessionKind ev.payloadJson) ev.realm ev.tsMs
  else s.1, s.2 ++ [ev])

/-- The registries, the events in the snapshot, and the operations that were logged since the last
checkpoint, each with whether the registry of messages has it. -/
structure SessionStore where
  sessions : SessionRegistry
  messages : MsgRegistry
  snapshot : List MsgEvent
  tail : List (SessionLogOp × Bool)

namespace SessionStore

/-- No sessions, and no snapshot. -/
def new : SessionStore := ⟨fun _ => none, [], [], []⟩

/-- Take a checkpoint: it covers all that was logged. -/
def saveFullSnapshot (order : TargetOrder) (s : SessionStore) : SessionStore :=
  { s with snapshot := ledgerSessionEvents order s.messages, tail := [] }

/-- Restart: load the snapshot, and replay what was logged since. -/
def reopen (s : SessionStore) : SessionStore :=
  let loaded := s.snapshot.foldl (loadSessionEvent json) (fun _ => none, [])
  let replayed := (s.tail.map Prod.fst).foldl (applySessionOp json) loaded
  { s with
    sessions := replayed.1
    messages := replayed.2
    tail := s.tail.map fun p => (p.1, true) }

end SessionStore

/-! ## Calls -/

/-- A call of the C interface, with the id that the event is given.  An emitted event has the time
of the clock. -/
inductive SessionCall where
  | register (eventId : ℕ) (sessionId kind realm : String) (nowMs : ℤ)
  | heartbeat (eventId : ℕ) (sessionId : String) (nowMs : ℤ)
  | deregister (eventId : ℕ) (sessionId : String) (nowMs : ℤ)
  | emitEvent (eventId : ℕ) (domain kind entityId : String) (payload : Bytes) (realm : String)
    (tsMs : ℤ)

/-- The payload of a registration: the kind is put between quotes as it is. -/
def registerPayload (kind : String) : Bytes :=
  ("\x7b\"kind\":\"" ++ kind ++ "\"\x7d").toUTF8.data.toList

/-- The operation that a call logs, where it is one that the registries are told of. -/
def SessionCall.op : SessionCall → Option SessionLogOp
  | .register eventId sessionId kind realm nowMs =>
    some (.session ⟨eventId, sessionId, "register", registerPayload kind, realm, nowMs⟩)
  | .heartbeat eventId sessionId nowMs =>
    some (.session ⟨eventId, sessionId, "heartbeat", [], "", nowMs⟩)
  | .deregister eventId sessionId nowMs =>
    some (.session ⟨eventId, sessionId, "deregister", [], "", nowMs⟩)
  | .emitEvent eventId domain kind entityId payload realm tsMs =>
    if domain = "session" then some (.session ⟨eventId, entityId, kind, payload, realm, tsMs⟩)
    else if ["msg", "sadhana", "dream", "ledger"].contains domain then
      some (.msg ⟨eventId, domain, kind, entityId, payload, realm, tsMs⟩)
    else none

/-- What happens to the store. -/
inductive SessionStep where
  | call (c : SessionCall) (append : Except FieldError Unit)
  | saveFullSnapshot (order : TargetOrder)
  | reopen

namespace SessionStore

/-- Note an operation as logged. -/
def log (s : SessionStore) (op : SessionLogOp) (mirrored : Bool) : SessionStore :=
  { s with tail := s.tail ++ [(op, mirrored)] }

/-- What a call does behind its append.  Only what is emitted is kept as a message. -/
def answer (s : SessionStore) (op : SessionLogOp) : SessionCall → SessionStore
  | .register _ sessionId kind realm nowMs =>
    { s.log op false with sessions := s.sessions.register sessionId kind realm nowMs }
  | .heartbeat _ sessionId nowMs =>
    { s.log op false with sessions := s.sessions.heartbeat sessionId nowMs }
  | .deregister _ sessionId _ => { s.log op false with sessions := s.sessions.deregister sessionId }
  | .emitEvent _ domain kind entityId payload realm tsMs =>
    { s.log op true with
      sessions :=
        if domain = "session" then
          s.sessions.tell kind entityId (json.sessionKind (decodeText payload)) realm tsMs
        else s.sessions
      messages := s.messages ++ [op.message] }

/-- One step; the operations that it logs. -/
def live (s : SessionStore) : SessionStep → SessionStore × List SessionLogOp
  | .call c append =>
    match c.op, append with
    | some op, .ok _ => (s.answer json op c, [op])
    | _, _ => (s, [])
  | .saveFullSnapshot order => (s.saveFullSnapshot order, [])
  | .reopen => (s.reopen json, [])

end SessionStore

/-! ## One session -/

/-- What an event makes of its session. -/
def SessionRecord.told (r : Option SessionRecord) (eventKind sessionId kind realm : String)
    (tsMs : ℤ) : Option SessionRecord :=
  if eventKind = "register" then some ⟨sessionId, kind, realm, tsMs, tsMs, .active⟩
  else if eventKind = "heartbeat" then r.map fun s => { s with lastHeartbeatMs := tsMs }
  else if eventKind = "deregister" then r.map fun s => { s with status := .closed }
  else r

lemma SessionRegistry.tell_apply (r : SessionRegistry) (eventKind sessionId kind realm : String)
    (tsMs : ℤ) (id : String) : r.tell eventKind sessionId kind realm tsMs id =
      if sessionId = id then SessionRecord.told (r id) eventKind sessionId kind realm tsMs
      else r id := by
  unfold SessionRegistry.tell SessionRecord.told
  by_cases hid : sessionId = id
  · subst hid
    rw [if_pos rfl]
    split_ifs <;> simp [register, heartbeat, deregister]
  · rw [if_neg hid]
    have hne : id ≠ sessionId := Ne.symm hid
    split_ifs <;> simp [register, heartbeat, deregister, hne]

/-- An event is one of a session. -/
def MsgEvent.IsOf (e : MsgEvent) (id : String) : Prop := e.domain = "session" ∧ e.target = id

instance (e : MsgEvent) (id : String) : Decidable (e.IsOf id) :=
  inferInstanceAs (Decidable (_ ∧ _))

/-- What a kept event makes of its session. -/
def KindReader.told (r : Option SessionRecord) (e : MsgEvent) : Option SessionRecord :=
  SessionRecord.told r e.kind e.target (json.sessionKind e.payloadJson) e.realm e.tsMs

/-- What the events that were kept make of a session. -/
def KindReader.recordOf (events : List MsgEvent) (id : String) : Option SessionRecord :=
  (events.filter (·.IsOf id)).foldl json.told none

/-- A session, if it is active. -/
def SessionRecord.active (r : Option SessionRecord) : Option SessionRecord :=
  r.filter (·.status = .active)

variable {json}

/-- Sessions that are the same while active stay so. -/
lemma active_told {a b : Option SessionRecord} (h : SessionRecord.active a = SessionRecord.active b)
    (eventKind sessionId kind realm : String) (tsMs : ℤ) :
    SessionRecord.active (SessionRecord.told a eventKind sessionId kind realm tsMs) =
      SessionRecord.active (SessionRecord.told b eventKind sessionId kind realm tsMs) := by
  have hbeat : ∀ r : Option SessionRecord,
      SessionRecord.active (r.map fun s => { s with lastHeartbeatMs := tsMs }) =
        (SessionRecord.active r).map fun s => { s with lastHeartbeatMs := tsMs } := by
    intro r
    cases r with
    | none => rfl
    | some s => by_cases hs : s.status = .active <;> simp [SessionRecord.active, Option.filter, hs]
  have hclose : ∀ r : Option SessionRecord,
      SessionRecord.active (r.map fun s => { s with status := .closed }) = none := by
    intro r
    cases r <;> simp [SessionRecord.active]
  unfold SessionRecord.told
  split_ifs
  · rfl
  · rw [hbeat, hbeat, h]
  · rw [hclose, hclose]
  · exact h

lemma active_foldl_told (events : List MsgEvent) {a b : Option SessionRecord}
    (h : SessionRecord.active a = SessionRecord.active b) :
    SessionRecord.active (events.foldl json.told a) =
      SessionRecord.active (events.foldl json.told b) := by
  induction events generalizing a b with
  | nil => exact h
  | cons e events ih => exact ih (active_told h ..)

lemma recordOf_append (events more : List MsgEvent) (id : String) :
    json.recordOf (events ++ more) id =
      (more.filter (·.IsOf id)).foldl json.told (json.recordOf events id) := by
  rw [KindReader.recordOf, List.filter_append, List.foldl_append]
  rfl

/-- Bytes that are not text give no kind, as the empty text does. -/
lemma sessionKindOfSlice_eq (payload : Bytes) :
    json.sessionKindOfSlice payload = json.sessionKind (decodeText payload) := by
  unfold KindReader.sessionKindOfSlice KindReader.sessionKind decodeText
  cases String.fromUTF8? ⟨payload.toArray⟩ with
  | none => simp [json.kindOf_empty]
  | some text => rfl

/-- An operation of the registry of messages is not about sessions. -/
def SessionLogOp.Proper : SessionLogOp → Prop
  | .session _ => True
  | .msg o => o.domain ≠ "session"

variable {op : SessionLogOp}

lemma SessionCall.proper {c : SessionCall} (h : c.op = some op) : op.Proper := by
  cases c with
  | register | heartbeat | deregister =>
    obtain rfl := Option.some.inj h
    trivial
  | emitEvent =>
    simp only [SessionCall.op] at h
    split_ifs at h with hsession
    · obtain rfl := Option.some.inj h
      trivial
    · obtain rfl := Option.some.inj h
      exact hsession

/-- An operation is replayed as its event is loaded. -/
lemma applySessionOp_eq (h : op.Proper) (s : SessionRegistry × MsgRegistry) :
    applySessionOp json s op = loadSessionEvent json s op.message := by
  cases op with
  | session o =>
    simp only [applySessionOp, loadSessionEvent, SessionLogOp.message, if_true,
      sessionKindOfSlice_eq]
  | msg o =>
    have hne : ¬o.domain = "session" := h
    simp only [applySessionOp, loadSessionEvent, SessionLogOp.message, hne, if_false]

/-- Loading an event, for one session. -/
lemma loadSessionEvent_apply (s : SessionRegistry × MsgRegistry) (e : MsgEvent) (id : String) :
    (loadSessionEvent json s e).1 id = if e.IsOf id then json.told (s.1 id) e else s.1 id := by
  unfold loadSessionEvent
  by_cases hdomain : e.domain = "session"
  · simp only [hdomain, if_true, SessionRegistry.tell_apply]
    simp only [MsgEvent.IsOf, hdomain, true_and]
    rfl
  · have hof : ¬e.IsOf id := fun h => hdomain h.1
    simp only [hdomain, if_false, if_neg hof]

/-- Loading events, for one session. -/
lemma foldl_loadSessionEvent (events : List MsgEvent) (s : SessionRegistry × MsgRegistry) :
    (∀ id, (events.foldl (loadSessionEvent json) s).1 id =
        (events.filter (·.IsOf id)).foldl json.told (s.1 id)) ∧
      (events.foldl (loadSessionEvent json) s).2 = s.2 ++ events := by
  induction events generalizing s with
  | nil => exact ⟨fun _ => rfl, (List.append_nil _).symm⟩
  | cons e events ih =>
    obtain ⟨hsessions, hmessages⟩ := ih (loadSessionEvent json s e)
    rw [List.foldl_cons]
    refine ⟨fun id => ?_, ?_⟩
    · rw [hsessions, List.filter_cons, loadSessionEvent_apply]
      by_cases hof : e.IsOf id <;> simp [hof]
    · rw [hmessages, loadSessionEvent]
      exact List.append_assoc ..

namespace SessionStore

/-- The events in the snapshot and those of the operations since. -/
def history (s : SessionStore) : List MsgEvent := s.snapshot ++ s.tail.map (·.1.message)

/-- A restart tells the sessions of the history, and keeps it. -/
lemma reopen_eq {s : SessionStore} (h : ∀ p ∈ s.tail, p.1.Proper) :
    (∀ id, (s.reopen json).sessions id = json.recordOf s.history id) ∧
      (s.reopen json).messages = s.history := by
  have hfold : (s.tail.map Prod.fst).foldl (applySessionOp json)
      (s.snapshot.foldl (loadSessionEvent json) (fun _ => none, [])) =
        s.history.foldl (loadSessionEvent json) (fun _ => none, []) := by
    rw [history, List.foldl_append, List.foldl_map, List.foldl_map]
    refine List.foldl_ext _ _ _ fun acc p hp => applySessionOp_eq (h p hp) acc
  have hload := @foldl_loadSessionEvent json s.history (fun _ => none, [])
  refine ⟨fun id => ?_, ?_⟩
  · simp only [reopen, hfold]
    exact hload.1 id
  · simp only [reopen, hfold]
    exact hload.2

end SessionStore

/-! ## What a checkpoint takes -/

/-- Two events of one session, one behind the other: times do not go back, and no registration is
behind a deregistration. -/
def MsgEvent.Follows (a b : MsgEvent) : Prop :=
  a.domain = "session" → b.domain = "session" → a.target = b.target →
    a.tsMs ≤ b.tsMs ∧ (a.kind = "deregister" → b.kind ≠ "register")

instance : DecidableRel MsgEvent.Follows := fun _ _ => inferInstanceAs (Decidable (_ → _ → _ → _))

variable {e : MsgEvent}

lemma latest_mem {events : List MsgEvent} (h : latest events = some e) : e ∈ events := by
  induction events using List.reverseRecOn generalizing e with
  | nil => cases h
  | append_singleton events last ih =>
    rw [latest, List.foldl_append] at h
    change (match latest events with
      | none => some last
      | some b => if b.tsMs ≤ last.tsMs then some last else some b) = some e at h
    cases hb : latest events with
    | none =>
      rw [hb] at h
      exact Option.some.inj h ▸ List.mem_concat_self
    | some b =>
      simp only [hb] at h
      split_ifs at h
      · exact Option.some.inj h ▸ List.mem_concat_self
      · exact Option.some.inj h ▸ List.mem_append_left _ (ih hb)

/-- The last event is the latest, if times do not go back. -/
lemma latest_concat {events : List MsgEvent} (h : ∀ a ∈ events, a.tsMs ≤ e.tsMs) :
    latest (events ++ [e]) = some e := by
  rw [latest, List.foldl_append]
  change (match latest events with
    | none => some e
    | some b => if b.tsMs ≤ e.tsMs then some e else some b) = some e
  cases hb : latest events with
  | none => rfl
  | some b => exact if_pos (h b (latest_mem hb))

/-- The latest event of a kind. -/
def latestOf (kind : String) (session : List MsgEvent) : Option MsgEvent :=
  latest (session.filter (·.kind = kind))

/-- The session of a registration, with the time of the latest heartbeat unless this is earlier. -/
def KindReader.registered (json : KindReader) (register : MsgEvent) (beat : Option MsgEvent) :
    SessionRecord :=
  ⟨register.target, json.sessionKind register.payloadJson, register.realm, register.tsMs,
    max register.tsMs (beat.elim register.tsMs (·.tsMs)), .active⟩

section Compaction

variable {session : List MsgEvent} {id : String}

lemma latestOf_concat_self {kind : String} (hkind : e.kind = kind)
    (h : ∀ a ∈ session, a.tsMs ≤ e.tsMs) : latestOf kind (session ++ [e]) = some e := by
  have hfilter : (session ++ [e]).filter (·.kind = kind) = session.filter (·.kind = kind) ++ [e] := by
    simp [List.filter_append, hkind]
  rw [latestOf, hfilter]
  exact latest_concat fun a ha => h a (List.mem_of_mem_filter ha)

lemma latestOf_concat_of_ne {kind : String} (hkind : e.kind ≠ kind) :
    latestOf kind (session ++ [e]) = latestOf kind session := by
  simp [latestOf, List.filter_append, hkind]

/-- A session whose events are in order, and which was not deregistered, is what its latest
registration and its latest heartbeat make of it. -/
lemma foldl_told_of_open (hts : session.Pairwise fun a b => a.tsMs ≤ b.tsMs)
    (hopen : ∀ e ∈ session, e.kind ≠ "deregister") :
    session.foldl json.told none =
      (latestOf "register" session).map fun g =>
        json.registered g (latestOf "heartbeat" session) := by
  induction session using List.reverseRecOn with
  | nil => rfl
  | append_singleton session e ih =>
    obtain ⟨hts', -, hlast⟩ := List.pairwise_append.mp hts
    have hle : ∀ a ∈ session, a.tsMs ≤ e.tsMs := fun a ha => hlast a ha e (by simp)
    have ih' := ih hts' (List.forall_mem_append.mp hopen).1
    have hde := hopen e List.mem_concat_self
    rw [List.foldl_append, ih']
    simp only [List.foldl_cons, List.foldl_nil, KindReader.told, SessionRecord.told, hde, if_false]
    by_cases hreg : e.kind = "register"
    · have hbeat : e.kind ≠ "heartbeat" := by simp [hreg]
      rw [if_pos hreg, latestOf_concat_self hreg hle, latestOf_concat_of_ne hbeat, Option.map_some,
        KindReader.registered]
      have hmax : max e.tsMs ((latestOf "heartbeat" session).elim e.tsMs (·.tsMs)) = e.tsMs := by
        cases hb : latestOf "heartbeat" session with
        | none => exact max_self _
        | some b => exact max_eq_left (hle b (List.mem_of_mem_filter (latest_mem hb)))
      rw [hmax]
    · rw [if_neg hreg, latestOf_concat_of_ne hreg]
      by_cases hbeat : e.kind = "heartbeat"
      · rw [if_pos hbeat, latestOf_concat_self hbeat hle, Option.map_map]
        refine Option.map_congr fun g hg => ?_
        have hge : g.tsMs ≤ e.tsMs := hle g (List.mem_of_mem_filter (latest_mem hg))
        simp [KindReader.registered, hge]
      · rw [if_neg hbeat, latestOf_concat_of_ne hbeat]

/-- A session that was deregistered, and not registered behind that, is not active. -/
lemma active_of_closed (hclosed : ∃ e ∈ session, e.kind = "deregister")
    (hlast : session.Pairwise fun a b => a.kind = "deregister" → b.kind ≠ "register") :
    SessionRecord.active (session.foldl json.told none) = none := by
  induction session using List.reverseRecOn with
  | nil => exact absurd hclosed (by simp)
  | append_singleton session e ih =>
    obtain ⟨hlast', -, hends⟩ := List.pairwise_append.mp hlast
    rw [List.foldl_append]
    simp only [List.foldl_cons, List.foldl_nil]
    by_cases hde : e.kind = "deregister"
    · have hreg : e.kind ≠ "register" := by simp [hde]
      have hbeat : e.kind ≠ "heartbeat" := by simp [hde]
      rw [KindReader.told, SessionRecord.told, if_neg hreg, if_neg hbeat, if_pos hde]
      cases session.foldl json.told none <;> simp [SessionRecord.active, Option.filter]
    · obtain ⟨d, hd, hkind⟩ : ∃ d ∈ session, d.kind = "deregister" := by
        obtain ⟨d, hd, hkind⟩ := hclosed
        rcases List.mem_append.mp hd with hd | hd
        · exact ⟨d, hd, hkind⟩
        · exact absurd (List.mem_singleton.mp hd ▸ hkind) hde
      have hreg : e.kind ≠ "register" := hends d hd e (by simp) hkind
      have hnone := ih ⟨d, hd, hkind⟩ hlast'
      have hsame : SessionRecord.active (session.foldl json.told none) =
          SessionRecord.active none := hnone
      rw [KindReader.told, active_told hsame, SessionRecord.told, if_neg hreg]
      split_ifs <;> rfl

/-- What a checkpoint takes of the events of a session. -/
def keptOf (session : List MsgEvent) : List MsgEvent :=
  if session = [] ∨ session.any (·.kind = "deregister") then []
  else ["register", "heartbeat"].filterMap fun kind => latestOf kind session

/-- What is taken makes of a session what its registration and its heartbeat do. -/
lemma foldl_told_keptOf (hkeep : ¬(session = [] ∨ session.any (·.kind = "deregister"))) :
    ((keptOf session).insertionSort (·.tsMs ≤ ·.tsMs)).foldl json.told none =
      (latestOf "register" session).map fun g =>
        json.registered g (latestOf "heartbeat" session) := by
  have hkind : ∀ {kind e}, latestOf kind session = some e → e.kind = kind := fun h =>
    of_decide_eq_true (List.mem_filter.mp (latest_mem h)).2
  rw [keptOf, if_neg hkeep]
  cases hg : latestOf "register" session with
  | none =>
    cases hb : latestOf "heartbeat" session with
    | none => simp [hg, hb]
    | some b =>
      have hbeat := hkind hb
      simp [hg, hb, KindReader.told, SessionRecord.told, hbeat]
  | some g =>
    have hreg := hkind hg
    cases hb : latestOf "heartbeat" session with
    | none =>
      simp [hg, hb, KindReader.told, SessionRecord.told, hreg, KindReader.registered]
    | some b =>
      have hbeat := hkind hb
      by_cases hle : g.tsMs ≤ b.tsMs
      · simp [hg, hb, KindReader.told, SessionRecord.told, hreg, hbeat, KindReader.registered, hle]
      · have hlt : b.tsMs ≤ g.tsMs := le_of_lt (not_le.mp hle)
        simp [hg, hb, List.orderedInsert, KindReader.told, SessionRecord.told, hreg, hbeat,
          KindReader.registered, hle, hlt]

/-- What is taken of a session whose events are in order makes of it what all of them do. -/
lemma active_keptOf (hfollows : session.Pairwise fun a b =>
      a.tsMs ≤ b.tsMs ∧ (a.kind = "deregister" → b.kind ≠ "register")) :
    SessionRecord.active
        (((keptOf session).insertionSort (·.tsMs ≤ ·.tsMs)).foldl json.told none) =
      SessionRecord.active (session.foldl json.told none) := by
  by_cases hkeep : session = [] ∨ session.any (·.kind = "deregister")
  · have hnil : keptOf session = [] := if_pos hkeep
    rw [hnil]
    rcases hkeep with hempty | hclosed
    · rw [hempty]
      rfl
    · have hclosed' : ∃ e ∈ session, e.kind = "deregister" := by simpa using hclosed
      rw [active_of_closed hclosed' (hfollows.imp And.right)]
      rfl
  · rw [foldl_told_keptOf hkeep, foldl_told_of_open (hfollows.imp And.left)]
    intro e he hkind
    exact hkeep (Or.inr (List.any_eq_true.mpr ⟨e, he, decide_eq_true hkind⟩))

/-- The events of a session in a checkpoint. -/
lemma filter_ledgerSessionEvents (order : TargetOrder) (m : MsgRegistry) (id : String) :
    (ledgerSessionEvents order m).filter (·.IsOf id) =
      (keptOf (m.filter (·.IsOf id))).insertionSort (·.tsMs ≤ ·.tsMs) := by
  have hsession : ∀ t, (m.filter (·.target = t)).filter (·.domain = "session") =
      m.filter (·.IsOf t) := by
    intro t
    rw [List.filter_filter]
    exact List.filter_congr fun e _ => (Bool.decide_and ..).symm
  have hcheck : ∀ t, checkpointed (m.filter (·.target = t)) =
      (m.filter (·.target = t)).filter (fun e => e.domain = "ledger" ∧ e.kind = "task_records") ++
        keptOf (m.filter (·.IsOf t)) := by
    intro t
    simp only [checkpointed, hsession]
    rfl
  have hledger : ∀ (l : List MsgEvent),
      (l.filter fun e => e.domain = "ledger" ∧ e.kind = "task_records").filter (·.IsOf id) = [] := by
    intro l
    rw [List.filter_filter, List.filter_eq_nil_iff]
    intro e _ h
    obtain ⟨hof, hledger⟩ := Bool.and_eq_true_iff.mp h
    have hsession := (of_decide_eq_true hof).1
    rw [(of_decide_eq_true hledger).1] at hsession
    exact absurd hsession (by decide)
  have hkept : ∀ t, ∀ e ∈ keptOf (m.filter (·.IsOf t)), e.IsOf t := by
    intro t e he
    unfold keptOf at he
    split_ifs at he with h
    · exact absurd he List.not_mem_nil
    · obtain ⟨kind, -, hlatest⟩ := List.mem_filterMap.mp he
      exact of_decide_eq_true
        (List.mem_filter.mp (List.mem_of_mem_filter (latest_mem hlatest))).2
  have htarget : ∀ t, (checkpointed (m.filter (·.target = t))).filter (·.IsOf id) =
      if t = id then keptOf (m.filter (·.IsOf id)) else [] := by
    intro t
    rw [hcheck, List.filter_append, hledger, List.nil_append]
    split_ifs with ht
    · subst ht
      exact List.filter_eq_self.mpr fun e he => decide_eq_true (hkept t e he)
    · exact List.filter_eq_nil_iff.mpr fun e he hof =>
        ht ((hkept t e he).2.symm.trans (of_decide_eq_true hof).2)
  have htrans : IsTrans MsgEvent fun a b => a.tsMs ≤ b.tsMs := ⟨fun _ _ _ => le_trans⟩
  have htotal : Std.Total fun a b : MsgEvent => a.tsMs ≤ b.tsMs := ⟨fun _ _ => le_total ..⟩
  rw [ledgerSessionEvents, Lists.filter_insertionSort, List.filter_flatMap]
  congr 1
  simp only [htarget]
  by_cases hwalk : id ∈ order.walk m
  · rw [Lists.flatMap_ite_eq (order.nodup m) hwalk]
  · have hnone : m.filter (·.IsOf id) = [] := by
      refine List.filter_eq_nil_iff.mpr fun e he hof => hwalk ?_
      exact (order.mem_walk m id).mpr ⟨e, he, (of_decide_eq_true hof).2⟩
    rw [hnone]
    refine List.flatMap_eq_nil_iff.mpr fun t _ => ?_
    split_ifs <;> rfl

end Compaction

/-! ## Steps and runs -/

namespace SessionStore

variable (json) in
/-- A step behind which the sessions are still known: the kind of a registration reads the same from
JSON; and when a checkpoint is taken, the registry of messages has all events since the last one,
and the events of each session follow each other. -/
def Told (s : SessionStore) : SessionStep → Prop
  | .call (.register _ _ kind _ _) append =>
    append.isOk = true → json.sessionKindOfSlice (registerPayload kind) = kind
  | .call _ _ => True
  | .saveFullSnapshot _ => (∀ p ∈ s.tail, p.2 = true) ∧ s.messages.Pairwise MsgEvent.Follows
  | .reopen => True

instance (s : SessionStore) : DecidablePred (s.Told json)
  | .call (.register ..) _ => inferInstanceAs (Decidable (_ → _))
  | .call (.heartbeat ..) _ => isTrue trivial
  | .call (.deregister ..) _ => isTrue trivial
  | .call (.emitEvent ..) _ => isTrue trivial
  | .saveFullSnapshot _ => inferInstanceAs (Decidable (_ ∧ _))
  | .reopen => isTrue trivial

variable (json) in
/-- The sessions are those of the history; the messages are those of the last checkpoint, as far as
active sessions go, and what was kept since. -/
structure Recorded (s : SessionStore) : Prop where
  proper : ∀ p ∈ s.tail, p.1.Proper
  messages : ∃ base, s.messages = base ++ (s.tail.filter (·.2)).map (·.1.message) ∧
    ∀ id, SessionRecord.active (json.recordOf base id) =
      SessionRecord.active (json.recordOf s.snapshot id)
  sessions : ∀ id, SessionRecord.active (json.recordOf s.history id) =
    SessionRecord.active (s.sessions id)

lemma recorded_new : new.Recorded json :=
  ⟨List.forall_mem_nil _, ⟨[], rfl, fun _ => rfl⟩, fun _ => rfl⟩

variable {s : SessionStore}

/-- One more event of the history, which the sessions are told. -/
lemma Recorded.tell (h : s.Recorded json) (hop : op.Proper) {mirrored : Bool}
    {s' : SessionStore} (htail : s'.tail = s.tail ++ [(op, mirrored)])
    (hsnapshot : s'.snapshot = s.snapshot)
    (hmessages : s'.messages = s.messages ++ if mirrored then [op.message] else [])
    (hsessions : ∀ id, s'.sessions id =
      if op.message.IsOf id then json.told (s.sessions id) op.message else s.sessions id) :
    s'.Recorded json := by
  refine ⟨?_, ?_, fun id => ?_⟩
  · rw [htail]
    exact List.forall_mem_append.mpr ⟨h.proper, List.forall_mem_singleton.mpr hop⟩
  · obtain ⟨base, hbase, hactive⟩ := h.messages
    refine ⟨base, ?_, fun id => by rw [hsnapshot, hactive]⟩
    rw [hmessages, hbase, htail, List.filter_append, List.map_append, ← List.append_assoc]
    cases mirrored <;> rfl
  · have hhistory : s'.history = s.history ++ [op.message] := by
      simp [history, htail, hsnapshot]
    rw [hhistory, recordOf_append, hsessions]
    by_cases hof : op.message.IsOf id
    · have hone : [op.message].filter (·.IsOf id) = [op.message] := by simp [hof]
      rw [hone, if_pos hof]
      exact active_told (h.sessions id) ..
    · have hnone : [op.message].filter (·.IsOf id) = [] := by simp [hof]
      rw [hnone, if_neg hof]
      exact h.sessions id

/-- A registry that is told of an event of a session. -/
lemma told_of_event {r r' : SessionRegistry} {o : SessionEventOp} {kind : String}
    (hkind : o.kind = "register" → json.sessionKindOfSlice o.payloadJson = kind)
    (hr : r' = r.tell o.kind o.sessionId kind o.realm o.tsMs) (id : String) :
    r' id = if (SessionLogOp.session o).message.IsOf id then
      json.told (r id) (SessionLogOp.session o).message else r id := by
  rw [hr, SessionRegistry.tell_apply]
  simp only [SessionLogOp.message, MsgEvent.IsOf, true_and, KindReader.told, ← sessionKindOfSlice_eq]
  split_ifs
  · unfold SessionRecord.told
    split_ifs with hreg
    · rw [hkind hreg]
    · rfl
    · rfl
    · rfl
  · rfl

lemma Recorded.answer (h : s.Recorded json) {c : SessionCall} (hop : c.op = some op)
    (hc : s.Told json (.call c (.ok ()))) : (s.answer json op c).Recorded json := by
  have hproper := SessionCall.proper hop
  cases c with
  | register =>
    obtain rfl := Option.some.inj hop
    refine h.tell hproper rfl rfl (List.append_nil _).symm (told_of_event (fun _ => hc rfl) rfl)
  | heartbeat eventId sessionId nowMs =>
    obtain rfl := Option.some.inj hop
    have htell : s.sessions.heartbeat sessionId nowMs =
        s.sessions.tell "heartbeat" sessionId "" "" nowMs := rfl
    have hne : "heartbeat" ≠ "register" := by decide
    exact h.tell hproper rfl rfl (List.append_nil _).symm
      (told_of_event (fun hreg => absurd hreg hne) htell)
  | deregister eventId sessionId nowMs =>
    obtain rfl := Option.some.inj hop
    have htell : s.sessions.deregister sessionId =
        s.sessions.tell "deregister" sessionId "" "" nowMs := rfl
    have hne : "deregister" ≠ "register" := by decide
    exact h.tell hproper rfl rfl (List.append_nil _).symm
      (told_of_event (fun hreg => absurd hreg hne) htell)
  | emitEvent eventId domain kind entityId payload =>
    simp only [SessionCall.op] at hop
    by_cases hdomain : domain = "session"
    · rw [if_pos hdomain] at hop
      obtain rfl := Option.some.inj hop
      refine h.tell hproper rfl rfl rfl (told_of_event (fun _ => sessionKindOfSlice_eq payload) ?_)
      exact if_pos hdomain
    · rw [if_neg hdomain] at hop
      split_ifs at hop
      obtain rfl := Option.some.inj hop
      refine h.tell hproper rfl rfl rfl fun id => ?_
      rw [if_neg fun hof : MsgEvent.IsOf _ id => hdomain hof.1]
      exact congrFun (if_neg hdomain) id

/-- A checkpoint of a registry of messages that has all events, in order. -/
lemma Recorded.saveFullSnapshot (h : s.Recorded json) (order : TargetOrder)
    (hall : ∀ p ∈ s.tail, p.2 = true) (hfollows : s.messages.Pairwise MsgEvent.Follows) :
    (s.saveFullSnapshot order).Recorded json := by
  obtain ⟨base, hbase, hactive⟩ := h.messages
  rw [List.filter_eq_self.mpr hall] at hbase
  have hmessages : ∀ id, SessionRecord.active (json.recordOf s.messages id) =
      SessionRecord.active (s.sessions id) := by
    intro id
    rw [← h.sessions id, hbase, history, recordOf_append, recordOf_append]
    exact active_foldl_told _ (hactive id)
  have hkept : ∀ id, SessionRecord.active (json.recordOf (ledgerSessionEvents order s.messages) id) =
      SessionRecord.active (json.recordOf s.messages id) := by
    intro id
    rw [KindReader.recordOf, filter_ledgerSessionEvents]
    refine active_keptOf ((hfollows.filter _).imp_of_mem ?_)
    intro a b ha hb hab
    have hofa : a.IsOf id := of_decide_eq_true (List.mem_filter.mp ha).2
    have hofb : b.IsOf id := of_decide_eq_true (List.mem_filter.mp hb).2
    exact hab hofa.1 hofb.1 (hofa.2.trans hofb.2.symm)
  refine ⟨List.forall_mem_nil _, ⟨s.messages, (List.append_nil _).symm, fun id =>
    (hkept id).symm⟩, fun id => ?_⟩
  have hhistory : (s.saveFullSnapshot order).history = ledgerSessionEvents order s.messages :=
    List.append_nil _
  rw [hhistory]
  exact (hkept id).trans (hmessages id)

lemma Recorded.reopen (h : s.Recorded json) : (s.reopen json).Recorded json := by
  obtain ⟨hsessions, hmessages⟩ := @reopen_eq json s h.proper
  have htail : (s.reopen json).tail.map (·.1.message) = s.tail.map (·.1.message) := by
    simp [SessionStore.reopen]
  refine ⟨fun p hp => ?_, ⟨s.snapshot, ?_, fun _ => rfl⟩, fun id => ?_⟩
  · obtain ⟨q, hq, rfl⟩ := List.mem_map.mp hp
    exact h.proper q hq
  · have hall : (s.reopen json).tail.filter (·.2) = (s.reopen json).tail :=
      List.filter_eq_self.mpr fun p hp => by
        obtain ⟨q, -, rfl⟩ := List.mem_map.mp hp
        rfl
    rw [hmessages, hall, htail, history]
  · have hhistory : (s.reopen json).history = s.history := by
      rw [history, htail]
      rfl
    rw [hhistory, hsessions]

lemma Recorded.live (h : s.Recorded json) {step : SessionStep} (hstep : s.Told json step) :
    (s.live json step).1.Recorded json := by
  cases step with
  | call c append =>
    cases hop : c.op with
    | none =>
      simp only [SessionStore.live, hop]
      exact h
    | some op =>
      cases append with
      | error e =>
        simp only [SessionStore.live, hop]
        exact h
      | ok u =>
        simp only [SessionStore.live, hop]
        exact h.answer hop hstep
  | saveFullSnapshot order => exact h.saveFullSnapshot order hstep.1 hstep.2
  | reopen => exact h.reopen

/-- Behind steps that keep the sessions known, a restart lists the same active sessions. -/
theorem sessions_survive (json : KindReader) {steps : List SessionStep}
    (h : Replayed.All (live json) (Told json) new steps) :
    ((Replayed.run (live json) new steps).1.reopen json).sessions.listActive =
      (Replayed.run (live json) new steps).1.sessions.listActive := by
  have hrun := Replayed.invariant_run (Recorded json) (fun s step hs hc => hs.live hc)
    recorded_new h
  funext id
  have hid := hrun.sessions id
  rw [← (reopen_eq hrun.proper).1 id] at hid
  exact hid

/-- The kind in a text that has nothing but a kind without quotes and escapes. -/
def sampleKind (text : String) : Option String :=
  (stripPrefix "\x7b\"kind\":\"" text.toList).bind fun rest =>
    let kind := rest.take (rest.length - 2)
    if rest.drop (rest.length - 2) = ['"', '}'] ∧ '"' ∉ kind ∧ '\\' ∉ kind then
      some (String.ofList kind)
    else none

lemma sampleKind_empty : sampleKind "" = none := rfl

/-- A reader of such texts. -/
def sampleReader : KindReader := ⟨sampleKind, sampleKind_empty⟩

/-- The targets by their last events. -/
def sampleOrder : TargetOrder where
  walk m := (m.map (·.target)).dedup
  nodup m := List.nodup_dedup _
  mem_walk m t := by rw [List.mem_dedup, List.mem_map]

/-- An event of a session is emitted. -/
def emitted (eventId : ℕ) (kind entityId : String) (payload : Bytes) (tsMs : ℤ) : SessionStep :=
  .call (.emitEvent eventId "session" kind entityId payload "code" tsMs) (.ok ())

/-- Behind a checkpoint and a restart two active sessions are gone: one that registered through the
C interface, which keeps no message, and one that had been deregistered before. -/
theorem sessions_lost :
    let s := (Replayed.run (live sampleReader) new
      [.call (.register 1 "editor" "claude" "code" 100) (.ok ()),
        emitted 2 "register" "agent" (registerPayload "codex") 110,
        emitted 3 "deregister" "agent" [] 120,
        emitted 4 "register" "agent" (registerPayload "codex") 130,
        .saveFullSnapshot sampleOrder]).1
    let restarted := s.reopen sampleReader
    s.sessions.listActive "editor" = some ⟨"editor", "claude", "code", 100, 100, .active⟩ ∧
      s.sessions.listActive "agent" = some ⟨"agent", "codex", "code", 130, 130, .active⟩ ∧
      restarted.sessions.listActive "editor" = none ∧
        restarted.sessions.listActive "agent" = none := by
  decide +kernel

/-- Sessions that are registered, send heartbeats and are closed around two checkpoints and a
restart. -/
theorem sessions_survive_sample :
    let steps : List SessionStep :=
      [emitted 1 "register" "agent" (registerPayload "codex") 100,
        emitted 2 "heartbeat" "agent" [] 110, .saveFullSnapshot sampleOrder,
        .call (.register 3 "editor" "claude" "code" 120) (.ok ()), .reopen,
        emitted 4 "deregister" "agent" [] 130, .saveFullSnapshot sampleOrder,
        .call (.heartbeat 5 "editor" 140) (.ok ())]
    ((Replayed.run (live sampleReader) new steps).1.reopen sampleReader).sessions.listActive =
      (Replayed.run (live sampleReader) new steps).1.sessions.listActive :=
  sessions_survive sampleReader (by decide +kernel)

end SessionStore

end ChittaField
