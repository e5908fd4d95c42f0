import ChittaField.Lib.Replayed
import ChittaField.Memory.Indexes

/-!
# Tasks

A task has a status and a fencing token.  A call with a lower token than the one that is stored is
rejected, but one with the token 0 is not, and stores it.  `fencing_holds_iff` says along which runs
no call with an old token is let in again.

Calls log an event first and are answered by the registry then.  Behind a restart the events are
applied to an empty registry, which knows other words than the registry that answers.
`tasks_replayed_iff` says along which runs the two registries have the same tasks.
-/

namespace ChittaField.TaskLedger

/-! ## The registry -/

inductive TaskStatus where
  | pending
  | running
  | paused
  | completed
  | failed
  deriving DecidableEq

/-- The status that a word stands for. -/
def TaskStatus.fromStr (s : String) : TaskStatus :=
  if s = "running" ∨ s = "start" then .running
  else if s = "paused" ∨ s = "pause" then .paused
  else if s = "completed" ∨ s = "complete" then .completed
  else if s = "failed" ∨ s = "fail" then .failed
  else .pending

structure TaskRecord where
  taskId : String
  kind : String
  status : TaskStatus
  payloadJson : String
  createdAtMs : ℤ
  updatedAtMs : ℤ
  fencingToken : ℕ
  deriving DecidableEq

/-- The words that a replay knows as transitions. -/
def transitionWords : List String := ["start", "pause", "resume", "complete", "fail"]

/-- The tasks by their ids. -/
abbrev TaskRegistry := String → Option TaskRecord

namespace TaskRegistry

/-- No tasks. -/
def new : TaskRegistry := fun _ => none

/-- Create a task; a record with a token that is not older stays. -/
def create (r : TaskRegistry) (taskId kind payloadJson : String) (nowMs : ℤ) (fencingToken : ℕ) :
    TaskRegistry :=
  let put := Function.update r taskId
    (some ⟨taskId, kind, .pending, payloadJson, nowMs, nowMs, fencingToken⟩)
  match r taskId with
  | some existing => if existing.fencingToken ≥ fencingToken then r else put
  | none => put

/-- A transition is rejected: its token is stale, or it is the same and the time is not newer. -/
def Rejects (t : TaskRecord) (nowMs : ℤ) (fencingToken : ℕ) : Prop :=
  (0 < fencingToken ∧ fencingToken < t.fencingToken) ∨
    (0 < fencingToken ∧ fencingToken = t.fencingToken ∧ nowMs ≤ t.updatedAtMs)

instance (t : TaskRecord) (nowMs : ℤ) (fencingToken : ℕ) :
    Decidable (Rejects t nowMs fencingToken) :=
  inferInstanceAs (Decidable (_ ∨ _))

/-- Change the status of a task; whether this was done. -/
def transition (r : TaskRegistry) (taskId newStatus : String) (nowMs : ℤ) (fencingToken : ℕ) :
    Bool × TaskRegistry :=
  match r taskId with
  | none => (false, r)
  | some t =>
    if Rejects t nowMs fencingToken then (false, r)
    else
      (true, Function.update r taskId (some { t with
        status := .fromStr newStatus
        updatedAtMs := nowMs
        fencingToken := fencingToken }))

/-- Change the payload of a task, unless the time is older; whether this was done. -/
def updatePayload (r : TaskRegistry) (taskId payloadJson : String) (nowMs : ℤ) :
    Bool × TaskRegistry :=
  match r taskId with
  | none => (false, r)
  | some t =>
    if nowMs < t.updatedAtMs then (false, r)
    else
      (true, Function.update r taskId (some { t with
        payloadJson := payloadJson
        updatedAtMs := nowMs }))

/-- Apply a logged event. -/
def apply (r : TaskRegistry) (ev : TaskEventOp) : TaskRegistry :=
  if ev.kind = "create" then
    r.create ev.taskId ev.taskType (decodeText ev.payloadJson) ev.tsMs ev.fencingToken
  else if transitionWords.contains ev.kind then
    (r.transition ev.taskId ev.kind ev.tsMs ev.fencingToken).2
  else r

end TaskRegistry

/-! ## Calls on the registry -/

/-- A call. -/
inductive TaskCall where
  | create (taskId kind payloadJson : String) (nowMs : ℤ) (fencingToken : ℕ)
  | transition (taskId newStatus : String) (nowMs : ℤ) (fencingToken : ℕ)
  | updatePayload (taskId payloadJson : String) (nowMs : ℤ)

namespace TaskRegistry

/-- Make a call. -/
def call (r : TaskRegistry) : TaskCall → TaskRegistry
  | .create taskId kind payloadJson nowMs fencingToken =>
    r.create taskId kind payloadJson nowMs fencingToken
  | .transition taskId newStatus nowMs fencingToken =>
    (r.transition taskId newStatus nowMs fencingToken).2
  | .updatePayload taskId payloadJson nowMs => (r.updatePayload taskId payloadJson nowMs).2

/-- The creation of a task takes effect. -/
def Creates (r : TaskRegistry) (taskId : String) (fencingToken : ℕ) : Prop :=
  ∀ t, r taskId = some t → t.fencingToken < fencingToken

/-- A transition takes effect. -/
def Transits (r : TaskRegistry) (taskId : String) (nowMs : ℤ) (fencingToken : ℕ) : Prop :=
  ∃ t, r taskId = some t ∧ ¬Rejects t nowMs fencingToken

instance (r : TaskRegistry) (taskId : String) (fencingToken : ℕ) :
    Decidable (r.Creates taskId fencingToken) :=
  match h : r taskId with
  | none => isTrue fun t ht => by rw [h] at ht; cases ht
  | some t => decidable_of_iff (t.fencingToken < fencingToken)
    ⟨fun hlt t' ht' => Option.some.inj (h.symm.trans ht') ▸ hlt, fun hall => hall t h⟩

instance (r : TaskRegistry) (taskId : String) (nowMs : ℤ) (fencingToken : ℕ) :
    Decidable (r.Transits taskId nowMs fencingToken) :=
  match h : r taskId with
  | none => isFalse fun ⟨t, ht, _⟩ => by rw [h] at ht; cases ht
  | some t => decidable_of_iff (¬Rejects t nowMs fencingToken)
    ⟨fun hnot => ⟨t, h, hnot⟩, fun ⟨_, ht', hnot⟩ => Option.some.inj (h.symm.trans ht') ▸ hnot⟩

end TaskRegistry

/-- A registry with the tokens that took effect, each with its task. -/
structure FencedTasks where
  registry : TaskRegistry
  effective : List (String × ℕ)

namespace FencedTasks

/-- No tasks. -/
def new : FencedTasks := ⟨.new, []⟩

/-- The token of a call that takes effect, with its task. -/
def effect (s : FencedTasks) : TaskCall → List (String × ℕ)
  | .create taskId _ _ _ fencingToken =>
    if s.registry.Creates taskId fencingToken then [(taskId, fencingToken)] else []
  | .transition taskId _ nowMs fencingToken =>
    if s.registry.Transits taskId nowMs fencingToken then [(taskId, fencingToken)] else []
  | .updatePayload _ _ _ => []

/-- Make a call. -/
def live (s : FencedTasks) (c : TaskCall) : FencedTasks × List Unit :=
  (⟨s.registry.call c, s.effect c ++ s.effective⟩, [])

/-- Once a token took effect on a task, no transition with a lower token but 0 takes effect on it, and
no creation with a token that is not higher. -/
structure Fenced (s : FencedTasks) : Prop where
  transition : ∀ taskId n, (taskId, n) ∈ s.effective → ∀ m nowMs, 0 < m → m < n →
    ¬s.registry.Transits taskId nowMs m
  create : ∀ taskId n, (taskId, n) ∈ s.effective → 0 < n → ∀ m ≤ n, ¬s.registry.Creates taskId m

/-- A transition with the token 0 does not reach a task with a higher one. -/
def KeepsToken (s : FencedTasks) : TaskCall → Prop
  | .transition taskId _ _ fencingToken => fencingToken = 0 →
    ∀ t, s.registry taskId = some t → t.fencingToken = 0
  | .create _ _ _ _ _ => True
  | .updatePayload _ _ _ => True

end FencedTasks

/-! ## What takes effect -/

namespace TaskRegistry

variable {r : TaskRegistry} {taskId kind payloadJson newStatus : String} {nowMs : ℤ} {m : ℕ}
  {t : TaskRecord}

lemma create_of_creates (h : r.Creates taskId m) : r.create taskId kind payloadJson nowMs m =
    Function.update r taskId (some ⟨taskId, kind, .pending, payloadJson, nowMs, nowMs, m⟩) := by
  unfold create
  dsimp only
  split
  · rename_i t ht
    rw [if_neg (by have := h t ht; omega)]
  · rfl

lemma create_of_not (h : ¬r.Creates taskId m) : r.create taskId kind payloadJson nowMs m = r := by
  unfold Creates at h
  push Not at h
  obtain ⟨t, ht, hle⟩ := h
  unfold create
  dsimp only
  rw [ht]
  dsimp only
  rw [if_pos hle]

lemma transition_of_not_rejects (ht : r taskId = some t) (h : ¬Rejects t nowMs m) :
    r.transition taskId newStatus nowMs m = (true, Function.update r taskId (some { t with
      status := .fromStr newStatus
      updatedAtMs := nowMs
      fencingToken := m })) := by
  unfold transition
  rw [ht]
  dsimp only
  rw [if_neg h]

lemma transition_of_not (h : ¬r.Transits taskId nowMs m) :
    r.transition taskId newStatus nowMs m = (false, r) := by
  unfold transition
  split
  · rfl
  · rename_i t ht
    rw [if_pos]
    by_contra hnot
    exact h ⟨t, ht, hnot⟩

/-- A payload that is changed changes nothing else but the time. -/
lemma updatePayload_eq (r : TaskRegistry) (taskId payloadJson : String) (nowMs : ℤ) :
    (r.updatePayload taskId payloadJson nowMs).2 = r ∨ ∃ t, r taskId = some t ∧
      (r.updatePayload taskId payloadJson nowMs).2 =
        Function.update r taskId (some { t with payloadJson := payloadJson, updatedAtMs := nowMs }) := by
  unfold updatePayload
  split
  · exact Or.inl rfl
  · rename_i t ht
    split
    · exact Or.inl rfl
    · exact Or.inr ⟨t, ht, rfl⟩

end TaskRegistry

/-! ## The fence -/

namespace FencedTasks

open TaskRegistry

variable {s : FencedTasks}

/-- The tasks are those on which a token took effect, and the last one is stored. -/
structure Stored (s : FencedTasks) : Prop where
  known : ∀ taskId n, (taskId, n) ∈ s.effective → ∃ t, s.registry taskId = some t
  stored : ∀ taskId t, s.registry taskId = some t → (taskId, t.fencingToken) ∈ s.effective

/-- No token that took effect is above the one that is stored. -/
def Topped (s : FencedTasks) : Prop :=
  ∀ taskId n t, (taskId, n) ∈ s.effective → s.registry taskId = some t → n ≤ t.fencingToken

lemma fenced_iff (h : s.Stored) : s.Fenced ↔ s.Topped := by
  constructor
  · intro hf taskId n t hn ht
    rcases Nat.eq_zero_or_pos n with rfl | hpos
    · exact Nat.zero_le _
    · have hnot := hf.create taskId n hn hpos n le_rfl
      unfold Creates at hnot
      push Not at hnot
      obtain ⟨t', ht', hle⟩ := hnot
      rw [Option.some.inj (ht.symm.trans ht')]
      exact hle
  · intro htop
    refine ⟨fun taskId n hn m nowMs hm hmn => ?_, fun taskId n hn hpos m hm hcreates => ?_⟩
    · rintro ⟨t, ht, hnot⟩
      have hle := htop taskId n t hn ht
      exact hnot (Or.inl ⟨hm, hmn.trans_le hle⟩)
    · obtain ⟨t, ht⟩ := h.known taskId n hn
      have hle := htop taskId n t hn ht
      have hlt := hcreates t ht
      omega

lemma stored_new : new.Stored :=
  ⟨fun _ _ h => absurd h List.not_mem_nil, fun _ _ h => by cases h⟩

/-- A record that is put with its token, which took effect. -/
lemma Stored.put (h : s.Stored) {taskId : String} {t : TaskRecord} :
    Stored ⟨Function.update s.registry taskId (some t), (taskId, t.fencingToken) :: s.effective⟩ := by
  refine ⟨fun id n hn => ?_, Maps.forall_update (fun id t' ht' => ?_) ?_⟩
  · by_cases hid : id = taskId
    · subst hid
      exact ⟨t, Function.update_self ..⟩
    · rcases List.mem_cons.mp hn with heq | hn
      · exact absurd (Prod.mk.inj heq).1 hid
      · obtain ⟨t', ht'⟩ := h.known id n hn
        exact ⟨t', (Function.update_of_ne hid ..).trans ht'⟩
  · exact List.mem_cons_of_mem _ (h.stored id t' ht')
  · rintro _ ⟨⟩
    exact List.mem_cons_self

/-- A record that is put with a token that is not lower. -/
lemma topped_put_iff (htop : s.Topped) {taskId : String} {t : TaskRecord} :
    Topped ⟨Function.update s.registry taskId (some t), (taskId, t.fencingToken) :: s.effective⟩ ↔
      ∀ n, (taskId, n) ∈ s.effective → n ≤ t.fencingToken := by
  constructor
  · intro h n hn
    exact h taskId n t (List.mem_cons_of_mem _ hn) (Function.update_self ..)
  · intro h id n t' hn ht'
    by_cases hid : id = taskId
    · subst hid
      change Function.update s.registry id (some t) id = some t' at ht'
      rw [Function.update_self] at ht'
      rw [← Option.some.inj ht']
      rcases List.mem_cons.mp hn with heq | hn
      · exact (Prod.mk.inj heq).2.le
      · exact h n hn
    · change Function.update s.registry taskId (some t) id = some t' at ht'
      rw [Function.update_of_ne hid] at ht'
      rcases List.mem_cons.mp hn with heq | hn
      · exact absurd (Prod.mk.inj heq).1 hid
      · exact htop id n t' hn ht'

/-- What a call leaves: the store, a payload that is changed, or a record with a token that took
effect. -/
lemma live_cases (s : FencedTasks) (c : TaskCall) :
    (s.live c).1 = s ∨
      (∃ taskId t payloadJson nowMs, c = .updatePayload taskId payloadJson nowMs ∧
        s.registry taskId = some t ∧ (s.live c).1 = ⟨Function.update s.registry taskId
          (some { t with payloadJson := payloadJson, updatedAtMs := nowMs }), s.effective⟩) ∨
      (∃ taskId kind payloadJson nowMs m, c = .create taskId kind payloadJson nowMs m ∧
        s.registry.Creates taskId m ∧ (s.live c).1 = ⟨Function.update s.registry taskId
          (some ⟨taskId, kind, .pending, payloadJson, nowMs, nowMs, m⟩),
            (taskId, m) :: s.effective⟩) ∨
      ∃ taskId newStatus nowMs m t, c = .transition taskId newStatus nowMs m ∧
        s.registry taskId = some t ∧ ¬Rejects t nowMs m ∧
        (s.live c).1 = ⟨Function.update s.registry taskId (some { t with
          status := .fromStr newStatus, updatedAtMs := nowMs, fencingToken := m }),
            (taskId, m) :: s.effective⟩ := by
  cases c with
  | create taskId kind payloadJson nowMs m =>
    by_cases h : s.registry.Creates taskId m
    · refine Or.inr (Or.inr (Or.inl ⟨taskId, kind, payloadJson, nowMs, m, rfl, h, ?_⟩))
      rw [live, TaskRegistry.call, effect, create_of_creates h, if_pos h]
      rfl
    · left
      rw [live, TaskRegistry.call, effect, create_of_not h, if_neg h]
      rfl
  | transition taskId newStatus nowMs m =>
    by_cases h : s.registry.Transits taskId nowMs m
    · obtain ⟨t, ht, hnot⟩ := h
      refine Or.inr (Or.inr (Or.inr ⟨taskId, newStatus, nowMs, m, t, rfl, ht, hnot, ?_⟩))
      rw [live, TaskRegistry.call, effect, transition_of_not_rejects ht hnot, if_pos ⟨t, ht, hnot⟩]
      rfl
    · left
      rw [live, TaskRegistry.call, effect, transition_of_not h, if_neg h]
      rfl
  | updatePayload taskId payloadJson nowMs =>
    rcases updatePayload_eq s.registry taskId payloadJson nowMs with h | ⟨t, ht, h⟩
    · left
      rw [live, TaskRegistry.call, h]
      rfl
    · refine Or.inr (Or.inl ⟨taskId, t, payloadJson, nowMs, rfl, ht, ?_⟩)
      rw [live, TaskRegistry.call, h]
      rfl

/-- A record that is put with the token that it had. -/
lemma tokens_update {taskId : String} {t t' : TaskRecord} (ht : s.registry taskId = some t)
    (htoken : t'.fencingToken = t.fencingToken) (id : String) :
    (Function.update s.registry taskId (some t') id).map (·.fencingToken) =
      (s.registry id).map (·.fencingToken) := by
  by_cases hid : id = taskId
  · subst hid
    rw [Function.update_self, ht, Option.map_some, Option.map_some, htoken]
  · rw [Function.update_of_ne hid]

lemma Stored.congr (h : s.Stored) {r : TaskRegistry}
    (hr : ∀ id, (r id).map (·.fencingToken) = (s.registry id).map (·.fencingToken)) :
    Stored ⟨r, s.effective⟩ := by
  refine ⟨fun id n hn => ?_, fun id t ht => ?_⟩
  · obtain ⟨t, ht⟩ := h.known id n hn
    have hmap := hr id
    rw [ht] at hmap
    obtain ⟨t', ht', -⟩ := Option.map_eq_some_iff.mp hmap
    exact ⟨t', ht'⟩
  · have hmap := (hr id).symm
    change r id = some t at ht
    rw [ht] at hmap
    obtain ⟨t', ht', htoken⟩ := Option.map_eq_some_iff.mp hmap
    change (id, t.fencingToken) ∈ s.effective
    have hold := h.stored id t' ht'
    rwa [htoken] at hold

lemma topped_congr {r : TaskRegistry}
    (hr : ∀ id, (r id).map (·.fencingToken) = (s.registry id).map (·.fencingToken))
    (h : s.Topped) : Topped ⟨r, s.effective⟩ := by
  intro id n t hn ht
  have hmap := (hr id).symm
  change r id = some t at ht
  rw [ht] at hmap
  obtain ⟨t', ht', htoken⟩ := Option.map_eq_some_iff.mp hmap
  have hold := h id n t' hn ht'
  rwa [htoken] at hold

/-- The token of the last call that took effect is the one that is stored. -/
lemma Stored.live (h : s.Stored) (c : TaskCall) : (s.live c).1.Stored := by
  rcases live_cases s c with heq | ⟨taskId, t, payloadJson, nowMs, -, ht, heq⟩ |
    ⟨taskId, kind, payloadJson, nowMs, m, -, -, heq⟩ | ⟨taskId, newStatus, nowMs, m, t, -, -, -, heq⟩
  · rwa [heq]
  · rw [heq]
    exact h.congr (tokens_update ht rfl)
  · rw [heq]
    exact h.put
  · rw [heq]
    exact h.put

/-- A call keeps the fence iff it does not reach a fenced task with the token 0. -/
lemma fenced_live_iff (h : s.Stored) (hf : s.Fenced) (c : TaskCall) :
    (s.live c).1.Fenced ↔ s.KeepsToken c := by
  have htop := (fenced_iff h).mp hf
  rw [fenced_iff (h.live c)]
  rcases live_cases s c with heq | ⟨taskId, t, payloadJson, nowMs, rfl, ht, heq⟩ |
    ⟨taskId, kind, payloadJson, nowMs, m, rfl, hcreates, heq⟩ |
    ⟨taskId, newStatus, nowMs, m, t, rfl, ht, hnot, heq⟩
  · rw [heq]
    refine iff_of_true htop ?_
    cases c with
    | create => trivial
    | updatePayload => trivial
    | transition taskId newStatus nowMs m =>
      -- with the token 0 a known task is reached, and its token is stored
      rintro rfl t ht
      have hnot : ¬Rejects t nowMs 0 := by
        rintro (hlt | hlt)
        · exact absurd hlt.1 (lt_irrefl 0)
        · exact absurd hlt.1 (lt_irrefl 0)
      have hreg := congrArg (fun s : FencedTasks => s.registry taskId) heq
      dsimp only [FencedTasks.live, TaskRegistry.call] at hreg
      rw [transition_of_not_rejects ht hnot, ht] at hreg
      change Function.update s.registry taskId _ taskId = some t at hreg
      rw [Function.update_self] at hreg
      exact (congrArg TaskRecord.fencingToken (Option.some.inj hreg)).symm
  · rw [heq]
    exact iff_of_true (topped_congr (tokens_update ht rfl) htop) trivial
  · rw [heq]
    refine iff_of_true ((topped_put_iff htop).mpr fun n hn => ?_) trivial
    obtain ⟨t, ht⟩ := h.known taskId n hn
    exact (htop taskId n t hn ht).trans (hcreates t ht).le
  · rw [heq]
    refine (topped_put_iff htop).trans ⟨?_, fun hkeeps n hn => ?_⟩
    · rintro hle rfl t' ht'
      exact Nat.le_zero.mp (hle t'.fencingToken (h.stored taskId t' ht'))
    · have hle := htop taskId n t hn ht
      rcases Nat.eq_zero_or_pos m with rfl | hpos
      · exact hle.trans (hkeeps rfl t ht).le
      · by_contra hlt
        exact hnot (Or.inl ⟨hpos, by change ¬n ≤ m at hlt; omega⟩)

/-- The fence holds behind every call of a run iff no call reaches a task that has a higher token with
the token 0. -/
theorem fencing_holds_iff (calls : List TaskCall) :
    Replayed.All live (fun s c => (s.live c).1.Fenced) new calls ↔
      Replayed.All live KeepsToken new calls :=
  Replayed.all_iff Stored Fenced (fun _ c h => h.live c) (fun _ c h hf => fenced_live_iff h hf c)
    stored_new ⟨fun _ _ h => absurd h List.not_mem_nil, fun _ _ h => absurd h List.not_mem_nil⟩

/-- A transition with the token 0 lets in one with the token 3 behind the token 5. -/
theorem zero_token_drops_fence :
    ¬Replayed.All live (fun s c => (s.live c).1.Fenced) new
      [.create "t" "job" "" 1000 5, .transition "t" "running" 2000 0] := by
  rintro ⟨-, hfenced, -⟩
  exact hfenced.transition "t" 5 (by decide) 3 3000 (by decide) (by decide) (by decide)

end FencedTasks

/-! ## Calls that are logged -/

/-- A call of the C interface, with the id that its event is given. -/
inductive LedgerCall where
  | create (eventId : ℕ) (taskId kind payloadJson : String) (nowMs : ℤ) (fencingToken : ℕ)
  | transition (eventId : ℕ) (taskId newStatus : String) (nowMs : ℤ) (fencingToken : ℕ)
  | updatePayload (eventId : ℕ) (taskId payloadJson : String) (nowMs : ℤ)
  | emitEvent (eventId : ℕ) (entityId kind : String) (payload : Bytes) (realm : String) (tsMs : ℤ)
    (fencingToken : ℕ)

/-- The bytes of a text. -/
def textBytes (s : String) : Bytes := s.toUTF8.data.toList

/-- The event that a call logs, if it logs one. -/
def LedgerCall.event (r : TaskRegistry) : LedgerCall → Option TaskEventOp
  | .create eventId taskId kind payloadJson nowMs fencingToken =>
    some ⟨eventId, kind, taskId, "create", textBytes payloadJson, "", nowMs, fencingToken⟩
  | .transition eventId taskId newStatus nowMs fencingToken =>
    some ⟨eventId, ((r taskId).map (·.kind)).getD "", taskId, newStatus, [], "", nowMs, fencingToken⟩
  | .updatePayload eventId taskId payloadJson nowMs =>
    let taskType := ((r taskId).map (·.kind)).getD ""
    if taskType = "" then none
    else some ⟨eventId, taskType, taskId, "update_payload", textBytes payloadJson, "", nowMs, 0⟩
  | .emitEvent eventId entityId kind payload realm tsMs fencingToken =>
    some ⟨eventId, entityId, entityId, kind, payload, realm, tsMs, fencingToken⟩

/-- What the registry does behind the append.  It is not told of an event that is emitted. -/
def LedgerCall.answer (r : TaskRegistry) : LedgerCall → TaskRegistry
  | .create _ taskId kind payloadJson nowMs fencingToken =>
    r.create taskId kind payloadJson nowMs fencingToken
  | .transition _ taskId newStatus nowMs fencingToken =>
    (r.transition taskId newStatus nowMs fencingToken).2
  | .updatePayload _ taskId payloadJson nowMs => (r.updatePayload taskId payloadJson nowMs).2
  | .emitEvent _ _ _ _ _ _ _ => r

/-- The registry and what was logged. -/
structure TaskStore where
  registry : TaskRegistry
  log : List TaskEventOp

namespace TaskStore

def new : TaskStore := ⟨.new, []⟩

/-- Make a call, whose append may fail. -/
def live (s : TaskStore) (c : LedgerCall × Bool) : TaskStore × List TaskEventOp :=
  match c.1.event s.registry, c.2 with
  | some op, true => (⟨c.1.answer s.registry, s.log ++ [op]⟩, [op])
  | _, _ => (s, [])

/-- The registry that a replay of the log gives. -/
def replayed (s : TaskStore) : TaskRegistry := s.log.foldl TaskRegistry.apply .new

end TaskStore

/-- What is compared of a task. -/
def TaskRecord.seen (t : TaskRecord) : String × TaskStatus × String × ℤ × ℕ :=
  (t.kind, t.status, t.payloadJson, t.updatedAtMs, t.fencingToken)

/-- Two registries have the same tasks. -/
def SameTasks (r r' : TaskRegistry) : Prop :=
  ∀ taskId, (r taskId).map TaskRecord.seen = (r' taskId).map TaskRecord.seen

/-- A transition leaves a task as it is. -/
def Leaves (t : TaskRecord) (newStatus : String) (nowMs : ℤ) (fencingToken : ℕ) : Prop :=
  TaskRegistry.Rejects t nowMs fencingToken ∨ (t.status = .fromStr newStatus ∧
    t.updatedAtMs = nowMs ∧ t.fencingToken = fencingToken)

/-- The replay of what a call logs does what the call did: a transition is called by one of the words
that the replay knows, or leaves the task as it is; one that is called "create" creates the task again
in the replay, which shows unless the task has no payload; a payload stays as it is; and an event that
is emitted does nothing. -/
def Replays (s : TaskStore) (c : LedgerCall × Bool) : Prop :=
  c.2 = true →
    match c.1 with
    | .create _ _ _ _ _ _ => True
    | .transition _ taskId newStatus nowMs fencingToken =>
      if newStatus = "create" then
        ∃ t, s.registry taskId = some t ∧
          if t.fencingToken < fencingToken then t.payloadJson = ""
          else Leaves t newStatus nowMs fencingToken
      else
        newStatus ∈ transitionWords ∨
          ∀ t, s.registry taskId = some t → Leaves t newStatus nowMs fencingToken
    | .updatePayload _ taskId payloadJson nowMs =>
      ∀ t, s.registry taskId = some t → t.kind = "" ∨ nowMs < t.updatedAtMs ∨
        (t.payloadJson = payloadJson ∧ t.updatedAtMs = nowMs)
    | .emitEvent _ entityId kind _ _ tsMs fencingToken =>
      if kind = "create" then ∃ t, s.registry entityId = some t ∧ fencingToken ≤ t.fencingToken
      else kind ∈ transitionWords →
        ∀ t, s.registry entityId = some t → Leaves t kind tsMs fencingToken

/-! ## Tasks that are the same -/

section

variable {r r' : TaskRegistry} {taskId kind payloadJson newStatus : String} {nowMs : ℤ} {m : ℕ}
  {t : TaskRecord}

lemma SameTasks.refl (r : TaskRegistry) : SameTasks r r := fun _ => rfl

lemma SameTasks.symm (h : SameTasks r r') : SameTasks r' r := fun id => (h id).symm

lemma SameTasks.trans {r'' : TaskRegistry} (h : SameTasks r r') (h' : SameTasks r' r'') :
    SameTasks r r'' :=
  fun id => (h id).trans (h' id)

/-- The record of a task in a registry that has the same tasks. -/
lemma SameTasks.exists_seen (h : SameTasks r r') (ht : r taskId = some t) :
    ∃ t', r' taskId = some t' ∧ t'.seen = t.seen := by
  have hsame := h taskId
  rw [ht, Option.map_some] at hsame
  exact Option.map_eq_some_iff.mp hsame.symm

lemma seen_eq {t t' : TaskRecord} (h : t'.seen = t.seen) : t'.kind = t.kind ∧ t'.status = t.status ∧
    t'.payloadJson = t.payloadJson ∧ t'.updatedAtMs = t.updatedAtMs ∧
    t'.fencingToken = t.fencingToken := by
  simpa [TaskRecord.seen] using h

/-- Records that are put for a task are compared there only. -/
lemma SameTasks.update (h : SameTasks r r') {t t' : TaskRecord} (ht : t.seen = t'.seen) :
    SameTasks (Function.update r taskId (some t)) (Function.update r' taskId (some t')) := by
  intro id
  by_cases hid : id = taskId
  · subst hid
    rw [Function.update_self, Function.update_self, Option.map_some, Option.map_some, ht]
  · rw [Function.update_of_ne hid, Function.update_of_ne hid, h id]

lemma SameTasks.creates (h : SameTasks r r') (hc : r.Creates taskId m) : r'.Creates taskId m := by
  intro t' ht'
  obtain ⟨t, ht, hseen⟩ := h.symm.exists_seen ht'
  rw [← (seen_eq hseen).2.2.2.2]
  exact hc t ht

lemma SameTasks.create (h : SameTasks r r') :
    SameTasks (r.create taskId kind payloadJson nowMs m) (r'.create taskId kind payloadJson nowMs m) := by
  by_cases hc : r.Creates taskId m
  · rw [TaskRegistry.create_of_creates hc, TaskRegistry.create_of_creates (h.creates hc)]
    exact h.update rfl
  · rw [TaskRegistry.create_of_not hc, TaskRegistry.create_of_not fun hc' => hc (h.symm.creates hc')]
    exact h

lemma rejects_congr {t t' : TaskRecord} (h : t'.seen = t.seen) :
    TaskRegistry.Rejects t' nowMs m ↔ TaskRegistry.Rejects t nowMs m := by
  obtain ⟨-, -, -, hupdated, htoken⟩ := seen_eq h
  rw [TaskRegistry.Rejects, TaskRegistry.Rejects, hupdated, htoken]

lemma SameTasks.transition (h : SameTasks r r') :
    SameTasks (r.transition taskId newStatus nowMs m).2 (r'.transition taskId newStatus nowMs m).2 := by
  by_cases hc : r.Transits taskId nowMs m
  · obtain ⟨t, ht, hnot⟩ := hc
    obtain ⟨t', ht', hseen⟩ := h.exists_seen ht
    rw [TaskRegistry.transition_of_not_rejects ht hnot,
      TaskRegistry.transition_of_not_rejects ht' fun hr => hnot ((rejects_congr hseen).mp hr)]
    obtain ⟨hkind, -, hpayload, -, -⟩ := seen_eq hseen
    exact h.update (by simp [TaskRecord.seen, hkind, hpayload])
  · have hc' : ¬r'.Transits taskId nowMs m := by
      rintro ⟨t', ht', hnot⟩
      obtain ⟨t, ht, hseen⟩ := h.symm.exists_seen ht'
      exact hc ⟨t, ht, fun hr => hnot ((rejects_congr hseen).mp hr)⟩
    rw [TaskRegistry.transition_of_not hc, TaskRegistry.transition_of_not hc']
    exact h

/-- A replay goes by what is compared. -/
lemma SameTasks.apply (h : SameTasks r r') (op : TaskEventOp) :
    SameTasks (r.apply op) (r'.apply op) := by
  unfold TaskRegistry.apply
  split
  · exact h.create
  · split
    · exact h.transition
    · exact h

/-- A record that is put for a task shows unless it was there. -/
lemma sameTasks_update_iff : SameTasks (Function.update r taskId (some t)) r ↔
    ∃ t', r taskId = some t' ∧ t'.seen = t.seen := by
  constructor
  · intro h
    exact h.exists_seen (Function.update_self ..)
  · rintro ⟨t', ht', hseen⟩ id
    by_cases hid : id = taskId
    · subst hid
      rw [Function.update_self, ht', Option.map_some, Option.map_some, hseen]
    · rw [Function.update_of_ne hid]

/-- A transition does not show iff it leaves the task as it is. -/
lemma sameTasks_transition_iff : SameTasks (r.transition taskId newStatus nowMs m).2 r ↔
    ∀ t, r taskId = some t → Leaves t newStatus nowMs m := by
  cases ht : r taskId with
  | none =>
    have hnot : ¬r.Transits taskId nowMs m := by
      rintro ⟨t, ht', -⟩
      rw [ht] at ht'
      cases ht'
    rw [TaskRegistry.transition_of_not hnot]
    refine iff_of_true (.refl r) fun t ht' => ?_
    cases ht'
  | some t =>
    by_cases hr : TaskRegistry.Rejects t nowMs m
    · have hnot : ¬r.Transits taskId nowMs m := by
        rintro ⟨t', ht', hnot⟩
        rw [← Option.some.inj (ht.symm.trans ht')] at hnot
        exact hnot hr
      rw [TaskRegistry.transition_of_not hnot]
      refine iff_of_true (.refl r) fun t' ht' => ?_
      rw [← Option.some.inj ht']
      exact Or.inl hr
    · rw [TaskRegistry.transition_of_not_rejects ht hr, sameTasks_update_iff]
      constructor
      · rintro ⟨t', ht', hseen⟩ t'' ht''
        obtain rfl := Option.some.inj (ht.symm.trans ht')
        obtain rfl := Option.some.inj ht''
        obtain ⟨-, hstatus, -, hupdated, htoken⟩ := seen_eq hseen
        exact Or.inr ⟨hstatus, hupdated, htoken⟩
      · intro h
        rcases h t rfl with hr' | ⟨hstatus, hupdated, htoken⟩
        · exact absurd hr' hr
        · exact ⟨t, ht, by simp [TaskRecord.seen, hstatus, hupdated, htoken]⟩

/-- The creation of a task does not show iff it does not take effect. -/
lemma sameTasks_create_iff : SameTasks (r.create taskId kind payloadJson nowMs m) r ↔
    ∃ t, r taskId = some t ∧ m ≤ t.fencingToken := by
  by_cases hc : r.Creates taskId m
  · rw [TaskRegistry.create_of_creates hc, sameTasks_update_iff]
    constructor
    · rintro ⟨t, ht, hseen⟩
      exact ⟨t, ht, (seen_eq hseen).2.2.2.2.ge⟩
    · rintro ⟨t, ht, hle⟩
      exact absurd (hc t ht) (not_lt.mpr hle)
  · rw [TaskRegistry.create_of_not hc]
    refine iff_of_true (.refl r) ?_
    unfold TaskRegistry.Creates at hc
    push Not at hc
    exact hc

/-- A payload that is changed does not show iff it stays as it is. -/
lemma sameTasks_updatePayload_iff : SameTasks (r.updatePayload taskId payloadJson nowMs).2 r ↔
    ∀ t, r taskId = some t →
      nowMs < t.updatedAtMs ∨ (t.payloadJson = payloadJson ∧ t.updatedAtMs = nowMs) := by
  unfold TaskRegistry.updatePayload
  cases ht : r taskId with
  | none =>
    refine iff_of_true (.refl r) fun t ht' => ?_
    cases ht'
  | some t =>
    dsimp only
    split
    · rename_i hlt
      refine iff_of_true (.refl r) fun t' ht' => ?_
      rw [← Option.some.inj ht']
      exact Or.inl hlt
    · rename_i hlt
      rw [sameTasks_update_iff]
      constructor
      · rintro ⟨t', ht', hseen⟩ t'' ht''
        obtain rfl := Option.some.inj (ht.symm.trans ht')
        obtain rfl := Option.some.inj ht''
        obtain ⟨-, -, hpayload, hupdated, -⟩ := seen_eq hseen
        exact Or.inr ⟨hpayload, hupdated⟩
      · intro h
        rcases h t rfl with hlt' | ⟨hpayload, hupdated⟩
        · exact absurd hlt' hlt
        · exact ⟨t, ht, by simp [TaskRecord.seen, hpayload, hupdated]⟩

lemma decodeText_textBytes (s : String) : decodeText (textBytes s) = s := by
  have hdata : (⟨(textBytes s).toArray⟩ : ByteArray) = s.toByteArray := rfl
  rw [decodeText, hdata, String.fromUTF8?, dif_pos s.isValidUTF8]
  rfl

variable {op : TaskEventOp}

lemma apply_create (h : op.kind = "create") : r.apply op =
    r.create op.taskId op.taskType (decodeText op.payloadJson) op.tsMs op.fencingToken := if_pos h

lemma apply_word (h : op.kind ≠ "create") (hword : op.kind ∈ transitionWords) :
    r.apply op = (r.transition op.taskId op.kind op.tsMs op.fencingToken).2 := by
  rw [TaskRegistry.apply, if_neg h, if_pos (List.contains_iff_mem.mpr hword)]

lemma apply_other (h : op.kind ≠ "create") (hword : op.kind ∉ transitionWords) : r.apply op = r := by
  rw [TaskRegistry.apply, if_neg h, if_neg fun hc => hword (List.contains_iff_mem.mp hc)]

/-- A transition that is called "create" creates the task again in the replay. -/
lemma sameTasks_create_word_iff :
    SameTasks (r.transition taskId "create" nowMs m).2
        (r.create taskId (((r taskId).map (·.kind)).getD "") "" nowMs m) ↔
      ∃ t, r taskId = some t ∧
        if t.fencingToken < m then t.payloadJson = "" else Leaves t "create" nowMs m := by
  cases ht : r taskId with
  | none =>
    have hnot : ¬r.Transits taskId nowMs m := by
      rintro ⟨t, ht', -⟩
      rw [ht] at ht'
      cases ht'
    rw [TaskRegistry.transition_of_not hnot]
    refine iff_of_false (fun h => ?_) (fun ⟨t, ht', _⟩ => Option.some_ne_none t ht'.symm)
    obtain ⟨t, ht', -⟩ := sameTasks_create_iff.mp h.symm
    rw [ht] at ht'
    cases ht'
  | some t =>
    have hex : (∃ t', some t = some t' ∧ if t'.fencingToken < m then t'.payloadJson = ""
        else Leaves t' "create" nowMs m) ↔
        if t.fencingToken < m then t.payloadJson = "" else Leaves t "create" nowMs m := by
      constructor
      · rintro ⟨t', ht', h⟩
        rwa [← Option.some.inj ht'] at h
      · exact fun h => ⟨t, rfl, h⟩
    rw [hex, Option.map_some, Option.getD_some]
    split
    · rename_i hlt
      have hnot : ¬TaskRegistry.Rejects t nowMs m := by
        rintro (h | h)
        · omega
        · omega
      have hcreates : r.Creates taskId m := fun t' ht' => Option.some.inj (ht.symm.trans ht') ▸ hlt
      rw [TaskRegistry.transition_of_not_rejects ht hnot, TaskRegistry.create_of_creates hcreates]
      constructor
      · intro h
        have hseen := h taskId
        dsimp only at hseen
        rw [Function.update_self, Function.update_self] at hseen
        exact (seen_eq (Option.some.inj hseen)).2.2.1
      · intro hpayload
        refine SameTasks.update (.refl r) ?_
        simp only [TaskRecord.seen, hpayload]
        rfl
    · rename_i hle
      have hnot : ¬r.Creates taskId m := fun hc => hle (hc t ht)
      rw [TaskRegistry.create_of_not hnot, sameTasks_transition_iff]
      constructor
      · exact fun h => h t ht
      · intro h t' ht'
        rwa [← Option.some.inj (ht.symm.trans ht')]

/-- What a call does is what the replay makes of its event, iff the call meets the condition. -/
lemma sameTasks_answer_iff {s : TaskStore} {c : LedgerCall} (hop : c.event s.registry = some op) :
    SameTasks (c.answer s.registry) (s.registry.apply op) ↔ Replays s (c, true) := by
  unfold Replays
  rw [forall_prop_of_true rfl]
  cases c with
  | create =>
    obtain rfl := Option.some.inj hop
    rw [apply_create rfl]
    dsimp only
    rw [decodeText_textBytes]
    exact iff_of_true (.refl _) trivial
  | transition eventId taskId newStatus nowMs m =>
    obtain rfl := Option.some.inj hop
    dsimp only [LedgerCall.answer]
    split
    · rename_i hword
      subst hword
      rw [apply_create rfl, ← sameTasks_create_word_iff]
      have hempty : decodeText [] = "" := by decide +kernel
      dsimp only
      rw [hempty]
    · rename_i hcreate
      by_cases hword : newStatus ∈ transitionWords
      · rw [apply_word hcreate hword]
        exact iff_of_true (.refl _) (Or.inl hword)
      · rw [apply_other hcreate hword, sameTasks_transition_iff]
        exact (or_iff_right hword).symm
  | updatePayload eventId taskId payloadJson nowMs =>
    unfold LedgerCall.event at hop
    dsimp only at hop
    split at hop
    · cases hop
    · rename_i hkind
      obtain rfl := Option.some.inj hop
      have hcreate : "update_payload" ≠ "create" := by decide
      have hword : "update_payload" ∉ transitionWords := by decide
      rw [apply_other hcreate hword]
      dsimp only [LedgerCall.answer]
      rw [sameTasks_updatePayload_iff]
      refine forall_congr' fun t => imp_congr_right fun ht => ?_
      rw [ht] at hkind
      exact (or_iff_right hkind).symm
  | emitEvent eventId entityId kind payload realm tsMs m =>
    obtain rfl := Option.some.inj hop
    dsimp only [LedgerCall.answer]
    split
    · rename_i hcreate
      rw [apply_create hcreate]
      exact ⟨fun h => sameTasks_create_iff.mp h.symm, fun h => (sameTasks_create_iff.mpr h).symm⟩
    · rename_i hcreate
      by_cases hword : kind ∈ transitionWords
      · rw [apply_word hcreate hword]
        exact ⟨fun h _ => sameTasks_transition_iff.mp h.symm,
          fun h => (sameTasks_transition_iff.mpr (h hword)).symm⟩
      · rw [apply_other hcreate hword]
        exact iff_of_true (.refl _) fun h => absurd h hword

end

/-! ## Runs -/

namespace TaskStore

/-- The replay of the log gives the tasks of the registry. -/
def Faithful (s : TaskStore) : Prop := SameTasks s.registry s.replayed

lemma faithful_new : new.Faithful := SameTasks.refl .new

/-- A call keeps the replay faithful iff it meets the condition. -/
lemma faithful_live_iff {s : TaskStore} (h : s.Faithful) (c : LedgerCall × Bool) :
    (s.live c).1.Faithful ↔ Replays s c := by
  obtain ⟨c, appended⟩ := c
  cases appended with
  | false =>
    have hlive : (s.live (c, false)).1 = s := by
      unfold live
      cases c.event s.registry <;> rfl
    rw [hlive]
    exact iff_of_true h fun hfalse => by cases hfalse
  | true =>
    cases hop : c.event s.registry with
    | none =>
      have hlive : (s.live (c, true)).1 = s := by
        unfold live
        rw [hop]
      rw [hlive]
      refine iff_of_true h fun _ => ?_
      -- only a payload of an unknown task is not logged
      cases c with
      | create => cases hop
      | transition => cases hop
      | emitEvent => cases hop
      | updatePayload eventId taskId payloadJson nowMs =>
        intro t ht
        left
        unfold LedgerCall.event at hop
        dsimp only at hop
        split at hop
        · rename_i hkind
          change s.registry taskId = some t at ht
          rwa [ht] at hkind
        · cases hop
    | some op =>
      have hlive : (s.live (c, true)).1 = ⟨c.answer s.registry, s.log ++ [op]⟩ := by
        unfold live
        rw [hop]
      have hreplayed : (s.live (c, true)).1.replayed = s.replayed.apply op := by
        rw [hlive, replayed, List.foldl_append]
        rfl
      rw [Faithful, hreplayed, hlive, ← sameTasks_answer_iff hop]
      have hsame := h.apply op
      exact ⟨fun h' => h'.trans hsame.symm, fun h' => h'.trans hsame⟩

/-- The replay of the log gives the tasks of the registry behind every call of a run iff every call
meets the condition. -/
theorem tasks_replayed_iff (calls : List (LedgerCall × Bool)) :
    Replayed.All live (fun s c => (s.live c).1.Faithful) new calls ↔
      Replayed.All live Replays new calls :=
  Replayed.all_iff (fun _ => True) Faithful (fun _ _ _ => trivial)
    (fun _ c _ h => faithful_live_iff h c) trivial faithful_new

/-- The word of a status is a transition for the registry and not for the replay. -/
theorem status_word_is_not_replayed :
    ¬Replayed.All live (fun s c => (s.live c).1.Faithful) new
      [(.create 1 "t" "job" "" 1000 1, true), (.transition 2 "t" "running" 2000 1, true)] := by
  rintro ⟨-, hfaithful, -⟩
  exact absurd (hfaithful "t") (by decide +kernel)

end TaskStore

end ChittaField.TaskLedger
