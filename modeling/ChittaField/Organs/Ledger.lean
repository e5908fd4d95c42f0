import Mathlib.Algebra.Order.Ring.Nat
import Mathlib.Data.List.Dedup
import Mathlib.Data.List.TakeDrop
import Mathlib.Data.Rat.Defs

/-!
# The interaction ledger

Events are appended to the ledger, and from time to time those that are new are compiled: an override
of a memory ends the active assertion about it and adds one with the new text.

What is compiled in batches is what would be compiled at once, up to the times at which assertions
ended, and the assertions about a memory are its overrides one after another, the last of which is
active (`compile_incremental`).  Their versions count up to the greatest number of 32 bits.
-/

namespace ChittaField

inductive EventKind where
  | retrieve
  | inject
  | outcome
  | override
  deriving DecidableEq

/-- What an event tells.  Nothing reads the fields of the first three. -/
inductive EventPayload where
  | retrieve
  | inject
  | outcome
  | override (memoryId : ℕ) (oldText newText : String)

structure InteractionEvent where
  eventId : ℕ
  tsMs : ℤ
  sessionId : String
  kind : EventKind
  payload : EventPayload

inductive AssertionStatus where
  | active
  | superseded
  deriving DecidableEq

structure VersionedAssertion where
  assertionId : ℕ
  subject : String
  predicate : String
  object : String
  version : ℕ
  status : AssertionStatus
  validFromMs : ℤ
  validToMs : Option ℤ
  supersedes : Option ℕ
  sourceEventIds : List ℕ
  confidence : ℚ

/-- What is compiled: the assertions, and the next number of one. -/
structure Compiled where
  assertions : List VersionedAssertion
  nextAssertId : ℕ

structure InteractionLedger extends Compiled where
  events : List InteractionEvent
  nextEventId : ℕ
  compileCursor : ℕ

/-! ## Compiling -/

/-- The memory that an event overrides, and the new text. -/
def InteractionEvent.overridden (ev : InteractionEvent) : Option (ℕ × String) :=
  match ev.kind, ev.payload with
  | .override, .override memoryId _ newText => some (memoryId, newText)
  | _, _ => none

namespace Compiled

/-- End an active assertion about a subject. -/
def supersede (subject : String) (nowMs : ℤ) (a : VersionedAssertion) : VersionedAssertion :=
  if a.subject = subject ∧ a.status = .active then
    { a with status := .superseded, validToMs := some nowMs }
  else a

/-- The greatest version of an assertion about a subject. -/
def prevVersion (as : List VersionedAssertion) (subject : String) : ℕ :=
  (((as.filter (·.subject = subject)).map (·.version)).max?).getD 0

/-- The last active assertion about a subject. -/
def prevId (as : List VersionedAssertion) (subject : String) : Option ℕ :=
  ((as.filter fun a => a.subject = subject ∧ a.status = .active).getLast?).map (·.assertionId)

/-- Compile an event. -/
def compileEvent (nowMs : ℤ) (s : Compiled) (ev : InteractionEvent) : Compiled :=
  match ev.overridden with
  | none => s
  | some (memoryId, newText) =>
    let subject := toString memoryId
    ⟨s.assertions.map (supersede subject nowMs) ++ [{
      assertionId := s.nextAssertId
      subject := subject
      predicate := "content"
      object := newText
      version := (prevVersion s.assertions subject + 1) % 2 ^ 32
      status := .active
      validFromMs := ev.tsMs
      validToMs := none
      supersedes := prevId s.assertions subject
      sourceEventIds := [ev.eventId]
      confidence := 1 }], s.nextAssertId + 1⟩

end Compiled

namespace InteractionLedger

def empty : InteractionLedger := ⟨⟨[], 0⟩, [], 0, 0⟩

def append (l : InteractionLedger) (ev : InteractionEvent) : InteractionLedger :=
  { l with events := l.events ++ [{ ev with eventId := l.nextEventId }], nextEventId := l.nextEventId + 1 }

/-- Compile the events behind the cursor. -/
def compile (l : InteractionLedger) (nowMs : ℤ) : InteractionLedger :=
  { l with
    toCompiled := (l.events.drop l.compileCursor).foldl (Compiled.compileEvent nowMs) l.toCompiled
    compileCursor := l.events.length }

/-- The subjects and predicates of more than one active assertion, in an order of their own. -/
def contested (l : InteractionLedger) : List (String × String × List ℕ) :=
  let active := l.assertions.filter (·.status = .active)
  let keys := (active.map fun a => (a.subject, a.predicate)).dedup
  (keys.map fun k => (k.1, k.2, (active.filter fun a => (a.subject, a.predicate) = k).map
    (·.assertionId))).filter fun c => 1 < c.2.2.length

/-- What a client does. -/
inductive Op where
  | append (ev : InteractionEvent)
  | compile (nowMs : ℤ)

def act (l : InteractionLedger) : Op → InteractionLedger
  | .append ev => l.append ev
  | .compile nowMs => l.compile nowMs

def run (ops : List Op) : InteractionLedger := ops.foldl act empty

/-- The appends alone. -/
def Op.isAppend : Op → Bool
  | .append _ => true
  | .compile _ => false

end InteractionLedger

/-! ## The assertions about a subject -/

/-- The subject of the assertion that an event leads to. -/
def InteractionEvent.subject (ev : InteractionEvent) : Option String :=
  ev.overridden.map fun o => toString o.1

/-- The versions count up to the greatest number of 32 bits, and are zero from there on. -/
def versionAt (i : ℕ) : ℕ := if i + 1 < 2 ^ 32 then i + 1 else 0

/-- **The history of a subject.**  The assertions are the overrides one after another; each points to
the one before it, and the last one is active. -/
structure SubjectHistory (overrides : List InteractionEvent) (as : List VersionedAssertion) : Prop where
  length_eq : as.length = overrides.length
  event : ∀ (i : ℕ) (a : VersionedAssertion) (ev : InteractionEvent), as[i]? = some a →
    overrides[i]? = some ev →
      a.sourceEventIds = [ev.eventId] ∧ ev.overridden.map (·.2) = some a.object
  version : ∀ (i : ℕ) (a : VersionedAssertion), as[i]? = some a → a.version = versionAt i
  first : ∀ a : VersionedAssertion, as[0]? = some a → a.supersedes = none
  later : ∀ (i : ℕ) (a b : VersionedAssertion), as[i]? = some a → as[i + 1]? = some b →
    b.supersedes = some a.assertionId
  active : ∀ (i : ℕ) (a : VersionedAssertion), as[i]? = some a →
    (a.status = .active ↔ i + 1 = as.length)

namespace SubjectHistory

variable {overrides : List InteractionEvent} {as : List VersionedAssertion}

lemma nil : SubjectHistory [] [] where
  length_eq := rfl
  event := by simp
  version := by simp
  first := by simp
  later := by simp
  active := by simp

/-- The versions so far. -/
lemma prevVersion_eq (h : SubjectHistory overrides as) {subject : String}
    (hsubject : ∀ a ∈ as, a.subject = subject) :
    Compiled.prevVersion as subject = min as.length (2 ^ 32 - 1) := by
  have hfilter : as.filter (·.subject = subject) = as :=
    List.filter_eq_self.mpr fun a ha => by simpa using hsubject a ha
  rw [Compiled.prevVersion, hfilter]
  rcases Nat.eq_zero_or_pos as.length with hzero | hpos
  · rw [List.length_eq_zero_iff.mp hzero]
    rfl
  · have hmax : (as.map (·.version)).max? = some (min as.length (2 ^ 32 - 1)) := by
      rw [List.max?_eq_some_iff]
      constructor
      · have hlt : min as.length (2 ^ 32 - 1) - 1 < as.length := by omega
        refine List.mem_map.mpr ⟨as[min as.length (2 ^ 32 - 1) - 1], List.getElem_mem _, ?_⟩
        rw [h.version _ _ (List.getElem?_eq_getElem hlt), versionAt]
        split_ifs <;> omega
      · intro v hv
        obtain ⟨a, ha, rfl⟩ := List.mem_map.mp hv
        obtain ⟨i, hi, rfl⟩ := List.getElem_of_mem ha
        rw [h.version i _ (List.getElem?_eq_getElem hi), versionAt]
        split_ifs <;> omega
    rw [hmax]
    rfl

/-- Only the last assertion is active. -/
lemma filter_active (h : SubjectHistory overrides as) :
    as.filter (·.status = .active) = as.getLast?.toList := by
  rcases List.eq_nil_or_concat as with rfl | ⟨front, last, rfl⟩
  · rfl
  · rw [List.concat_eq_append] at h ⊢
    have hfront : front.filter (·.status = .active) = [] := by
      refine List.filter_eq_nil_iff.mpr fun a ha => ?_
      obtain ⟨i, hi, rfl⟩ := List.getElem_of_mem ha
      have hactive := h.active i front[i] (by rw [List.getElem?_append_left hi,
        List.getElem?_eq_getElem hi])
      rw [List.length_append, List.length_singleton] at hactive
      simp only [decide_eq_true_eq, hactive]
      omega
    have hlast : last.status = .active := (h.active front.length last (by simp)).mpr (by simp)
    rw [List.filter_append, hfront, List.filter_cons_of_pos (by simpa using hlast)]
    simp

variable {subject : String} {nowMs : ℤ}

lemma prevId_eq (h : SubjectHistory overrides as) (hsubject : ∀ a ∈ as, a.subject = subject) :
    Compiled.prevId as subject = as.getLast?.map (·.assertionId) := by
  have hfilter : (as.filter fun a => a.subject = subject ∧ a.status = .active) =
      as.filter (·.status = .active) :=
    List.filter_congr fun a ha => by simp [hsubject a ha]
  rw [Compiled.prevId, hfilter, h.filter_active]
  cases as.getLast? <;> rfl

lemma status_supersede (nowMs : ℤ) {a : VersionedAssertion} (ha : a.subject = subject) :
    (Compiled.supersede subject nowMs a).status = .superseded := by
  unfold Compiled.supersede
  split_ifs with h
  · rfl
  · cases hstatus : a.status
    · exact absurd ⟨ha, hstatus⟩ h
    · rfl

lemma supersede_fields (subject : String) (nowMs : ℤ) (a : VersionedAssertion) :
    (Compiled.supersede subject nowMs a).assertionId = a.assertionId ∧
    (Compiled.supersede subject nowMs a).subject = a.subject ∧
    (Compiled.supersede subject nowMs a).object = a.object ∧
    (Compiled.supersede subject nowMs a).version = a.version ∧
    (Compiled.supersede subject nowMs a).supersedes = a.supersedes ∧
    (Compiled.supersede subject nowMs a).sourceEventIds = a.sourceEventIds := by
  unfold Compiled.supersede
  split_ifs <;> exact ⟨rfl, rfl, rfl, rfl, rfl, rfl⟩

/-- An assertion that is superseded stays where it is. -/
lemma getElem?_concat {a new : VersionedAssertion} {i : ℕ}
    (h : (as.map (Compiled.supersede subject nowMs) ++ [new])[i]? = some a) :
    (∃ b, as[i]? = some b ∧ Compiled.supersede subject nowMs b = a) ∨ i = as.length ∧ new = a := by
  rcases lt_trichotomy i as.length with hlt | rfl | hgt
  · rw [List.getElem?_append_left (by simpa using hlt), List.getElem?_map] at h
    exact Or.inl (Option.map_eq_some_iff.mp h)
  · refine Or.inr ⟨rfl, ?_⟩
    rw [List.getElem?_append_right (by simp)] at h
    simpa using h
  · rw [List.getElem?_eq_none (by simp; omega)] at h
    cases h

/-- Another override goes behind the others. -/
lemma concat (h : SubjectHistory overrides as) (hsubject : ∀ a ∈ as, a.subject = subject)
    {ev : InteractionEvent} {new : VersionedAssertion} (hids : new.sourceEventIds = [ev.eventId])
    (hobject : ev.overridden.map (·.2) = some new.object)
    (hversion : new.version = (Compiled.prevVersion as subject + 1) % 2 ^ 32)
    (hsupersedes : new.supersedes = Compiled.prevId as subject) (hactive : new.status = .active) :
    SubjectHistory (overrides ++ [ev]) (as.map (Compiled.supersede subject nowMs) ++ [new]) := by
  refine ⟨?_, ?_, ?_, ?_, ?_, ?_⟩
  · simp [h.length_eq]
  · intro i a ev' ha hev'
    rcases getElem?_concat ha with ⟨b, hb, rfl⟩ | ⟨rfl, rfl⟩
    · have hi : i < overrides.length := h.length_eq ▸ (List.getElem?_eq_some_iff.mp hb).1
      rw [List.getElem?_append_left hi] at hev'
      obtain ⟨-, -, hobj, -, -, hsource⟩ := supersede_fields subject nowMs b
      rw [hobj, hsource]
      exact h.event i b ev' hb hev'
    · rw [h.length_eq, List.getElem?_concat_length] at hev'
      obtain rfl := Option.some.inj hev'
      exact ⟨hids, hobject⟩
  · intro i a ha
    rcases getElem?_concat ha with ⟨b, hb, rfl⟩ | ⟨rfl, rfl⟩
    · obtain ⟨-, -, -, hver, -⟩ := supersede_fields subject nowMs b
      rw [hver]
      exact h.version i b hb
    · rw [hversion, h.prevVersion_eq hsubject, versionAt]
      split_ifs <;> omega
  · intro a ha
    rcases getElem?_concat ha with ⟨b, hb, rfl⟩ | ⟨hzero, rfl⟩
    · obtain ⟨-, -, -, -, hsup, -⟩ := supersede_fields subject nowMs b
      rw [hsup]
      exact h.first b hb
    · rw [hsupersedes, h.prevId_eq hsubject, List.length_eq_zero_iff.mp hzero.symm]
      rfl
  · intro i a b ha hb
    rcases getElem?_concat ha with ⟨a, hget, rfl⟩ | ⟨rfl, rfl⟩
    · obtain ⟨hid, -⟩ := supersede_fields subject nowMs a
      rw [hid]
      rcases getElem?_concat hb with ⟨b, hbget, rfl⟩ | ⟨hi, rfl⟩
      · obtain ⟨-, -, -, -, hsup, -⟩ := supersede_fields subject nowMs b
        rw [hsup]
        exact h.later i a b hget hbget
      · rw [hsupersedes, h.prevId_eq hsubject, List.getLast?_eq_getElem?, ← hi, Nat.add_sub_cancel, hget]
        rfl
    · rw [List.getElem?_eq_none (by simp)] at hb
      cases hb
  · intro i a ha
    rw [List.length_append, List.length_map, List.length_singleton]
    rcases getElem?_concat ha with ⟨b, hb, rfl⟩ | ⟨rfl, rfl⟩
    · have hi : i < as.length := (List.getElem?_eq_some_iff.mp hb).1
      have hover := status_supersede nowMs (hsubject b (List.mem_of_getElem? hb))
      rw [hover]
      exact iff_of_false (fun hbad => by cases hbad) (by omega)
    · exact iff_of_true hactive rfl

end SubjectHistory

/-! ## Runs -/

variable {events : List InteractionEvent}

namespace Compiled

/-- The assertions about a subject. -/
def about (s : Compiled) (subject : String) : List VersionedAssertion :=
  s.assertions.filter (·.subject = subject)

/-- The events that override a subject. -/
def overridesOf (events : List InteractionEvent) (subject : String) : List InteractionEvent :=
  events.filter (·.subject = some subject)

lemma subject_of_mem_about {s : Compiled} {subject : String} :
    ∀ a ∈ s.about subject, a.subject = subject := by
  intro a ha
  simpa using (List.mem_filter.mp ha).2

lemma prevVersion_about (s : Compiled) (subject : String) :
    prevVersion (s.about subject) subject = prevVersion s.assertions subject := by
  rw [prevVersion, about, List.filter_filter]
  simp [prevVersion]

lemma prevId_about (s : Compiled) (subject : String) :
    prevId (s.about subject) subject = prevId s.assertions subject := by
  rw [prevId, about, List.filter_filter]
  congr 3
  funext a
  by_cases ha : a.subject = subject <;> simp [ha]

lemma filter_map_supersede (as : List VersionedAssertion) (subject subject' : String) (nowMs : ℤ) :
    (as.map (supersede subject nowMs)).filter (·.subject = subject') =
      (as.filter (·.subject = subject')).map (supersede subject nowMs) := by
  rw [List.filter_map]
  congr 2
  funext a
  obtain ⟨-, hsubject, -⟩ := SubjectHistory.supersede_fields subject nowMs a
  rw [Function.comp_apply, hsubject]

/-- **A compiled event goes to the history of its subject**, and to no other. -/
lemma history_compileEvent {s : Compiled}
    (h : ∀ subject, SubjectHistory (overridesOf events subject) (s.about subject)) (nowMs : ℤ)
    (ev : InteractionEvent) (subject : String) :
    SubjectHistory (overridesOf (events ++ [ev]) subject) ((s.compileEvent nowMs ev).about subject) := by
  have hevents : overridesOf (events ++ [ev]) subject =
      overridesOf events subject ++ [ev].filter (·.subject = some subject) := List.filter_append _ _
  unfold compileEvent
  cases hev : ev.overridden with
  | none =>
    have hother : ¬ev.subject = some subject := by simp [InteractionEvent.subject, hev]
    rw [hevents, List.filter_cons_of_neg (by simpa using hother), List.filter_nil, List.append_nil]
    exact h subject
  | some o =>
    obtain ⟨memoryId, newText⟩ := o
    have hsubject : ev.subject = some (toString memoryId) := by simp [InteractionEvent.subject, hev]
    dsimp only
    rw [about, List.filter_append, filter_map_supersede, hevents]
    by_cases hsame : toString memoryId = subject
    · rw [List.filter_cons_of_pos (by simpa [hsubject] using hsame),
        List.filter_cons_of_pos (by simpa using hsame), List.filter_nil, List.filter_nil, hsame]
      refine (h subject).concat subject_of_mem_about rfl ?_ ?_ ?_ rfl
      · rw [hev]
        rfl
      · rw [prevVersion_about]
      · rw [prevId_about]
    · rw [List.filter_cons_of_neg (by simpa [hsubject] using hsame),
        List.filter_cons_of_neg (by simpa using hsame), List.filter_nil, List.filter_nil,
        List.append_nil, List.append_nil]
      have hstay : (s.about subject).map (supersede (toString memoryId) nowMs) = s.about subject := by
        refine (List.map_congr_left fun a ha => ?_).trans (List.map_id _)
        have hne : ¬(a.subject = toString memoryId ∧ a.status = .active) := fun hbad =>
          hsame (hbad.1.symm.trans (subject_of_mem_about a ha))
        exact if_neg hne
      rw [about] at hstay
      rw [hstay]
      exact h subject

lemma history_foldl {s : Compiled}
    (h : ∀ subject, SubjectHistory (overridesOf events subject) (s.about subject)) (nowMs : ℤ)
    (evs : List InteractionEvent) (subject : String) :
    SubjectHistory (overridesOf (events ++ evs) subject)
      ((evs.foldl (compileEvent nowMs) s).about subject) := by
  induction evs generalizing s events with
  | nil =>
    rw [List.append_nil]
    exact h subject
  | cons ev evs ih =>
    rw [← List.singleton_append, ← List.append_assoc, List.foldl_append]
    exact ih fun subject => history_compileEvent h nowMs ev subject

/-- An assertion without the time at which it ended. -/
def forgetEnd (a : VersionedAssertion) : VersionedAssertion := { a with validToMs := none }

def forget (s : Compiled) : Compiled := { s with assertions := s.assertions.map forgetEnd }

lemma prevVersion_forget (as : List VersionedAssertion) (subject : String) :
    prevVersion (as.map forgetEnd) subject = prevVersion as subject := by
  rw [prevVersion, List.filter_map, List.map_map]
  rfl

lemma prevId_forget (as : List VersionedAssertion) (subject : String) :
    prevId (as.map forgetEnd) subject = prevId as subject := by
  rw [prevId, List.filter_map, List.getLast?_map, Option.map_map]
  rfl

lemma forgetEnd_supersede (subject : String) (nowMs nowMs' : ℤ) (a : VersionedAssertion) :
    forgetEnd (supersede subject nowMs a) = forgetEnd (supersede subject nowMs' (forgetEnd a)) := by
  unfold supersede
  by_cases ha : a.subject = subject ∧ a.status = .active
  · rw [if_pos ha, if_pos (show (forgetEnd a).subject = subject ∧ (forgetEnd a).status = .active from ha)]
    rfl
  · rw [if_neg ha, if_neg (show ¬((forgetEnd a).subject = subject ∧ (forgetEnd a).status = .active) from ha)]
    rfl

/-- The time of compiling is told by the ends only. -/
lemma forget_compileEvent (s : Compiled) (nowMs nowMs' : ℤ) (ev : InteractionEvent) :
    (s.compileEvent nowMs ev).forget = (s.forget.compileEvent nowMs' ev).forget := by
  unfold compileEvent
  cases ev.overridden with
  | none => simp [forget, forgetEnd]
  | some o =>
    obtain ⟨memoryId, newText⟩ := o
    have hmap : (s.assertions.map (supersede (toString memoryId) nowMs)).map forgetEnd =
        ((s.assertions.map forgetEnd).map (supersede (toString memoryId) nowMs')).map forgetEnd := by
      rw [List.map_map, List.map_map, List.map_map]
      exact List.map_congr_left fun a _ => forgetEnd_supersede _ nowMs nowMs' a
    simp only [forget, List.map_append, hmap, prevVersion_forget, prevId_forget]

lemma forget_foldl (s : Compiled) (nowMs nowMs' : ℤ) (evs : List InteractionEvent) :
    (evs.foldl (compileEvent nowMs) s).forget =
      evs.foldl (fun s ev => (s.compileEvent nowMs' ev).forget) s.forget := by
  induction evs generalizing s with
  | nil => rfl
  | cons ev evs ih =>
    rw [List.foldl_cons, List.foldl_cons, ih, forget_compileEvent s nowMs nowMs']

end Compiled

namespace InteractionLedger

open Compiled

/-- What a ledger keeps: what is compiled are the events before the cursor. -/
structure UpToCursor (l : InteractionLedger) : Prop where
  cursor_le : l.compileCursor ≤ l.events.length
  history : ∀ subject, SubjectHistory (overridesOf (l.events.take l.compileCursor) subject)
    (l.toCompiled.about subject)
  at_once : l.toCompiled.forget = (l.events.take l.compileCursor).foldl
    (fun s ev => (s.compileEvent 0 ev).forget) ⟨[], 0⟩

variable {l : InteractionLedger}

lemma upToCursor_compile (h : UpToCursor l) (nowMs : ℤ) : UpToCursor (l.compile nowMs) := by
  have hevents : (l.compile nowMs).events.take (l.compile nowMs).compileCursor =
      l.events.take l.compileCursor ++ l.events.drop l.compileCursor := by
    rw [List.take_append_drop]
    exact List.take_length
  refine ⟨le_rfl, fun subject => ?_, ?_⟩
  · rw [hevents]
    exact history_foldl h.history nowMs _ subject
  · rw [hevents, List.foldl_append, ← h.at_once]
    exact forget_foldl _ nowMs 0 _

lemma upToCursor_act (h : UpToCursor l) (op : Op) : UpToCursor (l.act op) := by
  cases op with
  | append ev =>
    have hevents : (l.append ev).events.take (l.append ev).compileCursor =
        l.events.take l.compileCursor := List.take_append_of_le_length h.cursor_le
    refine ⟨?_, fun subject => ?_, ?_⟩
    · exact h.cursor_le.trans (by simp [append, act])
    · exact (congrArg (fun evs => SubjectHistory (overridesOf evs subject) _) hevents).mpr (h.history subject)
    · exact h.at_once.trans (by rw [← hevents]; rfl)
  | compile nowMs => exact upToCursor_compile h nowMs

lemma upToCursor_run (ops : List Op) : UpToCursor (run ops) := by
  refine List.foldlRecOn ops act ?_ fun l h op _ => upToCursor_act h op
  exact ⟨le_rfl, fun _ => SubjectHistory.nil, rfl⟩

/-- Compiling does not change the events. -/
lemma events_run (ops : List Op) : (run ops).events = (run (ops.filter Op.isAppend)).events := by
  have hrun : ∀ l l' : InteractionLedger, l.events = l'.events → l.nextEventId = l'.nextEventId →
      (ops.foldl act l).events = ((ops.filter Op.isAppend).foldl act l').events := by
    induction ops with
    | nil => exact fun _ _ h _ => h
    | cons op ops ih =>
      intro l l' hevents hnext
      cases op with
      | append ev =>
        exact ih _ _ (by simp [act, append, hevents, hnext]) (by simp [act, append, hnext])
      | compile nowMs => exact ih _ _ hevents hnext
  exact hrun empty empty rfl rfl

/-- The events that override a memory. -/
def overridesOfMemory (l : InteractionLedger) (memoryId : ℕ) : List InteractionEvent :=
  l.events.filter fun ev => ev.overridden.map (·.1) = some memoryId

lemma toString_injective {m n : ℕ} (h : toString m = toString n) : m = n := by
  have hdigits := congrArg String.toList h
  rw [Nat.toString_eq_repr, Nat.toString_eq_repr, Nat.toList_repr, Nat.toList_repr] at hdigits
  calc
    m = Nat.ofDigitChars 10 (Nat.toDigits 10 m) 0 := Nat.ofDigitChars_ten_toDigits.symm
    _ = n := by rw [hdigits, Nat.ofDigitChars_ten_toDigits]

lemma overridesOf_toString (l : InteractionLedger) (memoryId : ℕ) :
    overridesOf l.events (toString memoryId) = l.overridesOfMemory memoryId := by
  refine List.filter_congr fun ev _ => ?_
  unfold InteractionEvent.subject
  cases ev.overridden with
  | none => rfl
  | some o =>
    refine decide_eq_decide.mpr ?_
    rw [Option.map_some, Option.map_some, Option.some.injEq, Option.some.injEq]
    exact ⟨toString_injective, congrArg toString⟩

lemma history_compile (ops : List Op) (nowMs : ℤ) (memoryId : ℕ) :
    SubjectHistory (((run ops).compile nowMs).overridesOfMemory memoryId)
      (((run ops).compile nowMs).about (toString memoryId)) := by
  have hhistory := (upToCursor_compile (upToCursor_run ops) nowMs).history (toString memoryId)
  rw [← overridesOf_toString]
  have hall : ((run ops).compile nowMs).events.take ((run ops).compile nowMs).compileCursor =
      ((run ops).compile nowMs).events := List.take_length
  rwa [hall] at hhistory

/-- No subject has two active assertions. -/
lemma contested_eq_nil
    (h : ∀ subject, SubjectHistory (overridesOf events subject) (l.toCompiled.about subject)) :
    l.contested = [] := by
  refine List.filter_eq_nil_iff.mpr fun c hc => ?_
  obtain ⟨k, -, rfl⟩ := List.mem_map.mp hc
  have hactive : ((l.about k.1).filter (·.status = .active)).length ≤ 1 := by
    rw [(h k.1).filter_active]
    cases (l.about k.1).getLast? <;> simp
  have hsub : ((l.assertions.filter (·.status = .active)).filter
      fun a => (a.subject, a.predicate) = k).Sublist ((l.about k.1).filter (·.status = .active)) := by
    rw [about, List.filter_filter, List.filter_filter]
    refine List.monotone_filter_right _ fun a ha => ?_
    rw [Bool.and_eq_true, decide_eq_true_eq, decide_eq_true_eq] at ha
    simp [← ha.1, ha.2]
  have hlength := hsub.length_le.trans hactive
  simpa using hlength

/-- **The ledger compiles incrementally.**  Behind a compile at the end of any run, a memory that was
overridden has one active assertion, with the text of its last override; its assertions are its
overrides one after another, with versions that count up to the greatest number of 32 bits, each
pointing to the one before it; nothing is contested; and the assertions are those that one compile
of all events makes, up to the times at which they ended. -/
theorem compile_incremental (ops : List Op) (nowMs : ℤ) :
    (∀ memoryId, ((run ops).compile nowMs).overridesOfMemory memoryId ≠ [] →
      ∃ a, ((run ops).compile nowMs).assertions.filter
          (fun a => a.subject = toString memoryId ∧ a.status = .active) = [a] ∧
        (((run ops).compile nowMs).overridesOfMemory memoryId).getLast?.bind
          (fun ev => ev.overridden.map (·.2)) = some a.object) ∧
    (∀ memoryId, SubjectHistory (((run ops).compile nowMs).overridesOfMemory memoryId)
      (((run ops).compile nowMs).about (toString memoryId))) ∧
    ((run ops).compile nowMs).contested = [] ∧
    ∀ nowMs' : ℤ, ((run ops).compile nowMs).assertions.map forgetEnd =
      ((run (ops.filter Op.isAppend)).compile nowMs').assertions.map forgetEnd := by
  have hcompile := upToCursor_compile (upToCursor_run ops) nowMs
  refine ⟨fun memoryId hne => ?_, history_compile ops nowMs, contested_eq_nil hcompile.history, ?_⟩
  · have hhistory := history_compile ops nowMs memoryId
    rcases List.eq_nil_or_concat (((run ops).compile nowMs).about (toString memoryId)) with
      hnil | ⟨front, last, hconcat⟩
    · rw [hnil] at hhistory
      exact absurd (List.length_eq_zero_iff.mp hhistory.length_eq.symm) hne
    · rw [List.concat_eq_append] at hconcat
      refine ⟨last, ?_, ?_⟩
      · have hactive := hhistory.filter_active
        rw [hconcat, List.getLast?_concat] at hactive
        rw [← Option.toList_some, ← hactive, ← hconcat, about, List.filter_filter]
        refine List.filter_congr fun a _ => ?_
        simp [and_comm]
      · have hlength := hhistory.length_eq
        rw [hconcat, List.length_append, List.length_singleton] at hlength
        rw [List.getLast?_eq_getElem?, ← hlength, Nat.add_sub_cancel,
          List.getElem?_eq_getElem (by omega), Option.bind_some]
        exact (hhistory.event front.length last _ (by rw [hconcat, List.getElem?_concat_length])
          (List.getElem?_eq_getElem (by omega))).2
  · intro nowMs'
    have honce := (upToCursor_compile (upToCursor_run (ops.filter Op.isAppend)) nowMs').at_once
    have hall := hcompile.at_once
    have hevents : ∀ (l : InteractionLedger) (t : ℤ),
        (l.compile t).events.take (l.compile t).compileCursor = l.events := fun l _ => List.take_length
    rw [hevents] at honce hall
    rw [← events_run, ← hall] at honce
    exact (congrArg Compiled.assertions honce).symm

/-- The override number 2 ^ 32 of a memory has version zero. -/
theorem version_wraps : ¬∀ (ops : List Op) (nowMs : ℤ) (memoryId : ℕ),
    (((run ops).compile nowMs).about (toString memoryId)).map (·.version) =
      List.range' 1 (((run ops).compile nowMs).overridesOfMemory memoryId).length := by
  intro hclaim
  let ev : InteractionEvent := ⟨0, 0, "", .override, .override 0 "" ""⟩
  have hmany : ∀ n, ((run (List.replicate n (.append ev))).overridesOfMemory 0).length = n := by
    intro n
    induction n with
    | zero => rfl
    | succ n ih =>
      rw [List.replicate_succ', run, List.foldl_append]
      rw [run] at ih
      simp only [List.foldl_cons, List.foldl_nil, act, append, overridesOfMemory,
        List.filter_append, List.length_append]
      rw [overridesOfMemory] at ih
      rw [ih]
      rfl
  obtain ⟨n, hn⟩ : ∃ n : ℕ, n = 2 ^ 32 := ⟨_, rfl⟩
  have hhistory := history_compile (List.replicate n (.append ev)) 0 0
  have hversions := hclaim (List.replicate n (.append ev)) 0 0
  have hlength : (((run (List.replicate n (.append ev))).compile 0).overridesOfMemory 0).length = n :=
    hmany n
  rw [hlength] at hversions
  have hlast : n - 1 < (((run (List.replicate n (.append ev))).compile 0).about (toString 0)).length := by
    rw [hhistory.length_eq, hlength]
    omega
  have hversion := hhistory.version _ _ (List.getElem?_eq_getElem hlast)
  have hclaimed := congrArg (·[n - 1]?) hversions
  rw [List.getElem?_map, List.getElem?_eq_getElem hlast, Option.map_some, hversion,
    List.getElem?_range' (by omega), versionAt, if_neg (by omega)] at hclaimed
  have hzero := Option.some.inj hclaimed
  omega

end InteractionLedger

end ChittaField
