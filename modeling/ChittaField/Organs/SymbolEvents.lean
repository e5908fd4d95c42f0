import Mathlib.Algebra.Order.Ring.Int
import Mathlib.Data.List.Induction
import ChittaField.Lib.Maps
import ChittaField.Lib.Replayed

/-!
# The log of symbol events

Events about symbols are logged one behind the other, and found by the name of the symbol or by the
file.  An event with id 0 gets the next id; one with an id of its own keeps it.

A query for both a symbol and a file looks only at the newest events of the symbol, twice as many as
are asked for, and takes those of the file.  `symbol_events` says when that is enough, and when the
ids that the log gives are its own.
-/

namespace ChittaField

inductive SymbolEventKind where
  | edited
  | created
  | deleted
  | testFailed
  | testPassed
  | committed
  deriving DecidableEq

structure SymbolEvent where
  id : ℕ
  symbolName : String
  filePath : String
  symbolId : Option ℕ
  kind : SymbolEventKind
  sessionId : String
  harness : String
  memoryId : Option ℕ
  timestampMs : ℤ
  notes : Option String
  deriving DecidableEq

/-- The events, and where those of each symbol and of each file stand. -/
structure SymbolEventLog where
  nextId : ℕ
  events : List SymbolEvent
  bySymbolName : String → Option (List ℕ)
  byFile : String → Option (List ℕ)

namespace SymbolEventLog

def new : SymbolEventLog := ⟨0, [], fun _ => none, fun _ => none⟩

variable (l : SymbolEventLog)

/-- The id of an event, and the counter behind it.  Ids have 64 bits. -/
def assign (ev : SymbolEvent) : ℕ × ℕ :=
  if ev.id = 0 then ((l.nextId + 1) % 2 ^ 64, (l.nextId + 1) % 2 ^ 64)
  else (ev.id, if l.nextId ≤ ev.id then (ev.id + 1) % 2 ^ 64 else l.nextId)

/-- Log an event; its id. -/
def log (ev : SymbolEvent) : SymbolEventLog × ℕ :=
  let (id, nextId) := l.assign ev
  ({ nextId := nextId
     events := l.events ++ [{ ev with id := id }]
     bySymbolName := Maps.push l.bySymbolName ev.symbolName l.events.length
     byFile := Maps.push l.byFile ev.filePath l.events.length }, id)

/-- The newest events at some positions. -/
def newest (indices : Option (List ℕ)) (limit : ℕ) : List SymbolEvent :=
  ((indices.getD []).reverse.take limit).filterMap (l.events[·]?)

def queryBySymbol (symbolName : String) (limit : ℕ) : List SymbolEvent :=
  l.newest (l.bySymbolName symbolName) limit

def queryByFile (filePath : String) (limit : ℕ) : List SymbolEvent :=
  l.newest (l.byFile filePath) limit

/-- The newest events of a symbol and of a file, as far as they are given.  The limit has 64 bits. -/
def query (symbolName filePath : Option String) (limit : ℕ) : List SymbolEvent :=
  match symbolName, filePath with
  | some s, none => l.queryBySymbol s limit
  | none, some f => l.queryByFile f limit
  | some s, some f => ((l.queryBySymbol s (limit * 2 % 2 ^ 64)).filter (·.filePath = f)).take limit
  | none, none => l.events.reverse.take limit

/-! ## Scans -/

/-- All events of a symbol, the newest first. -/
def ofSymbol (symbolName : String) : List SymbolEvent :=
  l.events.reverse.filter (·.symbolName = symbolName)

/-- The newest events that match all filters that are given. -/
def scan (symbolName filePath : Option String) (limit : ℕ) : List SymbolEvent :=
  (l.events.reverse.filter fun e =>
    symbolName.all (e.symbolName = ·) && filePath.all (e.filePath = ·)).take limit

/-- The newest events of a symbol that are looked at have as many of the file as are asked for, or no
other event of the symbol is of the file. -/
def Prefetched (symbolName filePath : String) (limit : ℕ) : Prop :=
  limit ≤ ((l.ofSymbol symbolName).take (limit * 2 % 2 ^ 64)).countP (·.filePath = filePath) ∨
    ∀ e ∈ (l.ofSymbol symbolName).drop (limit * 2 % 2 ^ 64), e.filePath ≠ filePath

end SymbolEventLog

/-- Taking from the part of a list that is looked at is taking from the list iff the part has enough,
or the rest has nothing. -/
lemma take_filter_take_eq_iff {α : Type*} (xs : List α) (p : α → Bool) (m n : ℕ) :
    ((xs.take m).filter p).take n = (xs.filter p).take n ↔
      n ≤ (xs.take m).countP p ∨ ∀ x ∈ xs.drop m, ¬p x = true := by
  have hsplit : xs.filter p = (xs.take m).filter p ++ (xs.drop m).filter p := by
    rw [← List.filter_append, List.take_append_drop]
  rw [hsplit, List.countP_eq_length_filter]
  constructor
  · intro h
    by_cases hn : n ≤ ((xs.take m).filter p).length
    · exact Or.inl hn
    · right
      have hlength := congrArg List.length h
      rw [List.length_take, List.length_take, List.length_append] at hlength
      exact List.filter_eq_nil_iff.mp (List.length_eq_zero_iff.mp (by omega))
  · rintro (hn | hnone)
    · rw [List.take_append_of_le_length hn]
    · rw [List.filter_eq_nil_iff.mpr hnone, List.append_nil]

/-! ## What the positions say -/

/-- The positions of each symbol and of each file are those of its events. -/
structure SymbolsIndexed (l : SymbolEventLog) : Prop where
  names : ∀ name, (l.bySymbolName name).getD [] =
    (List.range l.events.length).filter fun i => l.events[i]?.any (·.symbolName = name)
  files : ∀ file, (l.byFile file).getD [] =
    (List.range l.events.length).filter fun i => l.events[i]?.any (·.filePath = file)

/-- The positions with a property of the events there, behind one more event. -/
lemma filter_range_concat (events : List SymbolEvent) (ev : SymbolEvent) (p : SymbolEvent → Bool) :
    ((List.range (events ++ [ev]).length).filter fun i => (events ++ [ev])[i]?.any p) =
      ((List.range events.length).filter fun i => events[i]?.any p) ++
        if p ev then [events.length] else [] := by
  rw [List.length_append, List.length_singleton, List.range_succ, List.filter_append]
  congr 1
  · refine List.filter_congr fun i hi => ?_
    rw [List.getElem?_append_left (List.mem_range.mp hi)]
  · rw [List.filter_singleton, List.getElem?_concat_length, Option.any_some]
    cases p ev <;> rfl

/-- The events at the positions with a property are the events with it. -/
lemma filterMap_filter_range (events : List SymbolEvent) (p : SymbolEvent → Bool) :
    ((List.range events.length).filter fun i => events[i]?.any p).filterMap (events[·]?) =
      events.filter p := by
  induction events using List.reverseRecOn with
  | nil => rfl
  | append_singleton events ev ih =>
    have hold : ((List.range events.length).filter fun i => events[i]?.any p).filterMap
        ((events ++ [ev])[·]?) = events.filter p := by
      rw [← ih]
      refine List.filterMap_congr fun i hi => ?_
      rw [List.getElem?_append_left (List.mem_range.mp (List.mem_of_mem_filter hi))]
    rw [filter_range_concat, List.filterMap_append, hold, List.filter_append, List.filter_singleton]
    cases p ev <;> simp

section Queries

variable {l : SymbolEventLog}

lemma symbolsIndexed_new : SymbolsIndexed .new := ⟨fun _ => rfl, fun _ => rfl⟩

/-- A position is appended to those of the event's key. -/
lemma getD_push {idx : String → Option (List ℕ)} {key k : String} {i : ℕ} :
    ((Maps.push idx key i) k).getD [] = (idx k).getD [] ++ if key = k then [i] else [] := by
  unfold Maps.push
  by_cases hk : k = key
  · subst hk
    simp
  · simp [hk, Ne.symm hk]

lemma SymbolsIndexed.log (h : SymbolsIndexed l) (ev : SymbolEvent) : SymbolsIndexed (l.log ev).1 := by
  refine ⟨fun name => ?_, fun file => ?_⟩
  · refine getD_push.trans ?_
    rw [h.names]
    exact ((filter_range_concat ..).trans (by simp)).symm
  · refine getD_push.trans ?_
    rw [h.files]
    exact ((filter_range_concat ..).trans (by simp)).symm

/-- Positions that there are have events. -/
lemma map_getElem?_eq {events : List SymbolEvent} {is : List ℕ} (h : ∀ i ∈ is, i < events.length) :
    is.map (events[·]?) = (is.filterMap (events[·]?)).map some := by
  induction is with
  | nil => rfl
  | cons i is ih =>
    obtain ⟨hi, his⟩ := List.forall_mem_cons.mp h
    rw [List.map_cons, List.filterMap_cons, ih his, List.getElem?_eq_getElem hi]
    rfl

/-- The newest events at the positions with a property. -/
lemma newest_eq {indices : Option (List ℕ)} {p : SymbolEvent → Bool}
    (h : indices.getD [] = (List.range l.events.length).filter fun i => l.events[i]?.any p)
    (limit : ℕ) : l.newest indices limit = (l.events.reverse.filter p).take limit := by
  have hall : ((indices.getD []).reverse).map (l.events[·]?) =
      (l.events.reverse.filter p).map some := by
    rw [List.filter_reverse, List.map_reverse, List.map_reverse, ← filterMap_filter_range, ← h]
    refine congrArg List.reverse (map_getElem?_eq fun i hi => ?_)
    rw [h] at hi
    exact List.mem_range.mp (List.mem_of_mem_filter hi)
  have htake : ((indices.getD []).reverse.take limit).map (l.events[·]?) =
      ((l.events.reverse.filter p).take limit).map some := by
    rw [List.map_take, hall, List.map_take]
  have hfilter : ∀ is : List ℕ, is.filterMap (l.events[·]?) =
      (is.map (l.events[·]?)).filterMap id := by
    intro is
    rw [List.filterMap_map]
    rfl
  rw [SymbolEventLog.newest, hfilter, htake, List.filterMap_map]
  exact List.filterMap_some

/-- A query is a scan, unless it is for a symbol and a file whose events were not looked at. -/
lemma SymbolsIndexed.query_eq_iff (h : SymbolsIndexed l) (symbolName filePath : Option String)
    (limit : ℕ) : l.query symbolName filePath limit = l.scan symbolName filePath limit ↔
      ∀ s ∈ symbolName, ∀ f ∈ filePath, l.Prefetched s f limit := by
  cases symbolName with
  | none =>
    refine iff_of_true ?_ (by simp)
    cases filePath with
    | none => simp [SymbolEventLog.query, SymbolEventLog.scan]
    | some f =>
      rw [SymbolEventLog.query, SymbolEventLog.queryByFile, newest_eq (h.files f)]
      simp [SymbolEventLog.scan]
  | some s =>
    cases filePath with
    | none =>
      refine iff_of_true ?_ (by simp)
      rw [SymbolEventLog.query, SymbolEventLog.queryBySymbol, newest_eq (h.names s)]
      simp [SymbolEventLog.scan]
    | some f =>
      have hscan : l.scan (some s) (some f) limit =
          ((l.ofSymbol s).filter (·.filePath = f)).take limit := by
        rw [SymbolEventLog.scan, SymbolEventLog.ofSymbol, List.filter_filter]
        simp only [Option.all_some, Bool.and_comm]
      rw [hscan, SymbolEventLog.query, SymbolEventLog.queryBySymbol, newest_eq (h.names s)]
      refine (take_filter_take_eq_iff ..).trans ?_
      simp [SymbolEventLog.Prefetched, SymbolEventLog.ofSymbol]

end Queries

/-! ## Ids -/

/-- A log with the ids that it has given itself. -/
structure AssignedLog where
  log : SymbolEventLog
  assigned : List ℕ

namespace AssignedLog

def new : AssignedLog := ⟨.new, []⟩

/-- Log an event, as a call or in a replay. -/
def live (a : AssignedLog) (ev : SymbolEvent) : AssignedLog × List Unit :=
  (⟨(a.log.log ev).1, if ev.id = 0 then a.assigned ++ [(a.log.log ev).2] else a.assigned⟩, [])

/-- The counter does not wrap, and an event does not come with an id that the log gave. -/
def FreshId (a : AssignedLog) (ev : SymbolEvent) : Prop :=
  if ev.id = 0 then a.log.nextId + 1 < 2 ^ 64 else ev.id + 1 < 2 ^ 64 ∧ ev.id ∉ a.assigned

instance (a : AssignedLog) (ev : SymbolEvent) : Decidable (a.FreshId ev) :=
  inferInstanceAs (Decidable (if ev.id = 0 then a.log.nextId + 1 < 2 ^ 64
    else ev.id + 1 < 2 ^ 64 ∧ ev.id ∉ a.assigned))

end AssignedLog

/-- The events that came with id 0 have ids that no other event has. -/
def OwnIds (given : List SymbolEvent) (l : SymbolEventLog) : Prop :=
  ∀ (i j : ℕ) (ev : SymbolEvent) (x y : SymbolEvent), i ≠ j → given[i]? = some ev → ev.id = 0 →
    l.events[i]? = some x → l.events[j]? = some y → x.id ≠ y.id

/-- What is kept along a run whose ids are fresh. -/
structure IdsOk (given : List SymbolEvent) (a : AssignedLog) : Prop where
  length : given.length = a.log.events.length
  below : ∀ e ∈ a.log.events, e.id ≤ a.log.nextId
  assigned : ∀ (i : ℕ) (ev x : SymbolEvent), given[i]? = some ev → ev.id = 0 →
    a.log.events[i]? = some x → x.id ∈ a.assigned
  own : OwnIds given a.log

lemma idsOk_new : IdsOk [] .new :=
  ⟨rfl, List.forall_mem_nil _, fun _ _ _ hi => by simp at hi,
    fun _ _ _ _ _ _ hi => by simp at hi⟩

lemma IdsOk.live {given : List SymbolEvent} {a : AssignedLog} (h : IdsOk given a) {ev : SymbolEvent}
    (hfresh : a.FreshId ev) : IdsOk (given ++ [ev]) (a.live ev).1 := by
  -- the new event has an id of its own, or one that no event has that got its id from the log
  have hnew : (∀ e ∈ a.log.events, ev.id = 0 → e.id ≠ (a.log.log ev).2) ∧
      (∀ id ∈ a.assigned, id ∈ a.log.events.map (·.id) → id ≠ (a.log.log ev).2) ∧
      (a.log.log ev).2 ≤ (a.log.log ev).1.nextId ∧ a.log.nextId ≤ (a.log.log ev).1.nextId := by
    unfold AssignedLog.FreshId at hfresh
    unfold SymbolEventLog.log SymbolEventLog.assign
    split_ifs at hfresh ⊢ with hzero hlt
    · dsimp only
      rw [Nat.mod_eq_of_lt hfresh]
      refine ⟨fun e he _ => ?_, fun id _ hid => ?_, le_rfl, Nat.le_succ _⟩
      · have hle := h.below e he
        omega
      · obtain ⟨e, he, rfl⟩ := List.mem_map.mp hid
        have hle := h.below e he
        omega
    · dsimp only
      rw [Nat.mod_eq_of_lt hfresh.1]
      refine ⟨fun e _ hz => absurd hz hzero, fun id hid _ heq => hfresh.2 (heq ▸ hid), by omega,
        by omega⟩
    · dsimp only
      exact ⟨fun e _ hz => absurd hz hzero, fun id hid _ heq => hfresh.2 (heq ▸ hid), by omega,
        le_rfl⟩
  obtain ⟨hnone, hassigned, hid, hnext⟩ := hnew
  have hevents : (a.live ev).1.log.events = a.log.events ++ [{ ev with id := (a.log.log ev).2 }] :=
    rfl
  have hin : ∀ (i : ℕ) (x : SymbolEvent), (a.live ev).1.log.events[i]? = some x →
      (a.log.events[i]? = some x) ∨
        (i = a.log.events.length ∧ x = { ev with id := (a.log.log ev).2 }) := by
    intro i x hx
    rw [hevents, List.getElem?_append] at hx
    split_ifs at hx with hlt
    · exact Or.inl hx
    · rw [List.getElem?_singleton] at hx
      split_ifs at hx with hi
      exact Or.inr ⟨by omega, (Option.some.inj hx).symm⟩
  have hgiven : ∀ (i : ℕ) (ev' : SymbolEvent), (given ++ [ev])[i]? = some ev' →
      i < a.log.events.length → given[i]? = some ev' := by
    intro i ev' hi hlt
    rwa [List.getElem?_append_left (by rw [h.length]; exact hlt)] at hi
  have hlast : ∀ ev', (given ++ [ev])[a.log.events.length]? = some ev' → ev' = ev := by
    intro ev' hi
    rw [← h.length, List.getElem?_concat_length] at hi
    exact (Option.some.inj hi).symm
  have hinside : ∀ {i : ℕ} {x : SymbolEvent}, a.log.events[i]? = some x → i < a.log.events.length :=
    fun hx => (List.getElem?_eq_some_iff.mp hx).1
  have hkept : ∀ id ∈ a.assigned, id ∈ (a.live ev).1.assigned := by
    intro id hid
    unfold AssignedLog.live
    dsimp only
    split_ifs
    · exact List.mem_append_left _ hid
    · exact hid
  refine ⟨?_, ?_, fun i ev' x hi hz hx => ?_, fun i j ev' x y hij hi hz hx hy => ?_⟩
  · rw [hevents, List.length_append, List.length_append, h.length]
    rfl
  · rw [hevents]
    exact List.forall_mem_append.mpr ⟨fun e he => (h.below e he).trans hnext, List.forall_mem_singleton.mpr hid⟩
  · rcases hin i x hx with hx | ⟨rfl, rfl⟩
    · exact hkept _ (h.assigned i ev' x (hgiven i ev' hi (hinside hx)) hz hx)
    · obtain rfl := hlast ev' hi
      unfold AssignedLog.live
      dsimp only
      rw [if_pos hz]
      exact List.mem_concat_self
  · rcases hin i x hx with hx | ⟨rfl, rfl⟩
    · have hi' := hgiven i ev' hi (hinside hx)
      rcases hin j y hy with hy | ⟨rfl, rfl⟩
      · exact h.own i j ev' x y hij hi' hz hx hy
      · exact hassigned x.id (h.assigned i ev' x hi' hz hx)
          (List.mem_map_of_mem (List.mem_of_getElem? hx))
    · obtain rfl := hlast ev' hi
      rcases hin j y hy with hy | ⟨rfl, -⟩
      · exact (hnone y (List.mem_of_getElem? hy) hz).symm
      · exact absurd rfl hij

/-! ## Runs -/

lemma idsOk_run {rest done : List SymbolEvent} {a : AssignedLog}
    (hall : Replayed.All AssignedLog.live AssignedLog.FreshId a rest) (h : IdsOk done a) :
    IdsOk (done ++ rest) (Replayed.run AssignedLog.live a rest).1 := by
  induction rest generalizing done a with
  | nil =>
    rw [List.append_nil]
    exact h
  | cons ev rest ih =>
    have hdone := ih hall.2 (h.live hall.1)
    rwa [List.append_assoc, List.singleton_append] at hdone

/-- The log behind some events. -/
def SymbolEventLog.after (given : List SymbolEvent) : SymbolEventLog :=
  (Replayed.run AssignedLog.live .new given).1.log

/-- Behind every run a query is a scan iff, where it is for a symbol and a file, the events that it
looks at have enough of the file or all of them; and the log's own ids are no other event's as long as
no event comes with one of them and the counter does not wrap. -/
theorem symbol_events (given : List SymbolEvent) :
    (∀ symbolName filePath limit,
      (SymbolEventLog.after given).query symbolName filePath limit =
          (SymbolEventLog.after given).scan symbolName filePath limit ↔
        ∀ s ∈ symbolName, ∀ f ∈ filePath, (SymbolEventLog.after given).Prefetched s f limit) ∧
      (Replayed.All AssignedLog.live AssignedLog.FreshId .new given →
        OwnIds given (SymbolEventLog.after given)) := by
  refine ⟨fun symbolName filePath limit => ?_, fun hall => ?_⟩
  · have hnew : SymbolsIndexed AssignedLog.new.log := symbolsIndexed_new
    have hstep : ∀ (a : AssignedLog) ev, SymbolsIndexed a.log → SymbolsIndexed (a.live ev).1.log :=
      fun _ ev h => h.log ev
    have hindexed : SymbolsIndexed (SymbolEventLog.after given) :=
      Replayed.invariant_always (fun a : AssignedLog => SymbolsIndexed a.log) hstep hnew given
    exact hindexed.query_eq_iff symbolName filePath limit
  · exact (idsOk_run hall idsOk_new).own

section Missed

/-- An event of symbol `s` in a file. -/
def eventIn (id : ℕ) (file : String) : SymbolEvent :=
  ⟨id, "s", file, none, .edited, "", "", none, 0, none⟩

/-- Two events without an id, and between them one that comes with an id from elsewhere. -/
theorem symbol_events_three :
    let given := [eventIn 0 "a", eventIn 5 "b", eventIn 0 "a"]
    (SymbolEventLog.after given).events.map (·.id) = [1, 5, 7] ∧ OwnIds given (.after given) :=
  ⟨by decide +kernel, (symbol_events _).2 (by decide +kernel)⟩

/-- Three events are logged; the newest one in another file hides, with one more, the only match. -/
theorem match_is_missed :
    (SymbolEventLog.after [eventIn 0 "a", eventIn 0 "b", eventIn 0 "b"]).query (some "s") (some "a") 1 =
        [] ∧
      (SymbolEventLog.after [eventIn 0 "a", eventIn 0 "b", eventIn 0 "b"]).scan (some "s") (some "a") 1 =
        [eventIn 1 "a"] ∧
      ¬OwnIds [eventIn 0 "a", eventIn 1 "b"] (.after [eventIn 0 "a", eventIn 1 "b"]) := by
  refine ⟨by decide +kernel, by decide +kernel, fun h => ?_⟩
  exact h 0 1 (eventIn 0 "a") (eventIn 1 "a") (eventIn 1 "b") (by decide) rfl rfl rfl rfl rfl

end Missed

end ChittaField
