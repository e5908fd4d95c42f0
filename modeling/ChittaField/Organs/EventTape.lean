import ChittaField.Lib.Interning
import ChittaField.Organs.Hdc
import ChittaField.Store.KeyText

/-!
# The event tape

What an agent did is a sequence of events.  The tools and the entities are interned: an event has
the number of its tool in 16 bits, that of its entity in 32 bits and an outcome in 8 bits, and packs
them into one symbol.  An entity is known by a hash of its canonical text.

`symbols_faithful_iff` says along which calls the symbols tell the events apart, and tell them from
what was never interned.
-/

namespace ChittaField

open Interning

/-! ## Canonical texts -/

/-- The host of an address: what stands behind the first two slashes, up to the next one. -/
def hostname : List Char → Option (List Char)
  | [] => none
  | c :: rest =>
    match stripPrefix "//" (c :: rest) with
    | some host => some (host.takeWhile (· != '/'))
    | none => hostname rest

/-- The text by which an entity is known; `home` is the variable of the environment. -/
def canonicalizeEntity (T : Casing) (home : Option String) (entity : String) : String :=
  let chars := entity.toList
  if chars.contains '/' || chars.contains '\\' then
    match home.bind fun home => stripPrefix home chars with
    | some rel => String.ofList (rel.dropWhile (· == '/'))
    | none => String.ofList (chars.dropWhile (· == '/'))
  else
    let isUrl := "http://".toList.isPrefixOf chars || "https://".toList.isPrefixOf chars
    match if isUrl then hostname chars else none with
    | some host => String.ofList host
    | none =>
      if "::".toList <:+: chars then T.toLowercase entity
      else
        T.toLowercase (String.ofList ((chars.filter fun c =>
          T.isAlphanumeric c || c == '_' || c == '-' || c == '.').take 40))

/-- The hash by which an entity is known. -/
def entityHash (canon : String) : UInt64 :=
  Hdc.fnv1a64 (canon.toList.flatMap String.utf8EncodeChar)

/-! ## The tape -/

/-- An event; the outcome is 0 where it was a success. -/
structure TurnEvent where
  turnId : UInt32
  toolId : UInt16
  entityKey : UInt32
  outcomeClass : UInt8
  sessionId : UInt64
  tsMs : ℤ
  deriving DecidableEq

/-- The symbol of an event. -/
def TurnEvent.pack (e : TurnEvent) : ℕ :=
  (e.toolId.toNat <<< 40) ||| (e.outcomeClass.toNat <<< 32) ||| e.entityKey.toNat

/-- The events with the names they are read with. -/
structure EventTape where
  events : List TurnEvent
  toolNames : List String
  toolInterner : String → Option UInt16
  entityNames : List String
  entityInterner : UInt64 → Option UInt32

namespace EventTape

/-- Nothing happened. -/
def new : EventTape := ⟨[], [], fun _ => none, [], fun _ => none⟩

/-- The number of a tool. -/
def internTool (tape : EventTape) (tool : String) : UInt16 × EventTape :=
  match tape.toolInterner tool with
  | some id => (id, tape)
  | none =>
    let id := UInt16.ofNat tape.toolNames.length
    (id, { tape with
      toolNames := tape.toolNames ++ [tool]
      toolInterner := Function.update tape.toolInterner tool (some id) })

variable (T : Casing) (home : Option String)

/-- The number of an entity. -/
def internEntity (tape : EventTape) (entity : String) : UInt32 × EventTape :=
  let canon := canonicalizeEntity T home entity
  let hash := entityHash canon
  match tape.entityInterner hash with
  | some id => (id, tape)
  | none =>
    let id := UInt32.ofNat tape.entityNames.length
    (id, { tape with
      entityNames := tape.entityNames ++ [canon]
      entityInterner := Function.update tape.entityInterner hash (some id) })

/-- The numbers of a tool and of an entity. -/
def intern (tape : EventTape) (tool entity : String) : UInt16 × UInt32 × EventTape :=
  let (toolId, tape) := tape.internTool tool
  let (entityKey, tape) := tape.internEntity T home entity
  (toolId, entityKey, tape)

/-- Append an event; its symbol. -/
def log (tape : EventTape) (tool entity : String) (outcome : UInt8) (sessionId : UInt64)
    (tsMs : ℤ) : ℕ × EventTape :=
  let (toolId, entityKey, tape) := tape.intern T home tool entity
  let turnId := UInt32.ofNat tape.events.length
  let ev : TurnEvent := ⟨turnId, toolId, entityKey, outcome, sessionId, tsMs⟩
  (ev.pack, { tape with events := tape.events ++ [ev] })

/-- The symbol of an event that does not happen; its names are interned. -/
def symbolOf (tape : EventTape) (tool entity : String) (outcome : UInt8) : ℕ × EventTape :=
  let (toolId, entityKey, tape) := tape.intern T home tool entity
  ((⟨0, toolId, entityKey, outcome, 0, 0⟩ : TurnEvent).pack, tape)

/-- The symbol of an event that does not happen; 0 if one of its names is not interned. -/
def symbolOfRo (tape : EventTape) (tool entity : String) (outcome : UInt8) : ℕ :=
  match tape.toolInterner tool with
  | none => 0
  | some toolId =>
    match tape.entityInterner (entityHash (canonicalizeEntity T home entity)) with
    | none => 0
    | some entityKey => (⟨0, toolId, entityKey, outcome, 0, 0⟩ : TurnEvent).pack

/-- Intern the subjects of triplets. -/
def seedFromTriplets (tape : EventTape) (subjects : List String) : EventTape :=
  subjects.foldl (fun tape s => (tape.internEntity T home s).2) tape

/-- The name of a tool. -/
def toolName (tape : EventTape) (id : UInt16) : String := (tape.toolNames[id.toNat]?).getD "unknown"

/-- The name of an entity. -/
def entityName (tape : EventTape) (key : UInt32) : String :=
  (tape.entityNames[key.toNat]?).getD "unknown"

/-- The symbols of the last events. -/
def lastNSyms (tape : EventTape) (n : ℕ) : List ℕ :=
  (tape.events.drop (tape.events.length - n)).map TurnEvent.pack

/-- Remove the events that are marked; how many marks there are.  What came behind the marks stays. -/
def applyRemovals (tape : EventTape) (remove : List Bool) : ℕ × EventTape :=
  let removed := remove.count true
  if removed = 0 then (0, tape)
  else
    (removed, { tape with
      events := ((tape.events.zipIdx).filter fun e => !remove.getD e.2 false).map Prod.fst })

end EventTape

/-! ## Calls -/

/-- What was done. -/
structure Action where
  tool : String
  entity : String
  outcome : UInt8
  deriving DecidableEq

/-- A call on the tape. -/
inductive TapeCall where
  | log (a : Action) (sessionId : UInt64) (tsMs : ℤ)
  | symbolOf (a : Action)
  | symbolOfRo (a : Action)

/-- The action whose names a call interns. -/
def TapeCall.interned : TapeCall → Option Action
  | .log a _ _ => some a
  | .symbolOf a => some a
  | .symbolOfRo _ => none

/-- The action that a call logs. -/
def TapeCall.logged : TapeCall → Option Action
  | .log a _ _ => some a
  | .symbolOf _ => none
  | .symbolOfRo _ => none

namespace EventTape

variable (T : Casing) (home : Option String)

/-- Make a call. -/
def call (tape : EventTape) : TapeCall → EventTape
  | .log a sessionId tsMs => (tape.log T home a.tool a.entity a.outcome sessionId tsMs).2
  | .symbolOf a => (tape.symbolOf T home a.tool a.entity a.outcome).2
  | .symbolOfRo _ => tape

/-- Make calls on a new tape. -/
def run (calls : List TapeCall) : EventTape := calls.foldl (call T home) new

end EventTape

/-- The tools in the order in which calls first name them. -/
def toolsOf (calls : List TapeCall) : List String :=
  firsts ((calls.filterMap TapeCall.interned).map Action.tool)

/-- The hashes of entities in the order in which calls first name them. -/
def hashesOf (T : Casing) (home : Option String) (calls : List TapeCall) : List UInt64 :=
  firsts ((calls.filterMap TapeCall.interned).map fun a =>
    entityHash (canonicalizeEntity T home a.entity))

section

variable (T : Casing) (home : Option String)

/-- Two actions have the same tool, canonical entity and outcome. -/
structure Action.Same (a b : Action) : Prop where
  tool : a.tool = b.tool
  entity : canonicalizeEntity T home a.entity = canonicalizeEntity T home b.entity
  outcome : a.outcome = b.outcome

/-- The tool or the canonical entity of an action was never interned. -/
def Uninterned (calls : List TapeCall) (a : Action) : Prop :=
  (∀ b ∈ calls.filterMap TapeCall.interned, b.tool ≠ a.tool) ∨
    ∀ b ∈ calls.filterMap TapeCall.interned,
      canonicalizeEntity T home b.entity ≠ canonicalizeEntity T home a.entity

/-- The symbols tell the events apart, and the probes for what was never interned from the events
before them. -/
structure SymbolsFaithful (calls : List TapeCall) : Prop where
  logged : ∀ (i j : ℕ) (e e' : TurnEvent) (a a' : Action),
    (EventTape.run T home calls).events[i]? = some e →
    (EventTape.run T home calls).events[j]? = some e' →
    (calls.filterMap TapeCall.logged)[i]? = some a →
    (calls.filterMap TapeCall.logged)[j]? = some a' → (e.pack = e'.pack ↔ a.Same T home a')
  probed : ∀ (before : List TapeCall) (a : Action), before ++ [.symbolOfRo a] <+: calls →
    Uninterned T home before a → ∀ e ∈ (EventTape.run T home before).events,
      (EventTape.run T home before).symbolOfRo T home a.tool a.entity a.outcome ≠ e.pack

/-- The outcomes of two actions are equal, and the tools and the hashes of the entities were first
named at positions that 16 and 32 bits do not tell apart. -/
structure Clash (calls : List TapeCall) (a b : Action) : Prop where
  outcome : a.outcome = b.outcome
  tool : (toolsOf calls).idxOf a.tool ≡ (toolsOf calls).idxOf b.tool [MOD 2 ^ 16]
  entity : (hashesOf T home calls).idxOf (entityHash (canonicalizeEntity T home a.entity)) ≡
    (hashesOf T home calls).idxOf (entityHash (canonicalizeEntity T home b.entity)) [MOD 2 ^ 32]

/-- The outcome of an action is 0, and its tool and the hash of its entity were first named at
positions that 16 and 32 bits do not tell from the first one. -/
structure IsZero (calls : List TapeCall) (a : Action) : Prop where
  outcome : a.outcome = 0
  tool : (toolsOf calls).idxOf a.tool ≡ 0 [MOD 2 ^ 16]
  entity : (hashesOf T home calls).idxOf (entityHash (canonicalizeEntity T home a.entity)) ≡ 0
    [MOD 2 ^ 32]

/-- Logged actions that differ do not clash; nor, where a probe asks for what was never interned,
does a logged action have the symbol 0 or, where the tool and the hash are known, clash with it. -/
structure SymbolsApart (calls : List TapeCall) : Prop where
  logged : ∀ a ∈ calls.filterMap TapeCall.logged, ∀ b ∈ calls.filterMap TapeCall.logged,
    Clash T home calls a b → a.Same T home b
  probed : ∀ (before : List TapeCall) (a : Action), before ++ [.symbolOfRo a] <+: calls →
    Uninterned T home before a → ∀ b ∈ before.filterMap TapeCall.logged,
      if a.tool ∈ toolsOf before ∧
          entityHash (canonicalizeEntity T home a.entity) ∈ hashesOf T home before then
        ¬Clash T home before a b
      else ¬IsZero T home before b

end

/-! ## Symbols -/

/-- What a symbol is made of. -/
def TurnEvent.slot (e : TurnEvent) : UInt16 × UInt8 × UInt32 :=
  (e.toolId, e.outcomeClass, e.entityKey)

lemma TurnEvent.pack_eq (e : TurnEvent) :
    e.pack = e.toolId.toNat * 2 ^ 40 + e.outcomeClass.toNat * 2 ^ 32 + e.entityKey.toNat := by
  have ho := e.outcomeClass.toNat_lt
  have hk : e.entityKey.toNat < 2 ^ 32 := e.entityKey.toNat_lt
  have hlow := Nat.shiftLeft_add_eq_or_of_lt hk e.outcomeClass.toNat
  have hlt : e.outcomeClass.toNat <<< 32 + e.entityKey.toNat < 2 ^ 40 := by
    rw [Nat.shiftLeft_eq]
    omega
  have hhigh := Nat.shiftLeft_add_eq_or_of_lt hlt e.toolId.toNat
  rw [TurnEvent.pack, Nat.or_assoc, ← hlow, ← hhigh, Nat.shiftLeft_eq, Nat.shiftLeft_eq]
  omega

/-- A symbol says what it is made of. -/
lemma TurnEvent.pack_eq_iff (e e' : TurnEvent) : e.pack = e'.pack ↔ e.slot = e'.slot := by
  rw [pack_eq, pack_eq, slot, slot, Prod.mk_inj, Prod.mk_inj, ← UInt16.toNat_inj, ← UInt8.toNat_inj,
    ← UInt32.toNat_inj]
  have ho := e.outcomeClass.toNat_lt
  have hk : e.entityKey.toNat < 2 ^ 32 := e.entityKey.toNat_lt
  have ho' := e'.outcomeClass.toNat_lt
  have hk' : e'.entityKey.toNat < 2 ^ 32 := e'.entityKey.toNat_lt
  omega

/-! ## Interning -/

/-- The names of a tape. -/
structure TapeNames (tools : List String) (hashes : List UInt64) (tape : EventTape) : Prop where
  toolNames : tape.toolNames = tools
  tools : Interns UInt16.ofNat tools tape.toolInterner
  entityNames : tape.entityNames.length = hashes.length
  entities : Interns UInt32.ofNat hashes tape.entityInterner

variable {T : Casing} {home : Option String} {tools : List String} {hashes : List UInt64}
  {tape : EventTape} {calls : List TapeCall}

lemma tapeNames_new : TapeNames [] [] .new := ⟨rfl, interns_nil, rfl, interns_nil⟩

lemma TapeNames.internTool (h : TapeNames tools hashes tape) (tool : String) :
    ∃ tape', tape.internTool tool = (UInt16.ofNat ((note tools tool).idxOf tool), tape') ∧
      tape'.events = tape.events ∧ TapeNames (note tools tool) hashes tape' := by
  unfold EventTape.internTool
  by_cases htool : tool ∈ tools
  · rw [h.tools.eq_some htool, note_of_mem htool]
    exact ⟨tape, rfl, rfl, h⟩
  · rw [h.tools.eq_none_iff.mpr htool, note_of_notMem htool, List.idxOf_append_of_notMem htool,
      List.idxOf_cons_self, Nat.add_zero, h.toolNames]
    exact ⟨_, rfl, rfl, rfl, h.tools.update htool, h.entityNames, h.entities⟩

lemma TapeNames.internEntity (h : TapeNames tools hashes tape) (T : Casing) (home : Option String)
    (entity : String) :
    ∃ tape', tape.internEntity T home entity =
        (UInt32.ofNat ((note hashes (entityHash (canonicalizeEntity T home entity))).idxOf
          (entityHash (canonicalizeEntity T home entity))), tape') ∧
      tape'.events = tape.events ∧
      TapeNames tools (note hashes (entityHash (canonicalizeEntity T home entity))) tape' := by
  unfold EventTape.internEntity
  generalize canonicalizeEntity T home entity = canon
  by_cases hhash : entityHash canon ∈ hashes
  · rw [note_of_mem hhash]
    dsimp only
    rw [h.entities.eq_some hhash]
    exact ⟨tape, rfl, rfl, h⟩
  · rw [note_of_notMem hhash, List.idxOf_append_of_notMem hhash, List.idxOf_cons_self, Nat.add_zero]
    dsimp only
    rw [h.entities.eq_none_iff.mpr hhash, h.entityNames]
    refine ⟨_, rfl, rfl, h.toolNames, h.tools, ?_, h.entities.update hhash⟩
    rw [List.length_append, List.length_append, h.entityNames]
    rfl

/-- What is made of an action whose names are known. -/
def slotOf (T : Casing) (home : Option String) (tools : List String) (hashes : List UInt64)
    (a : Action) : UInt16 × UInt8 × UInt32 :=
  (UInt16.ofNat (tools.idxOf a.tool), a.outcome,
    UInt32.ofNat (hashes.idxOf (entityHash (canonicalizeEntity T home a.entity))))

/-- The tools, once an action is interned. -/
def toolsWith (tools : List String) (a : Action) : List String := note tools a.tool

/-- The hashes, once an action is interned. -/
def hashesWith (T : Casing) (home : Option String) (hashes : List UInt64) (a : Action) :
    List UInt64 :=
  note hashes (entityHash (canonicalizeEntity T home a.entity))

/-- An action that is interned gets its numbers. -/
lemma TapeNames.intern (h : TapeNames tools hashes tape) (a : Action) :
    ∃ toolId entityKey tape', tape.intern T home a.tool a.entity = (toolId, entityKey, tape') ∧
      (toolId, a.outcome, entityKey) =
        slotOf T home (toolsWith tools a) (hashesWith T home hashes a) a ∧
      tape'.events = tape.events ∧
      TapeNames (toolsWith tools a) (hashesWith T home hashes a) tape' := by
  obtain ⟨tape₁, htool, hevents₁, h₁⟩ := h.internTool a.tool
  obtain ⟨tape₂, hentity, hevents₂, h₂⟩ := h₁.internEntity T home a.entity
  refine ⟨_, _, tape₂, ?_, rfl, hevents₂.trans hevents₁, h₂⟩
  rw [EventTape.intern, htool]
  dsimp only
  rw [hentity]
  rfl

/-- A tape with what is made of the actions that were logged. -/
structure TapeRecords (T : Casing) (home : Option String) (calls : List TapeCall)
    (tape : EventTape) : Prop where
  tracks : TapeNames (toolsOf calls) (hashesOf T home calls) tape
  slots : tape.events.map TurnEvent.slot =
    (calls.filterMap TapeCall.logged).map (slotOf T home (toolsOf calls) (hashesOf T home calls))

lemma filterMap_concat_some {α β : Type*} {f : α → Option β} {c : α} {b : β} (h : f c = some b)
    (l : List α) : (l ++ [c]).filterMap f = l.filterMap f ++ [b] := by
  rw [List.filterMap_append, List.filterMap_cons_some h, List.filterMap_nil]

lemma filterMap_concat_none {α β : Type*} {f : α → Option β} {c : α} (h : f c = none)
    (l : List α) : (l ++ [c]).filterMap f = l.filterMap f := by
  rw [List.filterMap_append, List.filterMap_cons_none h, List.filterMap_nil, List.append_nil]

variable {a : Action}

lemma toolsOf_concat {c : TapeCall} (h : c.interned = some a) :
    toolsOf (calls ++ [c]) = toolsWith (toolsOf calls) a := by
  rw [toolsOf, filterMap_concat_some h, List.map_append, List.map_singleton, firsts_concat]
  rfl

lemma hashesOf_concat {c : TapeCall} (h : c.interned = some a) :
    hashesOf T home (calls ++ [c]) = hashesWith T home (hashesOf T home calls) a := by
  rw [hashesOf, filterMap_concat_some h, List.map_append, List.map_singleton, firsts_concat]
  rfl

lemma mem_toolsOf {tool : String} :
    tool ∈ toolsOf calls ↔ ∃ b ∈ calls.filterMap TapeCall.interned, b.tool = tool := by
  rw [toolsOf, mem_firsts, List.mem_map]

lemma mem_hashesOf {hash : UInt64} : hash ∈ hashesOf T home calls ↔
    ∃ b ∈ calls.filterMap TapeCall.interned,
      entityHash (canonicalizeEntity T home b.entity) = hash := by
  rw [hashesOf, mem_firsts, List.mem_map]

/-- What is logged is interned. -/
lemma mem_interned_of_logged (h : a ∈ calls.filterMap TapeCall.logged) :
    a ∈ calls.filterMap TapeCall.interned := by
  obtain ⟨c, hc, hlogged⟩ := List.mem_filterMap.mp h
  refine List.mem_filterMap.mpr ⟨c, hc, ?_⟩
  cases c with
  | log => exact hlogged
  | symbolOf b => cases hlogged
  | symbolOfRo b => cases hlogged

/-- What is made of an action stays when another one is interned. -/
lemma slotOf_with (htool : a.tool ∈ tools)
    (hhash : entityHash (canonicalizeEntity T home a.entity) ∈ hashes) (b : Action) :
    slotOf T home (toolsWith tools b) (hashesWith T home hashes b) a =
      slotOf T home tools hashes a := by
  rw [slotOf, toolsWith, hashesWith, idxOf_note htool, idxOf_note hhash]
  rfl

lemma map_slotOf_with (b : Action) :
    (calls.filterMap TapeCall.logged).map (slotOf T home (toolsWith (toolsOf calls) b)
        (hashesWith T home (hashesOf T home calls) b)) =
      (calls.filterMap TapeCall.logged).map
        (slotOf T home (toolsOf calls) (hashesOf T home calls)) := by
  refine List.map_congr_left fun a ha => ?_
  have hint := mem_interned_of_logged ha
  exact slotOf_with (mem_toolsOf.mpr ⟨a, hint, rfl⟩) (mem_hashesOf.mpr ⟨a, hint, rfl⟩) b

/-- A call is recorded. -/
lemma TapeRecords.call (h : TapeRecords T home calls tape) (c : TapeCall) :
    TapeRecords T home (calls ++ [c]) (tape.call T home c) := by
  cases c with
  | log a sessionId tsMs =>
    obtain ⟨toolId, entityKey, tape', hintern, hslot, hevents, htracks⟩ := h.tracks.intern a
    have hcall : tape.call T home (.log a sessionId tsMs) = { tape' with
        events := tape'.events ++ [⟨UInt32.ofNat tape'.events.length, toolId, entityKey, a.outcome,
          sessionId, tsMs⟩] } := by
      rw [EventTape.call, EventTape.log, hintern]
    rw [hcall]
    have hsome : (TapeCall.log a sessionId tsMs).interned = some a := rfl
    refine ⟨?_, ?_⟩
    · rw [toolsOf_concat hsome, hashesOf_concat hsome]
      exact ⟨htracks.toolNames, htracks.tools, htracks.entityNames, htracks.entities⟩
    · rw [toolsOf_concat hsome, hashesOf_concat hsome,
        filterMap_concat_some (f := TapeCall.logged) (c := .log a sessionId tsMs) rfl,
        List.map_append, List.map_append, map_slotOf_with, ← h.slots, hevents]
      exact congrArg _ (congrArg (fun slot => [slot]) hslot)
  | symbolOf a =>
    obtain ⟨toolId, entityKey, tape', hintern, -, hevents, htracks⟩ := h.tracks.intern a
    have hcall : tape.call T home (.symbolOf a) = tape' := by
      rw [EventTape.call, EventTape.symbolOf, hintern]
    rw [hcall]
    have hsome : (TapeCall.symbolOf a).interned = some a := rfl
    refine ⟨?_, ?_⟩
    · rw [toolsOf_concat hsome, hashesOf_concat hsome]
      exact htracks
    · rw [toolsOf_concat hsome, hashesOf_concat hsome,
        filterMap_concat_none (f := TapeCall.logged) (c := .symbolOf a) rfl, map_slotOf_with,
        ← h.slots, hevents]
  | symbolOfRo a =>
    have htools : toolsOf (calls ++ [.symbolOfRo a]) = toolsOf calls := by
      rw [toolsOf, filterMap_concat_none rfl]
      rfl
    have hhashes : hashesOf T home (calls ++ [.symbolOfRo a]) = hashesOf T home calls := by
      rw [hashesOf, filterMap_concat_none rfl]
      rfl
    refine ⟨?_, ?_⟩
    · rw [htools, hhashes]
      exact h.tracks
    · rw [htools, hhashes, filterMap_concat_none rfl]
      exact h.slots

/-- Calls are recorded. -/
lemma records_run (T : Casing) (home : Option String) (calls : List TapeCall) :
    TapeRecords T home calls (EventTape.run T home calls) := by
  induction calls using List.reverseRecOn with
  | nil => exact ⟨tapeNames_new, rfl⟩
  | append_singleton calls c ih =>
    rw [EventTape.run, List.foldl_append]
    exact ih.call c

/-! ## SymbolsFaithful symbols -/

lemma ofNat_uint16_eq_iff (m n : ℕ) : UInt16.ofNat m = UInt16.ofNat n ↔ m ≡ n [MOD 2 ^ 16] := by
  rw [← UInt16.toNat_inj, UInt16.toNat_ofNat', UInt16.toNat_ofNat']
  rfl

lemma ofNat_uint32_eq_iff (m n : ℕ) : UInt32.ofNat m = UInt32.ofNat n ↔ m ≡ n [MOD 2 ^ 32] := by
  rw [← UInt32.toNat_inj, UInt32.toNat_ofNat', UInt32.toNat_ofNat']
  rfl

lemma slotOf_eq_iff (a b : Action) :
    slotOf T home (toolsOf calls) (hashesOf T home calls) a =
        slotOf T home (toolsOf calls) (hashesOf T home calls) b ↔ Clash T home calls a b := by
  rw [slotOf, slotOf, Prod.mk_inj, Prod.mk_inj, ofNat_uint16_eq_iff, ofNat_uint32_eq_iff]
  constructor
  · rintro ⟨htool, houtcome, hentity⟩
    exact ⟨houtcome, htool, hentity⟩
  · rintro ⟨houtcome, htool, hentity⟩
    exact ⟨htool, houtcome, hentity⟩

lemma slotOf_eq_zero_iff (a : Action) :
    slotOf T home (toolsOf calls) (hashesOf T home calls) a = (0, 0, 0) ↔
      IsZero T home calls a := by
  rw [slotOf, Prod.mk_inj, Prod.mk_inj]
  have htool := ofNat_uint16_eq_iff ((toolsOf calls).idxOf a.tool) 0
  have hentity := ofNat_uint32_eq_iff ((hashesOf T home calls).idxOf
    (entityHash (canonicalizeEntity T home a.entity))) 0
  constructor
  · rintro ⟨h₁, h₂, h₃⟩
    exact ⟨h₂, htool.mp h₁, hentity.mp h₃⟩
  · rintro ⟨h₁, h₂, h₃⟩
    exact ⟨htool.mpr h₂, h₁, hentity.mpr h₃⟩

lemma Action.Same.clash {a b : Action} (h : a.Same T home b) : Clash T home calls a b :=
  ⟨h.outcome, by rw [h.tool], by rw [h.entity]⟩

/-- An event and the action it was logged for. -/
lemma TapeRecords.slot_eq (h : TapeRecords T home calls tape) {i : ℕ} {e : TurnEvent}
    (he : tape.events[i]? = some e) (ha : (calls.filterMap TapeCall.logged)[i]? = some a) :
    e.slot = slotOf T home (toolsOf calls) (hashesOf T home calls) a := by
  have hslots := congrArg (fun l => l[i]?) h.slots
  rw [List.getElem?_map, List.getElem?_map, he, ha] at hslots
  exact Option.some.inj hslots

lemma TapeRecords.pack_eq_iff (h : TapeRecords T home calls tape) {i j : ℕ} {e e' : TurnEvent}
    {a a' : Action} (he : tape.events[i]? = some e) (he' : tape.events[j]? = some e')
    (ha : (calls.filterMap TapeCall.logged)[i]? = some a)
    (ha' : (calls.filterMap TapeCall.logged)[j]? = some a') :
    e.pack = e'.pack ↔ Clash T home calls a a' := by
  rw [TurnEvent.pack_eq_iff, h.slot_eq he ha, h.slot_eq he' ha', slotOf_eq_iff]

/-- An action that was logged has an event. -/
lemma TapeRecords.exists_event (h : TapeRecords T home calls tape) {i : ℕ}
    (ha : (calls.filterMap TapeCall.logged)[i]? = some a) : ∃ e, tape.events[i]? = some e := by
  have hslots := congrArg (fun l => l[i]?) h.slots
  rw [List.getElem?_map, List.getElem?_map, ha, Option.map_some] at hslots
  obtain ⟨e, he, -⟩ := Option.map_eq_some_iff.mp hslots
  exact ⟨e, he⟩

/-- The symbol of a probe. -/
lemma TapeRecords.symbolOfRo (h : TapeRecords T home calls tape) (a : Action) :
    tape.symbolOfRo T home a.tool a.entity a.outcome =
      if a.tool ∈ toolsOf calls ∧
          entityHash (canonicalizeEntity T home a.entity) ∈ hashesOf T home calls then
        (⟨0, UInt16.ofNat ((toolsOf calls).idxOf a.tool),
          UInt32.ofNat ((hashesOf T home calls).idxOf
            (entityHash (canonicalizeEntity T home a.entity))), a.outcome, 0, 0⟩ : TurnEvent).pack
      else 0 := by
  unfold EventTape.symbolOfRo
  by_cases htool : a.tool ∈ toolsOf calls
  · rw [h.tracks.tools.eq_some htool]
    by_cases hhash : entityHash (canonicalizeEntity T home a.entity) ∈ hashesOf T home calls
    · rw [if_pos ⟨htool, hhash⟩]
      dsimp only
      rw [h.tracks.entities.eq_some hhash]
    · rw [if_neg fun hand => hhash hand.2]
      dsimp only
      rw [h.tracks.entities.eq_none_iff.mpr hhash]
  · rw [if_neg fun hand => htool hand.1, h.tracks.tools.eq_none_iff.mpr htool]

/-- A probe has the symbol of an event that was logged for an action. -/
lemma TapeRecords.symbolOfRo_eq_iff (h : TapeRecords T home calls tape) (a : Action) {i : ℕ}
    {e : TurnEvent} {b : Action} (he : tape.events[i]? = some e)
    (hb : (calls.filterMap TapeCall.logged)[i]? = some b) :
    tape.symbolOfRo T home a.tool a.entity a.outcome ≠ e.pack ↔
      if a.tool ∈ toolsOf calls ∧
          entityHash (canonicalizeEntity T home a.entity) ∈ hashesOf T home calls then
        ¬Clash T home calls a b
      else ¬IsZero T home calls b := by
  rw [h.symbolOfRo]
  split
  · rw [ne_eq, TurnEvent.pack_eq_iff, h.slot_eq he hb, ← slotOf_eq_iff]
    rfl
  · rw [← slotOf_eq_zero_iff, ← h.slot_eq he hb, ne_comm]
    exact (e.pack_eq_iff ⟨0, 0, 0, 0, 0, 0⟩).not

/-- The symbols are faithful along exactly the calls where the actions are told apart by the
positions at which their names were first used, and nothing has the symbol 0 when a probe asks for a
name that is not known. -/
theorem symbols_faithful_iff (T : Casing) (home : Option String) (calls : List TapeCall) :
    SymbolsFaithful T home calls ↔ SymbolsApart T home calls := by
  constructor
  · intro h
    refine ⟨fun a ha b hb hclash => ?_, fun before a hbefore hun b hb => ?_⟩
    · obtain ⟨i, hi⟩ := List.mem_iff_getElem?.mp ha
      obtain ⟨j, hj⟩ := List.mem_iff_getElem?.mp hb
      have hrec := records_run T home calls
      obtain ⟨e, he⟩ := hrec.exists_event hi
      obtain ⟨e', he'⟩ := hrec.exists_event hj
      exact (h.logged i j e e' a b he he' hi hj).mp ((hrec.pack_eq_iff he he' hi hj).mpr hclash)
    · obtain ⟨i, hi⟩ := List.mem_iff_getElem?.mp hb
      have hrec := records_run T home before
      obtain ⟨e, he⟩ := hrec.exists_event hi
      exact (hrec.symbolOfRo_eq_iff a he hi).mp
        (h.probed before a hbefore hun e (List.mem_of_getElem? he))
  · intro h
    refine ⟨fun i j e e' a a' he he' ha ha' => ?_, fun before a hbefore hun e he => ?_⟩
    · rw [(records_run T home calls).pack_eq_iff he he' ha ha']
      exact ⟨h.logged a (List.mem_of_getElem? ha) a' (List.mem_of_getElem? ha'), Action.Same.clash⟩
    · obtain ⟨i, hi⟩ := List.mem_iff_getElem?.mp he
      have hrec := records_run T home before
      have hlen := congrArg List.length hrec.slots
      rw [List.length_map, List.length_map] at hlen
      have hlt : i < (before.filterMap TapeCall.logged).length :=
        hlen ▸ (List.getElem?_eq_some_iff.mp hi).1
      have hb := List.getElem?_eq_getElem hlt
      exact (hrec.symbolOfRo_eq_iff a hi hb).mpr
        (h.probed before a hbefore hun _ (List.getElem_mem hlt))

/-- The first event has the symbol that stands for what is not interned. -/
theorem first_event_is_unknown : ¬SymbolsFaithful Casing.ascii none
    [.log ⟨"Read", "main", 0⟩ 0 0, .symbolOfRo ⟨"Bash", "main", 0⟩] := by
  intro h
  have hrec := records_run Casing.ascii none [.log ⟨"Read", "main", 0⟩ 0 0]
  obtain ⟨e, he⟩ := hrec.exists_event (i := 0) (a := ⟨"Read", "main", 0⟩) rfl
  have hne := h.probed [.log ⟨"Read", "main", 0⟩ 0 0] ⟨"Bash", "main", 0⟩ List.prefix_rfl
    (Or.inl (by decide)) e (List.mem_of_getElem? he)
  rw [hrec.symbolOfRo_eq_iff ⟨"Bash", "main", 0⟩ he rfl,
    if_neg fun hand => absurd hand.1 (by decide)] at hne
  refine hne ⟨rfl, rfl, ?_⟩
  rw [hashesOf]
  change (note [] _).idxOf _ ≡ 0 [MOD 2 ^ 32]
  rw [note_of_notMem List.not_mem_nil, List.nil_append, List.idxOf_cons_self]

end ChittaField
