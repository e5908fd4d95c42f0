import Mathlib.Data.UInt
import ChittaField.Lib.BitPlanes
import ChittaField.Organs.CdawgExact
import ChittaField.Organs.EventTape

/-!
# The cache of the organs

Two organs are made of the tape: the suffix automaton of its symbols and the bundles of its episodes.
A file keeps both, with the identity of the tape they were made of.  Where this is a prefix of the
current tape, they are brought up to date with what follows it, and else they are made anew.

`organs_cache_invisible` says that nobody sees the difference.
-/

namespace ChittaField

open Interning

variable {F : Type}

/-! ## Episodes -/

namespace Hdc

/-- Bind two vectors. -/
def bind (a b : HdcVec) : HdcVec := fun i => a i ^^^ b i

/-- The name of an outcome. -/
def outcomeClassName (c : UInt8) : String :=
  if c = 0 then "success" else if c = 1 then "fail" else if c = 2 then "error" else "partial"

/-- The vector of an episode: its tool, its entity and its outcome, each bound to its role. -/
def encodeEpisodeHv (T : Casing) (toolName entityName : String) (outcome : UInt8) : HdcVec :=
  let bt := bind (wordHv "ROLE:TOOL") (wordHv toolName)
  let be := bind (wordHv "ROLE:ENTITY") (encode T entityName)
  let bo := bind (wordHv "ROLE:OUTCOME") (wordHv (outcomeClassName outcome))
  fun i => bt i ^^^ (be i ^^^ bo i)

end Hdc

/-- How often each bit is set, in slices of one binary digit each. -/
structure EpBundle where
  planes : List HdcVec
  n : ℕ

namespace EpBundle

def default : EpBundle := ⟨[], 0⟩

/-- Add a vector.  The counters stop at 65535. -/
def add (b : EpBundle) (hv : HdcVec) : EpBundle :=
  let needed := min (Nat.log2 (min (b.n + 1) (2 ^ 32 - 1)) + 1) 16
  let planes := b.planes ++ List.replicate (needed - b.planes.length) fun _ => 0
  let column := fun wi => BitPlanes.addWord (planes.map fun plane => plane wi) (hv wi)
  { planes := (List.range planes.length).map fun i wi => (column wi).getD i 0
    n := (b.n + 1) % 2 ^ 32 }

end EpBundle

/-- The bundles of the episodes of each tool, entity and outcome. -/
structure EpisodeHdcStore where
  byTool : String → Option EpBundle
  byEntity : String → Option EpBundle
  byOutcome : String → Option EpBundle
  tools : Finset String
  entities : Finset String

namespace EpisodeHdcStore

def new : EpisodeHdcStore := ⟨fun _ => none, fun _ => none, fun _ => none, ∅, ∅⟩

/-- Add a vector to the bundle of a name. -/
def addTo (bundles : String → Option EpBundle) (name : String) (ep : HdcVec) :
    String → Option EpBundle :=
  Function.update bundles name (some (((bundles name).getD .default).add ep))

variable (T : Casing)

/-- Add an episode. -/
def logEpisode (h : EpisodeHdcStore) (toolName entityName : String) (outcome : UInt8) :
    EpisodeHdcStore :=
  let ep := Hdc.encodeEpisodeHv T toolName entityName outcome
  { byTool := addTo h.byTool toolName ep
    byEntity := addTo h.byEntity entityName ep
    byOutcome := addTo h.byOutcome (Hdc.outcomeClassName outcome) ep
    tools := insert toolName h.tools
    entities := insert entityName h.entities }

/-- Add the episodes of events, with the names of a tape. -/
def logEvents (tape : EventTape) (h : EpisodeHdcStore) (events : List TurnEvent) : EpisodeHdcStore :=
  events.foldl (fun h ev =>
    h.logEpisode T (tape.toolName ev.toolId) (tape.entityName ev.entityKey) ev.outcomeClass) h

/-- The episodes of a tape. -/
def rebuild (tape : EventTape) : EpisodeHdcStore := logEvents T tape new tape.events

end EpisodeHdcStore

/-! ## The automaton of a tape -/

namespace CdawgOrgan

/-- Feed events. -/
def feed [Zero F] (o : CdawgOrgan F) (events : List TurnEvent) : Option (CdawgOrgan F) :=
  events.foldlM (fun o ev => o.extend ev.pack ev.turnId.toNat) o

/-- How often a state succeeded; a half if nothing is known. -/
def seedQValue [F32 F] (st : CdawgState F) : F :=
  let total := st.succCount + st.failCount
  if total = 0 then F32.lit (1 / 2)
  else F32.div (F32.lit (st.succCount : ℚ)) (F32.lit (total : ℚ))

/-- Set the value of each state from its counts. -/
def seedQValues [F32 F] (o : CdawgOrgan F) : CdawgOrgan F :=
  { o with states := o.states.map fun st => { st with qValue := seedQValue st } }

/-- What is done behind the last event. -/
def finish [F32 F] (o : CdawgOrgan F) : CdawgOrgan F := { o.seedQValues with rebuilt := true }

/-- The automaton of a tape. -/
def rebuildFromTape [F32 F] [Zero F] (tape : EventTape) : Option (CdawgOrgan F) :=
  (new.feed tape.events).map finish

end CdawgOrgan

/-! ## The cache -/

/-- The identity of a prefix of a tape. -/
structure TapeCut where
  events : ℕ
  tools : ℕ
  entities : ℕ
  key : Bytes
  deriving DecidableEq

/-- How values are written as bytes. -/
structure Bincode (F : Type) where
  encodeTape : List TurnEvent → List String → List String → Bytes
  encodeOrgans : TapeCut × CdawgOrgan F × EpisodeHdcStore → Bytes
  decodeOrgans : Bytes → Option (TapeCut × CdawgOrgan F × EpisodeHdcStore)

namespace StartupCache

variable (digest : Bytes → Bytes)

/-- The characters CFBOOT01. -/
def magic : Bytes := [0x43, 0x46, 0x42, 0x4f, 0x4f, 0x54, 0x30, 0x31]

/-- Read a file: a magic number, a key, the digest of a value and the value. -/
def load {α : Type} (decode : Bytes → Option α) (file : Option Bytes) (key : Bytes) : Option α :=
  file.bind fun bytes =>
    if bytes.length < 72 ∨ bytes.take 8 ≠ magic ∨ (bytes.drop 8).take 32 ≠ key ∨
        (bytes.drop 40).take 32 ≠ digest (bytes.drop 72) then none
    else decode (bytes.drop 72)

/-- What a file has for a value. -/
def save (key value : Bytes) : Bytes := magic ++ (key ++ (digest value ++ value))

end StartupCache

section

variable (digest : Bytes → Bytes) (codec : Bincode F) (T : Casing)

/-- The identity of a prefix of a tape, with the first names of it. -/
def EventTape.cutAt (tape : EventTape) (events tools entities : ℕ) : Option TapeCut :=
  if events ≤ tape.events.length ∧ tools ≤ tape.toolNames.length ∧
      entities ≤ tape.entityNames.length then
    some ⟨events, tools, entities, digest (codec.encodeTape (tape.events.take events)
      (tape.toolNames.take tools) (tape.entityNames.take entities))⟩
  else none

/-- The identity of a tape. -/
def EventTape.cut (tape : EventTape) : TapeCut :=
  ⟨tape.events.length, tape.toolNames.length, tape.entityNames.length,
    digest (codec.encodeTape tape.events tape.toolNames tape.entityNames)⟩

def organsKey : Bytes := digest ("CFORGANS2".toList.flatMap String.utf8EncodeChar)

/-- The organs of a file that was written for a prefix of a tape, brought up to date, and how many
events followed.  An automaton that cannot be fed ends the process. -/
def tryLoadOrgans [F32 F] [Zero F] (tape : EventTape) (file : Option Bytes) :
    Option (Option (ℕ × CdawgOrgan F × EpisodeHdcStore)) :=
  match StartupCache.load digest codec.decodeOrgans file (organsKey digest) with
  | none => none
  | some (cut, cdawg, hdc) =>
    if tape.cutAt digest codec cut.events cut.tools cut.entities = some cut then
      let tail := tape.events.drop cut.events
      some ((cdawg.feed tail).map fun cdawg =>
        (tail.length, cdawg.finish, EpisodeHdcStore.logEvents T tape hdc tail))
    else none

/-- The organs of a tape, made anew. -/
def fullRebuild [F32 F] [Zero F] (tape : EventTape) : Option (CdawgOrgan F × EpisodeHdcStore) :=
  (CdawgOrgan.rebuildFromTape tape).map fun cdawg => (cdawg, EpisodeHdcStore.rebuild T tape)

/-- The organs of a tape, and the file at the path behind this; `written` says whether it can be
written. -/
def loadOrRebuildOrgans [F32 F] [Zero F] (tape : EventTape) (path : Option (Option Bytes))
    (written : Bool) :
    Option ((CdawgOrgan F × EpisodeHdcStore) × Option (Option Bytes)) :=
  match path.bind (tryLoadOrgans digest codec T tape) with
  | some loaded => loaded.map fun r => (r.2, path)
  | none =>
    (fullRebuild T tape).map fun organs =>
      (organs, path.map fun file =>
        if written then
          some (StartupCache.save digest (organsKey digest)
            (codec.encodeOrgans (tape.cut digest codec, organs.1, organs.2)))
        else file)

/-! ## Runs -/

/-- A tape with the files of its organs, each checkpoint with its own. -/
structure CachedTape where
  tape : EventTape
  files : ℕ → Option Bytes

/-- A step on the tape, or an open or a save of a checkpoint, which load or write the organs. -/
inductive TapeStep where
  | call (c : TapeCall)
  | seedFromTriplets (subjects : List String)
  | applyRemovals (remove : List Bool)
  | organs (checkpoint : ℕ) (written : Bool)

/-- Do a step. -/
def CachedTape.step [F32 F] [Zero F] (home : Option String) (s : CachedTape) :
    TapeStep → CachedTape
  | .call c => { s with tape := s.tape.call T home c }
  | .seedFromTriplets subjects => { s with tape := s.tape.seedFromTriplets T home subjects }
  | .applyRemovals remove => { s with tape := (s.tape.applyRemovals remove).2 }
  | .organs checkpoint written =>
    match loadOrRebuildOrgans digest codec T s.tape (some (s.files checkpoint)) written with
    | some (_, some file) => { s with files := Function.update s.files checkpoint file }
    | _ => s

/-- Do steps on a new tape without files. -/
def CachedTape.run [F32 F] [Zero F] (home : Option String) (steps : List TapeStep) : CachedTape :=
  steps.foldl (step digest codec T home) ⟨.new, fun _ => none⟩

/-- What is hashed of a prefix of a tape. -/
abbrev TapePrefix := List TurnEvent × List String × List String

/-- The prefixes of the tapes of a run. -/
def tapePrefixes [F32 F] [Zero F] (home : Option String) (steps : List TapeStep) :
    Set TapePrefix :=
  {p | ∃ before, before <+: steps ∧ ∃ e t n,
    p = ((CachedTape.run digest codec T home before).tape.events.take e,
      (CachedTape.run digest codec T home before).tape.toolNames.take t,
      (CachedTape.run digest codec T home before).tape.entityNames.take n)}

/-- The key of a prefix of a tape. -/
def tapeKey (p : TapePrefix) : Bytes := digest (codec.encodeTape p.1 p.2.1 p.2.2)

/-- What is written for a tape is read again, but for `rebuilt`, which is not written. -/
def ReadsBack [F32 F] [Zero F] (tape : EventTape) : Prop :=
  ∀ organs, fullRebuild T tape = some organs →
    codec.decodeOrgans (codec.encodeOrgans (tape.cut digest codec, organs.1, organs.2)) =
      some (tape.cut digest codec, { organs.1 with rebuilt := false }, organs.2)

end

/-! ## Names of events -/

/-- The numbers of a tape are those of its names. -/
structure Named (tape : EventTape) : Prop where
  tools : ∀ name id, tape.toolInterner name = some id → id.toNat < tape.toolNames.length
  entities : ∀ hash id, tape.entityInterner hash = some id → id.toNat < tape.entityNames.length
  tool : ∀ e ∈ tape.events, e.toolId.toNat < tape.toolNames.length
  entity : ∀ e ∈ tape.events, e.entityKey.toNat < tape.entityNames.length

variable {T : Casing} {home : Option String} {tape : EventTape}

lemma named_new : Named .new :=
  ⟨fun _ _ h => Option.noConfusion rfl (heq_of_eq h), fun _ _ h => Option.noConfusion rfl (heq_of_eq h),
    List.forall_mem_nil _, List.forall_mem_nil _⟩

lemma Named.internTool (h : Named tape) (tool : String) :
    Named (tape.internTool tool).2 ∧
      (tape.internTool tool).1.toNat < (tape.internTool tool).2.toolNames.length := by
  unfold EventTape.internTool
  cases hid : tape.toolInterner tool with
  | some id => exact ⟨h, h.tools tool id hid⟩
  | none =>
    dsimp only
    have hlen : (tape.toolNames ++ [tool]).length = tape.toolNames.length + 1 := List.length_append
    have hlt : (UInt16.ofNat tape.toolNames.length).toNat < (tape.toolNames ++ [tool]).length := by
      rw [UInt16.toNat_ofNat', hlen]
      exact Nat.lt_succ_of_le (Nat.mod_le _ _)
    have hle : tape.toolNames.length ≤ (tape.toolNames ++ [tool]).length := by omega
    exact ⟨⟨bounded_update h.tools hle hlt, h.entities, fun e he => (h.tool e he).trans_le hle,
      h.entity⟩, hlt⟩

lemma Named.internEntity (h : Named tape) (T : Casing) (home : Option String) (entity : String) :
    Named (tape.internEntity T home entity).2 ∧ (tape.internEntity T home entity).1.toNat <
      (tape.internEntity T home entity).2.entityNames.length := by
  unfold EventTape.internEntity
  generalize canonicalizeEntity T home entity = canon
  dsimp only
  cases hid : tape.entityInterner (entityHash canon) with
  | some id => exact ⟨h, h.entities _ id hid⟩
  | none =>
    dsimp only
    have hlen : (tape.entityNames ++ [canon]).length = tape.entityNames.length + 1 :=
      List.length_append
    have hlt : (UInt32.ofNat tape.entityNames.length).toNat < (tape.entityNames ++ [canon]).length := by
      rw [UInt32.toNat_ofNat', hlen]
      exact Nat.lt_succ_of_le (Nat.mod_le _ _)
    have hle : tape.entityNames.length ≤ (tape.entityNames ++ [canon]).length := by omega
    exact ⟨⟨h.tools, bounded_update h.entities hle hlt, h.tool,
      fun e he => (h.entity e he).trans_le hle⟩, hlt⟩

lemma toolNames_internEntity (tape : EventTape) (T : Casing) (home : Option String)
    (entity : String) : (tape.internEntity T home entity).2.toolNames = tape.toolNames := by
  unfold EventTape.internEntity
  dsimp only
  split <;> rfl

/-- Names are interned. -/
lemma Named.intern (h : Named tape) (T : Casing) (home : Option String) (tool entity : String) :
    Named (tape.intern T home tool entity).2.2 ∧
      (tape.intern T home tool entity).1.toNat <
        (tape.intern T home tool entity).2.2.toolNames.length ∧
      (tape.intern T home tool entity).2.1.toNat <
        (tape.intern T home tool entity).2.2.entityNames.length := by
  obtain ⟨h₁, htool⟩ := h.internTool tool
  obtain ⟨h₂, hentity⟩ := h₁.internEntity T home entity
  refine ⟨h₂, ?_, hentity⟩
  rw [← toolNames_internEntity _ T home entity] at htool
  exact htool

lemma Named.call (h : Named tape) (T : Casing) (home : Option String) (c : TapeCall) :
    Named (tape.call T home c) := by
  cases c with
  | log a =>
    obtain ⟨h', htool, hentity⟩ := h.intern T home a.tool a.entity
    exact ⟨h'.tools, h'.entities,
      List.forall_mem_append.mpr ⟨h'.tool, List.forall_mem_singleton.mpr htool⟩,
      List.forall_mem_append.mpr ⟨h'.entity, List.forall_mem_singleton.mpr hentity⟩⟩
  | symbolOf a => exact (h.intern T home a.tool a.entity).1
  | symbolOfRo a => exact h

lemma Named.seedFromTriplets (h : Named tape) (T : Casing) (home : Option String)
    (subjects : List String) : Named (tape.seedFromTriplets T home subjects) :=
  List.foldlRecOn subjects _ h fun _ h s _ => (h.internEntity T home s).1

lemma Named.applyRemovals (h : Named tape) (remove : List Bool) :
    Named (tape.applyRemovals remove).2 := by
  unfold EventTape.applyRemovals
  dsimp only
  split
  · exact h
  · have hmem : ∀ e ∈ ((tape.events.zipIdx).filter fun e => !remove.getD e.2 false).map Prod.fst,
        e ∈ tape.events := by
      intro e he
      obtain ⟨⟨e', i⟩, hei, rfl⟩ := List.mem_map.mp he
      exact (List.mem_zipIdx (List.mem_filter.mp hei).1).2.2 ▸ List.getElem_mem _
    exact ⟨h.tools, h.entities, fun e he => h.tool e (hmem e he), fun e he => h.entity e (hmem e he)⟩

/-! ## Values that are not read -/

namespace CdawgOrgan

/-- A state with other values. -/
def revalued (g h : F → F) (st : CdawgState F) : CdawgState F :=
  { st with credit := g st.credit, qValue := h st.qValue }

/-- An automaton with other values of its states. -/
def revaluedOrgan (g h : F → F) (o : CdawgOrgan F) : CdawgOrgan F where
  states := o.states.map (revalued g h)
  last := o.last
  rebuilt := false

/-- A state without its value. -/
def unvalued [Zero F] (st : CdawgState F) : CdawgState F := { st with qValue := 0 }

/-- An automaton without the values of its states. -/
def unvaluedOrgan [Zero F] (o : CdawgOrgan F) : CdawgOrgan F where
  states := o.states.map unvalued
  last := o.last
  rebuilt := false

lemma map_modify_comm {α : Type*} {f g : α → α} (h : ∀ a, f (g a) = g (f a)) (l : List α) (i : ℕ) :
    (l.modify i g).map f = (l.map f).modify i g := by
  refine List.ext_getElem? fun j => ?_
  rw [List.getElem?_map, List.getElem?_modify, List.getElem?_modify, List.getElem?_map]
  cases l[j]? with
  | none => rfl
  | some a =>
    by_cases hij : i = j
    · simp [hij, h]
    · simp [hij]

section

variable {g h : F → F}

/-- A walk up the links reads no values. -/
lemma climb_map {cond : CdawgState F → Bool} {change : CdawgState F → CdawgState F}
    (hcond : ∀ st, cond (revalued g h st) = cond st)
    (hchange : ∀ st, revalued g h (change st) = change (revalued g h st)) (fuel : ℕ)
    (S : List (CdawgState F)) (p : ℕ) :
    climb cond change fuel (S.map (revalued g h)) p =
      (climb cond change fuel S p).map (Prod.map (List.map (revalued g h)) id) := by
  induction fuel generalizing S p with
  | zero => rfl
  | succ fuel ih =>
    rw [climb, climb, List.getElem?_map]
    cases S[p]? with
    | none => rfl
    | some st =>
      dsimp only [Option.map_some]
      rw [hcond]
      split
      · have hlink : (revalued g h st).link = st.link := rfl
        rw [hlink]
        cases st.link with
        | none =>
          dsimp only
          rw [← map_modify_comm hchange]
          rfl
        | some link =>
          dsimp only
          rw [← map_modify_comm hchange, ih]
      · rfl

lemma addTransitions_map (sym cur fuel : ℕ) (S : List (CdawgState F)) (p : ℕ) :
    addTransitions sym cur fuel (S.map (revalued g h)) p =
      (addTransitions sym cur fuel S p).map (Prod.map (List.map (revalued g h)) id) := by
  unfold addTransitions
  apply climb_map
  · exact fun _ => rfl
  · exact fun _ => rfl

lemma redirect_map (sym q clone fuel : ℕ) (S : List (CdawgState F)) (p : ℕ) :
    redirect sym q clone fuel (S.map (revalued g h)) p =
      (redirect sym q clone fuel S p).map (Prod.map (List.map (revalued g h)) id) := by
  unfold redirect
  apply climb_map
  · exact fun _ => rfl
  · exact fun _ => rfl

lemma attach_map (S : List (CdawgState F)) (q cur : ℕ) :
    CdawgOrgan.attach (S.map (revalued g h)) q cur =
      (CdawgOrgan.attach S q cur).map (revalued g h) := by
  unfold CdawgOrgan.attach
  rw [map_modify_comm, map_modify_comm]
  · exact fun _ => rfl
  · exact fun _ => rfl

variable [Zero F]

/-- A copy has no values. -/
lemma cloneState_revalued (hg : g 0 = 0) (hh : h 0 = 0) (q : CdawgState F) (len : ℕ) :
    cloneState (revalued g h q) len = revalued g h (cloneState q len) := by
  unfold cloneState revalued
  dsimp only
  rw [hg, hh]

lemma split_map (hg : g 0 = 0) (hh : h 0 = 0) (S : List (CdawgState F)) (q : ℕ)
    (qState : CdawgState F) (len cur : ℕ) :
    CdawgOrgan.split (S.map (revalued g h)) q (revalued g h qState) len cur =
      (CdawgOrgan.split S q qState len cur).map (revalued g h) := by
  have hlink : (revalued g h qState).link = qState.link := rfl
  unfold CdawgOrgan.split
  dsimp only
  rw [hlink, List.length_map, cloneState_revalued hg hh]
  cases qState.link with
  | none =>
    dsimp only
    rw [map_modify_comm (f := revalued g h), map_modify_comm (f := revalued g h),
      map_modify_comm (f := revalued g h), List.map_append]
    · rfl
    all_goals exact fun _ => rfl
  | some =>
    dsimp only
    rw [map_modify_comm (f := revalued g h), map_modify_comm (f := revalued g h),
      map_modify_comm (f := revalued g h), map_modify_comm (f := revalued g h), List.map_append]
    · rfl
    all_goals exact fun _ => rfl

/-- A symbol is fed without a look at the values. -/
lemma extend_revalued (hg : g 0 = 0) (hh : h 0 = 0) (o : CdawgOrgan F) (sym turn : ℕ) :
    (revaluedOrgan g h o).extend sym turn = (o.extend sym turn).map (revaluedOrgan g h) := by
  obtain ⟨S, last, rebuilt⟩ := o
  unfold CdawgOrgan.extend revaluedOrgan
  dsimp only
  rw [List.length_map, List.getElem?_map]
  cases hlast : S[last]? with
  | none => rfl
  | some lastState =>
    simp only [Option.map_some, Option.bind_eq_bind, Option.bind_some]
    have hlen : (revalued g h lastState).len = lastState.len := rfl
    rw [hlen]
    generalize hnew : ({ CdawgState.new (lastState.len + 1) none with endpos := {turn} } :
      CdawgState F) = newState
    have hfixed : revalued g h newState = newState := by
      rw [← hnew]
      unfold revalued CdawgState.new
      dsimp only
      rw [hg, hh]
    have hstates : S.map (revalued g h) ++ [newState] = (S ++ [newState]).map (revalued g h) := by
      rw [List.map_append, List.map_singleton, hfixed]
    rw [hstates, addTransitions_map]
    cases addTransitions sym S.length (lastState.len + 1) (S ++ [newState]) last with
    | none => rfl
    | some r =>
      obtain ⟨S', p⟩ := r
      rw [Option.map_some, Option.bind_some, Option.bind_some, Prod.map_apply]
      cases p with
      | none =>
        dsimp only [id_eq]
        rw [attach_map]
        rfl
      | some p =>
        dsimp only [id_eq]
        rw [List.getElem?_map]
        cases S'[p]? with
        | none => rfl
        | some pState =>
          rw [Option.map_some, Option.bind_some, Option.bind_some]
          have htrans : (revalued g h pState).transitions = pState.transitions := rfl
          have hplen : (revalued g h pState).len = pState.len := rfl
          rw [htrans, hplen]
          cases pState.transitions.lookup sym with
          | none => rfl
          | some q =>
            rw [Option.bind_some, Option.bind_some, List.getElem?_map]
            cases S'[q]? with
            | none => rfl
            | some qState =>
              rw [Option.map_some, Option.bind_some, Option.bind_some]
              have hqlen : (revalued g h qState).len = qState.len := rfl
              rw [hqlen]
              split
              · rw [attach_map]
                rfl
              · rw [List.length_map, split_map hg hh, redirect_map]
                cases redirect sym q S'.length (pState.len + 1)
                  (CdawgOrgan.split S' q qState (pState.len + 1) S.length) p with
                | none => rfl
                | some r => rfl

/-- Events are fed without a look at the values. -/
lemma feed_revalued (hg : g 0 = 0) (hh : h 0 = 0) (o : CdawgOrgan F) (events : List TurnEvent) :
    (revaluedOrgan g h o).feed events = (o.feed events).map (revaluedOrgan g h) := by
  induction events generalizing o with
  | nil => rfl
  | cons ev events ih =>
    unfold feed at ih ⊢
    rw [List.foldlM_cons, List.foldlM_cons, extend_revalued hg hh]
    cases o.extend ev.pack ev.turnId.toNat with
    | none => rfl
    | some o' => exact ih o'

lemma feed_unvalued (o : CdawgOrgan F) (events : List TurnEvent) :
    (unvaluedOrgan o).feed events = (o.feed events).map unvaluedOrgan :=
  feed_revalued (g := id) (h := fun _ => (0 : F)) rfl rfl o events

lemma feed_append (o : CdawgOrgan F) (events tail : List TurnEvent) :
    o.feed (events ++ tail) = (o.feed events).bind fun o => o.feed tail :=
  List.foldlM_append

/-- Events can be fed. -/
lemma Reads.feed {turn : ℕ → ℕ} {w : List ℕ} {name : ℕ → List ℕ} {o : CdawgOrgan F}
    (h : Reads turn w name o) (events : List TurnEvent)
    (hturn : ∀ (i : ℕ) (ev : TurnEvent), events[i]? = some ev → turn (w.length + i) = ev.turnId.toNat) :
    ∃ o' name', o.feed events = some o' ∧
      Reads turn (w ++ events.map TurnEvent.pack) name' o' := by
  induction events generalizing w name o with
  | nil => exact ⟨o, name, rfl, by rwa [List.map_nil, List.append_nil]⟩
  | cons ev events ih =>
    obtain ⟨o₁, name₁, ho₁, -, h₁⟩ := h.extend ev.pack
    obtain ⟨o', name', ho', h'⟩ := ih h₁ fun i e he => by
      rw [List.length_append, List.length_singleton, Nat.add_right_comm]
      exact hturn (i + 1) e he
    refine ⟨o', name', ?_, ?_⟩
    · unfold CdawgOrgan.feed at ho' ⊢
      rw [List.foldlM_cons, ← hturn 0 ev rfl, Nat.add_zero, ho₁]
      exact ho'
    · rwa [List.append_assoc, List.singleton_append, ← List.map_cons] at h'

/-- The events of a tape can be fed to a new automaton. -/
lemma exists_feed (events : List TurnEvent) : ∃ o, (new : CdawgOrgan F).feed events = some o := by
  have hreads : Reads (fun i => ((events[i]?).map (·.turnId.toNat)).getD 0) [] (fun _ => [])
    (new : CdawgOrgan F) := reads_new
  obtain ⟨o, -, ho, -⟩ := hreads.feed events fun i ev hev => by
    rw [List.length_nil, Nat.zero_add, hev]
    rfl
  exact ⟨o, ho⟩

end

/-- What is done behind the last event sets all values. -/
lemma finish_unvalued [F32 F] [Zero F] (o : CdawgOrgan F) : (unvaluedOrgan o).finish = o.finish := by
  unfold finish seedQValues unvaluedOrgan
  dsimp only
  rw [List.map_map]
  rfl

/-- An automaton that was read from a file has the values of another one. -/
lemma unvalued_finish [F32 F] [Zero F] (o : CdawgOrgan F) :
    unvaluedOrgan { o.finish with rebuilt := false } = unvaluedOrgan o := by
  unfold finish seedQValues unvaluedOrgan
  dsimp only
  rw [List.map_map]
  rfl

/-- What follows is fed to an automaton that was read from a file, as if it had never been away. -/
lemma exists_feed_finish [F32 F] [Zero F] {events tail : List TurnEvent} {o o' : CdawgOrgan F}
    (ho : new.feed events = some o) (ho' : new.feed (events ++ tail) = some o') :
    ∃ resumed : CdawgOrgan F, ({ o.finish with rebuilt := false } : CdawgOrgan F).feed tail =
      some resumed ∧ resumed.finish = o'.finish := by
  rw [feed_append, ho, Option.bind_some] at ho'
  have hfed := feed_unvalued { o.finish with rebuilt := false } tail
  rw [unvalued_finish, feed_unvalued, ho', Option.map_some] at hfed
  obtain ⟨resumed, hresumed, heq⟩ := Option.map_eq_some_iff.mp hfed.symm
  exact ⟨resumed, hresumed, by rw [← finish_unvalued, heq, finish_unvalued]⟩

end CdawgOrgan

/-! ## Files -/

section

variable {digest : Bytes → Bytes} {codec : Bincode F}

lemma StartupCache.length_magic : StartupCache.magic.length = 8 := rfl

/-- A file is read as it was written. -/
lemma StartupCache.load_save {α : Type} {decode : Bytes → Option α} {key : Bytes} (hkey : key.length = 32)
    (hdigest : ∀ b, (digest b).length = 32) (value : Bytes) :
    StartupCache.load digest decode (some (StartupCache.save digest key value)) key =
      decode value := by
  have hmagic := StartupCache.length_magic
  have hsum := hdigest value
  have hvalue : (StartupCache.save digest key value).drop 72 = value := by
    rw [StartupCache.save, ← List.append_assoc, ← List.append_assoc]
    exact List.drop_left' (by rw [List.length_append, List.length_append]; omega)
  have hlen : ¬(StartupCache.save digest key value).length < 72 := by
    rw [StartupCache.save, List.length_append, List.length_append, List.length_append]
    omega
  have hkeyed : (StartupCache.save digest key value).drop 8 = key ++ (digest value ++ value) :=
    List.drop_left' hmagic
  have hsummed : (StartupCache.save digest key value).drop 40 = digest value ++ value := by
    rw [StartupCache.save, ← List.append_assoc]
    exact List.drop_left' (by rw [List.length_append]; omega)
  rw [StartupCache.load, Option.bind_some, hvalue, hkeyed, hsummed, if_neg]
  rw [List.take_left' hkey, List.take_left' hsum]
  rintro (h | h | h | h)
  · exact hlen h
  · exact h (List.take_left' hmagic)
  · exact h rfl
  · exact h rfl

lemma length_organsKey (hdigest : ∀ b, (digest b).length = 32) : (organsKey digest).length = 32 :=
  hdigest _

/-! ## Episodes of a prefix -/

lemma logEvents_nil (T : Casing) (tape : EventTape) (h : EpisodeHdcStore) :
    EpisodeHdcStore.logEvents T tape h [] = h :=
  List.foldl_nil

lemma logEvents_cons (T : Casing) (tape : EventTape) (h : EpisodeHdcStore) (e : TurnEvent)
    (events : List TurnEvent) : EpisodeHdcStore.logEvents T tape h (e :: events) =
      EpisodeHdcStore.logEvents T tape (h.logEpisode T (tape.toolName e.toolId)
        (tape.entityName e.entityKey) e.outcomeClass) events :=
  List.foldl_cons ..

/-- The names of events stay when names are added. -/
lemma logEvents_congr {tape tape₀ : EventTape} (T : Casing) (hnamed : Named tape₀)
    (htools : tape₀.toolNames <+: tape.toolNames) (hentities : tape₀.entityNames <+: tape.entityNames)
    (h : EpisodeHdcStore) {events : List TurnEvent} (hevents : ∀ e ∈ events, e ∈ tape₀.events) :
    EpisodeHdcStore.logEvents T tape h events = EpisodeHdcStore.logEvents T tape₀ h events := by
  obtain ⟨newTools, htools⟩ := htools
  obtain ⟨newEntities, hentities⟩ := hentities
  induction events generalizing h with
  | nil => rw [logEvents_nil, logEvents_nil]
  | cons e events ih =>
    have he := hevents e List.mem_cons_self
    have htool : tape.toolName e.toolId = tape₀.toolName e.toolId := by
      rw [EventTape.toolName, EventTape.toolName, ← htools,
        List.getElem?_append_left (hnamed.tool e he)]
    have hentity : tape.entityName e.entityKey = tape₀.entityName e.entityKey := by
      rw [EventTape.entityName, EventTape.entityName, ← hentities,
        List.getElem?_append_left (hnamed.entity e he)]
    rw [logEvents_cons, logEvents_cons, htool, hentity]
    exact ih _ (List.forall_mem_cons.mp hevents).2

/-! ## The cache is invisible -/

variable [F32 F] [Zero F]

/-- A file was written for a tape. -/
def WrittenFor (digest : Bytes → Bytes) (codec : Bincode F) (T : Casing) (tape : EventTape)
    (file : Bytes) : Prop :=
  ∃ organs, fullRebuild T tape = some organs ∧ file = StartupCache.save digest (organsKey digest)
    (codec.encodeOrgans (tape.cut digest codec, organs.1, organs.2))

/-- The digests of prefixes of a tape tell them from another tape. -/
def ToldApart (digest : Bytes → Bytes) (codec : Bincode F) (tape tape₀ : EventTape) : Prop :=
  ∀ e t n, tapeKey digest codec (tape.events.take e, tape.toolNames.take t,
      tape.entityNames.take n) =
      tapeKey digest codec (tape₀.events, tape₀.toolNames, tape₀.entityNames) →
    tape.events.take e = tape₀.events ∧ tape.toolNames.take t = tape₀.toolNames ∧
      tape.entityNames.take n = tape₀.entityNames

lemma exists_fullRebuild (T : Casing) (tape : EventTape) :
    ∃ organs : CdawgOrgan F × EpisodeHdcStore, fullRebuild T tape = some organs := by
  obtain ⟨o, ho⟩ := CdawgOrgan.exists_feed (F := F) tape.events
  refine ⟨(o.finish, EpisodeHdcStore.rebuild T tape), ?_⟩
  rw [fullRebuild, CdawgOrgan.rebuildFromTape, ho, Option.map_some, Option.map_some]

omit [F32 F] [Zero F] in
/-- The cut of another tape is that of a prefix. -/
lemma prefix_of_cutAt {tape tape₀ : EventTape}
    (hapart : ToldApart digest codec tape tape₀)
    (hcut : tape.cutAt digest codec tape₀.events.length tape₀.toolNames.length
      tape₀.entityNames.length = some (tape₀.cut digest codec)) :
    tape₀.events <+: tape.events ∧ tape₀.toolNames <+: tape.toolNames ∧
      tape₀.entityNames <+: tape.entityNames := by
  unfold EventTape.cutAt at hcut
  split at hcut
  · have hkey := congrArg TapeCut.key (Option.some.inj hcut)
    obtain ⟨he, ht, hn⟩ := hapart _ _ _ hkey
    exact ⟨he ▸ List.take_prefix _ _, ht ▸ List.take_prefix _ _, hn ▸ List.take_prefix _ _⟩
  · cases hcut

variable {organs : CdawgOrgan F × EpisodeHdcStore}

/-- What is read from a file that was written for another tape is what is made anew. -/
lemma tryLoadOrgans_eq (hdigest : ∀ b, (digest b).length = 32) {tape tape₀ : EventTape} {file : Bytes}
    (hround : ReadsBack digest codec T tape₀) (hnamed : Named tape₀)
    (hfile : WrittenFor digest codec T tape₀ file) (hapart : ToldApart digest codec tape tape₀)
    (hfull : fullRebuild T tape = some organs) :
    tryLoadOrgans digest codec T tape (some file) = none ∨
      ∃ n, tryLoadOrgans digest codec T tape (some file) = some (some (n, organs)) := by
  obtain ⟨organs₀, hfull₀, rfl⟩ := hfile
  unfold tryLoadOrgans
  rw [StartupCache.load_save (length_organsKey hdigest) hdigest, hround organs₀ hfull₀]
  dsimp only
  split
  · rename_i hcut
    right
    obtain ⟨⟨tail, htail⟩, htools, hentities⟩ := prefix_of_cutAt hapart hcut
    have hdrop : tape.events.drop tape₀.events.length = tail := by
      rw [← htail, List.drop_left]
    obtain ⟨o₀, ho₀⟩ := CdawgOrgan.exists_feed (F := F) tape₀.events
    obtain ⟨o, ho⟩ := CdawgOrgan.exists_feed (F := F) tape.events
    rw [fullRebuild, CdawgOrgan.rebuildFromTape, ho₀] at hfull₀
    rw [fullRebuild, CdawgOrgan.rebuildFromTape, ho] at hfull
    rw [← htail] at ho
    obtain ⟨resumed, hresumed, hfinish⟩ := CdawgOrgan.exists_feed_finish ho₀ ho
    have hcdawg₀ : organs₀ = (o₀.finish, EpisodeHdcStore.rebuild T tape₀) :=
      (Option.some.inj hfull₀).symm
    have hcdawg : organs = (o.finish, EpisodeHdcStore.rebuild T tape) := (Option.some.inj hfull).symm
    have hepisodes : EpisodeHdcStore.logEvents T tape (EpisodeHdcStore.rebuild T tape₀) tail =
        EpisodeHdcStore.rebuild T tape := by
      have hprefix := logEvents_congr T hnamed htools hentities .new fun e he => he
      rw [EpisodeHdcStore.rebuild, ← hprefix, EpisodeHdcStore.rebuild, ← htail]
      exact List.foldl_append.symm
    refine ⟨tail.length, ?_⟩
    have hdrop' : tape.events.drop (tape₀.cut digest codec).events = tail := hdrop
    rw [hdrop', hcdawg₀]
    dsimp only
    rw [hresumed, Option.map_some, hfinish, hepisodes, hcdawg]
  · exact Or.inl rfl

/-- Whatever is found in a file, the organs are those that are made anew; and a file that is there
behind this is the one before, or was written for the tape. -/
lemma loadOrRebuildOrgans_eq {tape : EventTape} {file : Option Bytes} (hfull : fullRebuild T tape = some organs)
    (hload : tryLoadOrgans digest codec T tape file = none ∨
      ∃ n, tryLoadOrgans digest codec T tape file = some (some (n, organs))) (written : Bool) :
    ∃ file', loadOrRebuildOrgans digest codec T tape (some file) written =
        some (organs, some file') ∧
      (file' = file ∨ ∃ b, file' = some b ∧ WrittenFor digest codec T tape b) := by
  unfold loadOrRebuildOrgans
  rw [Option.bind_some]
  rcases hload with hnone | ⟨n, hsome⟩
  · rw [hnone]
    dsimp only
    rw [hfull, Option.map_some, Option.map_some]
    refine ⟨_, rfl, ?_⟩
    cases written with
    | true => exact Or.inr ⟨_, rfl, organs, hfull, rfl⟩
    | false => exact Or.inl rfl
  · rw [hsome]
    exact ⟨file, rfl, Or.inl rfl⟩

/-- The files of a run were written for earlier tapes. -/
structure Cached (digest : Bytes → Bytes) (codec : Bincode F) (T : Casing) (home : Option String)
    (steps : List TapeStep) : Prop where
  named : Named (CachedTape.run digest codec T home steps).tape
  files : ∀ c b, (CachedTape.run digest codec T home steps).files c = some b →
    ∃ before, before <+: steps ∧ Named (CachedTape.run digest codec T home before).tape ∧
      WrittenFor digest codec T (CachedTape.run digest codec T home before).tape b

lemma run_concat (home : Option String) (steps : List TapeStep) (step : TapeStep) :
    CachedTape.run digest codec T home (steps ++ [step]) =
      (CachedTape.run digest codec T home steps).step digest codec T home step :=
  List.foldl_append

lemma tapePrefixes_mono {before steps : List TapeStep} (h : before <+: steps) :
    tapePrefixes digest codec T home before ⊆ tapePrefixes digest codec T home steps := by
  rintro b ⟨before', hbefore, hb⟩
  exact ⟨before', hbefore.trans h, hb⟩

/-- Digests have their length and do not collide on the tapes of a run, and the codec reads them back. -/
structure Digested (digest : Bytes → Bytes) (codec : Bincode F) (T : Casing) (home : Option String)
    (steps : List TapeStep) : Prop where
  length : ∀ b, (digest b).length = 32
  round : ∀ before, before <+: steps →
    ReadsBack digest codec T (CachedTape.run digest codec T home before).tape
  free : Set.InjOn (tapeKey digest codec) (tapePrefixes digest codec T home steps)

variable {steps before : List TapeStep}

lemma Digested.mono (hd : Digested digest codec T home steps) (h : before <+: steps) :
    Digested digest codec T home before :=
  ⟨hd.length, fun _ hbefore => hd.round _ (hbefore.trans h), hd.free.mono (tapePrefixes_mono h)⟩

/-- The tapes of the run are told apart. -/
lemma Digested.toldApart (hd : Digested digest codec T home steps) (hbefore : before <+: steps) :
    ToldApart digest codec (CachedTape.run digest codec T home steps).tape
      (CachedTape.run digest codec T home before).tape := by
  intro e t n heq
  have hpair := hd.free ⟨steps, List.prefix_rfl, e, t, n, rfl⟩ ⟨before, hbefore,
    (CachedTape.run digest codec T home before).tape.events.length,
    (CachedTape.run digest codec T home before).tape.toolNames.length,
    (CachedTape.run digest codec T home before).tape.entityNames.length,
    by rw [List.take_length, List.take_length, List.take_length]⟩ heq
  exact ⟨(Prod.mk.inj hpair).1, (Prod.mk.inj (Prod.mk.inj hpair).2).1,
    (Prod.mk.inj (Prod.mk.inj hpair).2).2⟩

/-- In a run whose files were written for earlier tapes, the organs are those that are made anew. -/
lemma Cached.load (hd : Digested digest codec T home steps) (h : Cached digest codec T home steps)
    (hfull : fullRebuild T (CachedTape.run digest codec T home steps).tape = some organs) (c : ℕ) :
    tryLoadOrgans digest codec T (CachedTape.run digest codec T home steps).tape
        ((CachedTape.run digest codec T home steps).files c) = none ∨
      ∃ n, tryLoadOrgans digest codec T (CachedTape.run digest codec T home steps).tape
        ((CachedTape.run digest codec T home steps).files c) = some (some (n, organs)) := by
  cases hfile : (CachedTape.run digest codec T home steps).files c with
  | none => exact Or.inl rfl
  | some b =>
    obtain ⟨before, hbefore, hnamed, hwritten⟩ := h.files c b hfile
    exact tryLoadOrgans_eq hd.length (hd.round before hbefore) hnamed hwritten
      (hd.toldApart hbefore) hfull

/-- A step keeps the files, or writes one for the tape. -/
lemma Cached.step (hd : Digested digest codec T home steps) (h : Cached digest codec T home steps)
    (step : TapeStep) : Cached digest codec T home (steps ++ [step]) := by
  have hold : ∀ c b, (CachedTape.run digest codec T home steps).files c = some b →
      ∃ before, before <+: steps ++ [step] ∧
        Named (CachedTape.run digest codec T home before).tape ∧
        WrittenFor digest codec T (CachedTape.run digest codec T home before).tape b := by
    intro c b hb
    obtain ⟨before, hbefore, hnamed, hwritten⟩ := h.files c b hb
    exact ⟨before, hbefore.trans (List.prefix_append ..), hnamed, hwritten⟩
  have hkept : ∀ tape, Named tape → CachedTape.run digest codec T home (steps ++ [step]) =
      { CachedTape.run digest codec T home steps with tape := tape } →
        Cached digest codec T home (steps ++ [step]) :=
    fun tape hnamed hrun => ⟨hrun ▸ hnamed, hrun ▸ hold⟩
  cases step with
  | call c => exact hkept _ (h.named.call T home c) (run_concat ..)
  | seedFromTriplets subjects =>
    exact hkept _ (h.named.seedFromTriplets T home subjects) (run_concat ..)
  | applyRemovals remove => exact hkept _ (h.named.applyRemovals remove) (run_concat ..)
  | organs checkpoint written =>
    obtain ⟨organs, hfull⟩ := exists_fullRebuild (F := F) T
      (CachedTape.run digest codec T home steps).tape
    obtain ⟨file', hload, hfile'⟩ := loadOrRebuildOrgans_eq hfull (h.load hd hfull checkpoint) written
    have hrun : CachedTape.run digest codec T home (steps ++ [.organs checkpoint written]) =
        { CachedTape.run digest codec T home steps with
          files := Function.update (CachedTape.run digest codec T home steps).files checkpoint
            file' } := by
      rw [run_concat, CachedTape.step, hload]
    refine ⟨?_, ?_⟩
    · rw [hrun]
      exact h.named
    · rw [hrun]
      refine Maps.forall_update hold fun b hb => ?_
      rcases hfile' with hsame | ⟨b', hb', hwritten⟩
      · exact hold checkpoint b (hsame ▸ hb)
      · obtain rfl : b' = b := Option.some.inj (hb'.symm.trans hb)
        exact ⟨steps, List.prefix_append .., h.named, hwritten⟩

/-- The files of a run were written for earlier tapes. -/
lemma cached_run (hd : Digested digest codec T home steps) : Cached digest codec T home steps := by
  induction steps using List.reverseRecOn with
  | nil => exact ⟨named_new, fun c b hb => nomatch hb⟩
  | append_singleton steps step ih =>
    have hd' := hd.mono (List.prefix_append steps [step])
    exact (ih hd').step hd' step

/-- At each point of a run the organs that are loaded are those that are made anew, be it that the
file has them, that it has those of a prefix, or that it has none. -/
theorem organs_cache_invisible (digest : Bytes → Bytes) (codec : Bincode F) (T : Casing)
    (home : Option String) (steps : List TapeStep) (hdigest : ∀ b, (digest b).length = 32)
    (hround : ∀ before, before <+: steps →
      ReadsBack digest codec T (CachedTape.run digest codec T home before).tape)
    (hfree : Set.InjOn (tapeKey digest codec) (tapePrefixes digest codec T home steps)) :
    ∃ organs : CdawgOrgan F × EpisodeHdcStore,
      fullRebuild T (CachedTape.run digest codec T home steps).tape = some organs ∧
      ∀ path, path = none ∨ (∃ c, path = some ((CachedTape.run digest codec T home steps).files c)) →
        ∀ written, (loadOrRebuildOrgans digest codec T
          (CachedTape.run digest codec T home steps).tape path written).map Prod.fst =
            some organs := by
  obtain ⟨organs, hfull⟩ := exists_fullRebuild (F := F) T
    (CachedTape.run digest codec T home steps).tape
  refine ⟨organs, hfull, ?_⟩
  rintro path (rfl | ⟨c, rfl⟩) written
  · rw [loadOrRebuildOrgans, Option.bind_none]
    dsimp only
    rw [hfull]
    rfl
  · have hd : Digested digest codec T home steps := ⟨hdigest, hround, hfree⟩
    obtain ⟨file', hload, -⟩ := loadOrRebuildOrgans_eq hfull ((cached_run hd).load hd hfull c) written
    rw [hload]
    rfl

end

/-! ## An open with a tail -/

section

/-- A key that has the lengths of a prefix. -/
def lengthsKey (p : TapePrefix) : Bytes :=
  [UInt8.ofNat p.1.length, UInt8.ofNat p.2.1.length, UInt8.ofNat p.2.2.length]

/-- Bytes, filled up to 32. -/
def padded (b : Bytes) : Bytes := (b ++ List.replicate 32 0).take 32

/-- The tape of an event that was logged a number of times. -/
def repeated (n : ℕ) : EventTape :=
  (EventTape.call Casing.ascii none · (.log ⟨"Read", "main", 0⟩ 0 0))^[n] .new

/-- A codec for these tapes. -/
def repeatedCodec : Bincode ℚ where
  encodeTape e t n := lengthsKey (e, t, n)
  encodeOrgans v := [UInt8.ofNat v.1.events]
  decodeOrgans b := (fullRebuild Casing.ascii (repeated ((b.headD 0).toNat))).map fun organs =>
    let tape := repeated ((b.headD 0).toNat)
    (⟨tape.events.length, tape.toolNames.length, tape.entityNames.length,
      padded (lengthsKey (tape.events, tape.toolNames, tape.entityNames))⟩,
      { organs.1 with rebuilt := false }, organs.2)

/-- An event is logged, a checkpoint is saved, and the event is logged again. -/
def repeatedSteps : List TapeStep :=
  [.call (.log ⟨"Read", "main", 0⟩ 0 0), .organs 0 true, .call (.log ⟨"Read", "main", 0⟩ 0 0)]

lemma length_padded (b : Bytes) : (padded b).length = 32 := by
  rw [padded, List.length_take, List.length_append, List.length_replicate]
  omega

/-- The lengths of a prefix are read off its key. -/
lemma lengths_of_padded {p q : TapePrefix} (h : padded (lengthsKey p) = padded (lengthsKey q))
    (hp : p.1.length < 256 ∧ p.2.1.length < 256 ∧ p.2.2.length < 256)
    (hq : q.1.length < 256 ∧ q.2.1.length < 256 ∧ q.2.2.length < 256) :
    p.1.length = q.1.length ∧ p.2.1.length = q.2.1.length ∧ p.2.2.length = q.2.2.length := by
  have hkeys := congrArg (List.take 3) h
  simp only [padded, lengthsKey, List.cons_append, List.nil_append, List.take_succ_cons,
    List.take_zero, List.cons.injEq, and_true, ← UInt8.toNat_inj, UInt8.toNat_ofNat'] at hkeys
  omega

lemma tape_step_organs (digest : Bytes → Bytes) (codec : Bincode F) [F32 F] [Zero F] (T : Casing)
    (home : Option String) (s : CachedTape) (c : ℕ) (written : Bool) :
    (s.step digest codec T home (.organs c written)).tape = s.tape := by
  unfold CachedTape.step
  dsimp only
  split <;> rfl

lemma exists_repeated {before : List TapeStep} (h : before <+: repeatedSteps) :
    ∃ n ≤ 2, (CachedTape.run padded repeatedCodec Casing.ascii none before).tape = repeated n := by
  have hlen := h.length_le
  have hbefore := List.prefix_iff_eq_take.mp h
  have hle : before.length ≤ 3 := hlen
  have horgans := tape_step_organs padded repeatedCodec Casing.ascii none
    (CachedTape.run padded repeatedCodec Casing.ascii none (repeatedSteps.take 1)) 0 true
  interval_cases before.length
  · exact ⟨0, by omega, by rw [hbefore]; rfl⟩
  · exact ⟨1, by omega, by rw [hbefore]; rfl⟩
  · exact ⟨1, by omega, by rw [hbefore]; exact horgans⟩
  · exact ⟨2, by omega, by
      rw [hbefore]
      exact congrArg
        (EventTape.call Casing.ascii none · (.log ⟨"Read", "main", 0⟩ 0 0)) horgans⟩

lemma repeated_prefix {n : ℕ} (h : n ≤ 2) : (repeated n).events <+: (repeated 2).events ∧
    (repeated n).toolNames <+: (repeated 2).toolNames ∧
    (repeated n).entityNames <+: (repeated 2).entityNames ∧
    (repeated n).events.length = n := by
  interval_cases n <;> decide +kernel

/-- Lists that a list starts with are equal if their lengths are. -/
lemma eq_of_isPrefix {α : Type*} {l l₁ l₂ : List α} (h₁ : l₁ <+: l) (h₂ : l₂ <+: l)
    (h : l₁.length = l₂.length) : l₁ = l₂ :=
  (List.prefix_of_prefix_length_le h₁ h₂ h.le).eq_of_length h

/-- The prefixes of the tapes of the run are those of the last one. -/
lemma prefix_of_mem_tapePrefixes {p : TapePrefix}
    (hp : p ∈ tapePrefixes padded repeatedCodec Casing.ascii none repeatedSteps) :
    p.1 <+: (repeated 2).events ∧ p.2.1 <+: (repeated 2).toolNames ∧
      p.2.2 <+: (repeated 2).entityNames := by
  obtain ⟨before, hbefore, e, t, n, rfl⟩ := hp
  obtain ⟨m, hm, htape⟩ := exists_repeated hbefore
  obtain ⟨hevents, htools, hentities, -⟩ := repeated_prefix hm
  rw [htape]
  exact ⟨(List.take_prefix ..).trans hevents, (List.take_prefix ..).trans htools,
    (List.take_prefix ..).trans hentities⟩

/-- A checkpoint that was saved before the last event was logged. -/
theorem organs_cache_invisible_repeated : ∃ organs : CdawgOrgan ℚ × EpisodeHdcStore,
    fullRebuild Casing.ascii
        (CachedTape.run padded repeatedCodec Casing.ascii none repeatedSteps).tape = some organs ∧
      ∀ path, path = none ∨ (∃ c, path = some
          ((CachedTape.run padded repeatedCodec Casing.ascii none repeatedSteps).files c)) →
        ∀ written, (loadOrRebuildOrgans padded repeatedCodec Casing.ascii
          (CachedTape.run padded repeatedCodec Casing.ascii none repeatedSteps).tape path
            written).map Prod.fst = some organs := by
  refine organs_cache_invisible padded repeatedCodec Casing.ascii none repeatedSteps length_padded
    (fun before hbefore organs hfull => ?_) fun p hp q hq hkey => ?_
  · obtain ⟨n, hn, htape⟩ := exists_repeated hbefore
    obtain ⟨-, -, -, hlen⟩ := repeated_prefix hn
    rw [htape] at hfull ⊢
    have hcode : repeatedCodec.encodeOrgans ((repeated n).cut padded repeatedCodec, organs.1,
        organs.2) = [UInt8.ofNat n] := congrArg (fun m => [UInt8.ofNat m]) hlen
    have hhead : (([UInt8.ofNat n] : Bytes).headD 0).toNat = n := by
      rw [List.headD_cons, UInt8.toNat_ofNat']
      omega
    rw [hcode]
    change (fullRebuild Casing.ascii (repeated (([UInt8.ofNat n] : Bytes).headD 0).toNat)).map _ = _
    rw [hhead, hfull]
    rfl
  · obtain ⟨hp₁, hp₂, hp₃⟩ := prefix_of_mem_tapePrefixes hp
    obtain ⟨hq₁, hq₂, hq₃⟩ := prefix_of_mem_tapePrefixes hq
    have hbound : (repeated 2).events.length < 256 ∧ (repeated 2).toolNames.length < 256 ∧
        (repeated 2).entityNames.length < 256 := by decide +kernel
    obtain ⟨h₁, h₂, h₃⟩ := lengths_of_padded hkey
      ⟨hp₁.length_le.trans_lt hbound.1, hp₂.length_le.trans_lt hbound.2.1,
        hp₃.length_le.trans_lt hbound.2.2⟩
      ⟨hq₁.length_le.trans_lt hbound.1, hq₂.length_le.trans_lt hbound.2.1,
        hq₃.length_le.trans_lt hbound.2.2⟩
    exact Prod.ext (eq_of_isPrefix hp₁ hq₁ h₁)
      (Prod.ext (eq_of_isPrefix hp₂ hq₂ h₂) (eq_of_isPrefix hp₃ hq₃ h₃))

end

end ChittaField
