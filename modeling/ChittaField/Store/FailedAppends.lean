import ChittaField.Organs.AgentProtocol
import ChittaField.Organs.CallGraph
import ChittaField.Organs.Constraints
import ChittaField.Organs.Dispatch
import ChittaField.Organs.Replication
import ChittaField.Organs.Triggers

/-!
# Calls whose append fails

Most calls append to the log what they are about to do, and do it when the log has taken it.  Some do
it first, and are left with it when the log does not take it.

`failed_append_iff` says of which calls nothing is left.
-/

namespace ChittaField

variable {F : Type}

/-! ## The symbol index -/

/-- A code symbol. -/
structure SymbolEntry (F : Type) where
  id : SymbolId
  kind : String
  name : String
  signature : String
  filePath : String
  lineStart : ℕ
  lineEnd : ℕ
  repoId : ℕ
  embedding : List F
  description : Option String
  memoryId : Option MemoryId

/-- The code symbols, with the ids of a name, and the id of a kind, a name and a file. -/
structure SymbolIndex (F : Type) where
  byId : SymbolId → Option (SymbolEntry F)
  byName : String → Option (List SymbolId)
  dedup : String × String × String → Option SymbolId

/-- Symbols of one kind and name are one in a file. -/
def SymbolEntry.dedupKey (e : SymbolEntry F) : String × String × String := (e.kind, e.name, e.filePath)

/-- Add a symbol, or replace the one that is there. -/
def SymbolIndex.upsert (idx : SymbolIndex F) (e : SymbolEntry F) : SymbolIndex F :=
  match idx.dedup e.dedupKey with
  | some existingId =>
    { idx with byId := Function.update idx.byId existingId (some { e with id := existingId }) }
  | none =>
    { byId := Function.update idx.byId e.id (some e)
      byName := Maps.push idx.byName e.name e.id
      dedup := Function.update idx.dedup e.dedupKey (some e.id) }

/-- Fire a trigger that is armed. -/
def TriggerStore.fire (s : TriggerStore F) (id : ℕ) (nowMs : ℤ) : Option (TriggerStore F) :=
  (s.idToIndex id).bind fun idx => s.triggers[idx]?.bind fun t =>
    if t.status ≠ .armed then none
    else
      some { s with triggers := s.triggers.set idx { t with status := .fired, firedMs := nowMs } }

def MemoryKind.label : MemoryKind → String
  | .thought => "thought"
  | .observation => "observation"
  | .decision => "decision"
  | .codeFact => "code_fact"

/-! ## The stores and the calls -/

/-- The stores that calls change, the touches that wait, and the organs that are disabled. -/
structure FieldStores (F : Type) where
  tripletStore : TripletStore F
  store : LiveStore F
  symbolIdx : SymbolIndex F
  callGraph : CallGraph
  agentProtocolStore : AgentProtocolStore F
  constraintStore : ConstraintStore F
  triggerStore : TriggerStore F
  pendingTouches : List (MemoryId × ℤ)
  tripletIdAlloc : UInt64
  symbolIdAlloc : UInt64
  disabled : OrganName → Bool

/-- What a call comes to: the stores, what it returns, and what its appends returned. -/
structure Made (F : Type) where
  after : FieldStores F
  result : Except FieldError Unit
  appends : List (Except FieldError Unit)

namespace FieldStores

/-- A call, with what the log answers it. -/
inductive Call (F : Type) where
  | addTriplet (subject predicate object : String) (weight : F) (sourceMemoryId : Option MemoryId)
      (sourceFile : Option String) (append : Except FieldError Unit)
  | invalidateTriplet (tripletId : ℕ) (append : Except FieldError Unit)
  | invalidateTripletsBySourceFile (sourceFile : String) (append : Except FieldError Unit)
  | tripletSupersede (oldId newId : ℕ) (atMs : ℤ) (append : Except FieldError Unit)
  | updateState (memoryId : MemoryId) (strengthDelta confidenceDelta decayRate : Option F)
      (touch : Bool) (pin : Option Bool) (append : Except FieldError Unit)
  /-- `appends` are those of the triplets of the memory. -/
  | forget (memoryId : MemoryId) (append sync : Except FieldError Unit)
      (appends : ℕ → Except FieldError Unit)
  | addAssocEdge (src dst : MemoryId) (edgeType : EdgeType) (weight : F)
      (append : Except FieldError Unit)
  | upsertSymbol (kind name signature filePath : String) (lineStart lineEnd repoId : ℕ)
      (embedding : List F) (description : Option String) (memoryId : Option MemoryId)
      (append : Except FieldError Unit)
  | addCallEdge (callerId calleeId : SymbolId) (append : Except FieldError Unit)
  | registerTask (goal : String) (constraints acceptanceCriteria : List String)
      (realm sessionId : String) (priority : ℕ) (parentTaskId : Option ℕ) (deadlineMs : Option ℤ)
      (tags : List String) (append : Except FieldError Unit)
  | assertConstraint (subject predicate object : String) (confidence : F) (scope : String)
      (branchId : ℕ) (provenance : Provenance) (sourceMemoryId : Option MemoryId)
      (append : Except FieldError Unit)
  | fireTrigger (triggerId : ℕ) (append : Except FieldError Unit)
  /-- `rates` are the decay rates that the learner previews. -/
  | drainPendingTouches (rates : ℕ → F) (append sync : Except FieldError Unit)

/-- A call that appends and then changes the stores. -/
def writeAhead (s : FieldStores F) (append : Except FieldError Unit) (after : FieldStores F) : Made F :=
  match append with
  | .error e => ⟨s, .error e, [.error e]⟩
  | .ok () => ⟨after, .ok (), [.ok ()]⟩

/-- A call that changes the stores and then appends. -/
def writeBehind (after : FieldStores F) (append : Except FieldError Unit) : Made F :=
  ⟨after, append, [append]⟩

/-- A call that appends nothing. -/
def unwritten (s : FieldStores F) (result : Except FieldError Unit) : Made F := ⟨s, result, []⟩

variable [F32 F]

/-- Add a triplet.  Its id is taken before the append. -/
def addTriplet (s : FieldStores F) (now : ℤ) (subject predicate object : String) (weight : F)
    (sourceMemoryId : Option MemoryId) (sourceFile : Option String)
    (append : Except FieldError Unit) : Made F :=
  let o : AddTripletOp F := ⟨s.tripletIdAlloc.toNat, subject, predicate, object, weight, now,
    sourceMemoryId, sourceFile⟩
  let s := { s with tripletIdAlloc := s.tripletIdAlloc + 1 }
  writeAhead s append { s with tripletStore := s.tripletStore.replayAddAt o now }

/-- The triplet that is added when an edge is blocked. -/
def blockedTriplet (s : FieldStores F) (src dst : MemoryId) : String × String :=
  match s.store.ctx.payloads src, s.store.ctx.payloads dst with
  | some sp, some dp =>
    let ids := "id=" ++ toString src ++ "→" ++ toString dst
    if sp.candidate && !dp.candidate then ("candidate_laundering_blocked", ids)
    else ("illegal_edge_blocked",
      sp.inferKind.label ++ "→" ++ dp.inferKind.label ++ " " ++ ids)
  | _, _ => ("", "")

/-- Link two memories.  An edge that is blocked becomes a triplet, and it does not matter whether
that can be added. -/
def addAssocEdge (s : FieldStores F) (now : ℤ) (src dst : MemoryId) (edgeType : EdgeType) (weight : F)
    (append : Except FieldError Unit) : Made F :=
  let linked := s.store.addAssocEdge src dst edgeType weight ⟨[], append⟩
  if s.store.isAlive src && s.store.isAlive dst then
    if s.store.edgeBlocked src dst edgeType then
      let added := s.addTriplet now "cec:contradiction_yield" (s.blockedTriplet src dst).1
        (s.blockedTriplet src dst).2 (F32.lit 1) none none append
      { added with result := linked.2 }
    else ⟨{ s with store := linked.1 }, linked.2, [append]⟩
  else unwritten s linked.2

/-- Forget a memory, and end the triplets that come from it as far as the log takes that. -/
def forget (s : FieldStores F) (now : ℤ) (memoryId : MemoryId) (append sync : Except FieldError Unit)
    (appends : ℕ → Except FieldError Unit) : Made F :=
  let sourced := (s.tripletStore.idsBySourceMemory memoryId).zipIdx
  let ended := (sourced.filter fun p => (appends p.2).isOk).map Prod.fst
  let forgotten := s.store.forget memoryId
    ⟨now, append, sync, ended.map fun tid => ⟨.invalidateTriplet ⟨tid, now⟩, rfl⟩⟩
  if (s.store.ctx.states memoryId).isNone then unwritten s forgotten.2
  else if append.isOk && sync.isOk then
    ⟨{ s with
       store := forgotten.1
       tripletStore := ended.foldl (fun t tid => t.invalidate ⟨tid, now⟩) s.tripletStore },
      forgotten.2, append :: sourced.map fun p => appends p.2⟩
  else ⟨{ s with store := forgotten.1 }, forgotten.2, [append]⟩

/-- Log the touches that wait, in the order of their times, and apply them. -/
def drainPendingTouches (s : FieldStores F) (rates : ℕ → F) (append sync : Except FieldError Unit) :
    Made F :=
  if s.pendingTouches.isEmpty then unwritten s (.ok ())
  else
    let touches := s.pendingTouches.insertionSort fun a b => a.2 ≤ b.2
    match append with
    | .error e => ⟨{ s with pendingTouches := touches }, .error e, [.error e]⟩
    | .ok () =>
      let deltas : List (StateDeltaOp F) := touches.zipIdx.map fun p =>
        ⟨p.1.1, none, none, some (rates p.2), true, none, p.1.2, none, none, none, none⟩
      let ctx := deltas.foldl (fun ctx delta =>
        ctx.modifyState delta.memoryId (·.applyAccessDelta delta)) s.store.ctx
      ⟨{ s with
         store := { s.store with
           ctx := ctx
           wal := s.store.wal ++ [.updateStateBatch deltas] }
         pendingTouches := [] }, sync, [.ok ()]⟩

/-- Make a call. -/
def make (s : FieldStores F) (now : ℤ) : Call F → Made F
  | .addTriplet subject predicate object weight sourceMemoryId sourceFile append =>
    s.addTriplet now subject predicate object weight sourceMemoryId sourceFile append
  | .invalidateTriplet tripletId append =>
    writeAhead s append { s with tripletStore := s.tripletStore.invalidate ⟨tripletId, now⟩ }
  | .invalidateTripletsBySourceFile sourceFile append =>
    writeBehind { s with
      tripletStore := (s.tripletStore.invalidateBySourceFile ⟨sourceFile, now⟩).1 } append
  | .tripletSupersede oldId newId atMs append =>
    writeAhead s append { s with tripletStore := s.tripletStore.supersede ⟨oldId, newId, atMs⟩ }
  | .updateState memoryId strengthDelta confidenceDelta decayRate touch pin append =>
    let updated := s.store.updateState memoryId strengthDelta confidenceDelta decayRate touch pin now
      append
    ⟨{ s with store := updated.1 }, updated.2, if s.store.isAlive memoryId then [append] else []⟩
  | .forget memoryId append sync appends => s.forget now memoryId append sync appends
  | .addAssocEdge src dst edgeType weight append =>
    s.addAssocEdge now src dst edgeType weight append
  | .upsertSymbol kind name signature filePath lineStart lineEnd repoId embedding description
      memoryId append =>
    let id := s.symbolIdAlloc.toNat
    let s := { s with symbolIdAlloc := s.symbolIdAlloc + 1 }
    writeAhead s append { s with
      symbolIdx := s.symbolIdx.upsert ⟨id, kind, name, signature, filePath, lineStart, lineEnd,
        repoId, embedding, description, memoryId⟩ }
  | .addCallEdge callerId calleeId append =>
    writeAhead s append { s with callGraph := s.callGraph.addEdge callerId calleeId }
  | .registerTask goal constraints acceptanceCriteria realm sessionId priority parentTaskId deadlineMs
      tags append =>
    if s.disabled .agentProtocol then unwritten s (.ok ())
    else
      writeBehind { s with
        agentProtocolStore := (s.agentProtocolStore.call now (.registerTask goal constraints
          acceptanceCriteria realm sessionId priority parentTaskId deadlineMs tags)).1 } append
  | .assertConstraint subject predicate object confidence scope branchId provenance sourceMemoryId
      append =>
    -- what is written to a disabled store is discarded, and the log suppresses the operation
    if s.disabled .constraint then unwritten s (.ok ())
    else
      writeBehind { s with
        constraintStore := (s.constraintStore.call now (.assertConstraint subject predicate object
          confidence scope branchId provenance sourceMemoryId)).1 } append
  | .fireTrigger triggerId append =>
    if s.disabled .trigger then unwritten s (.ok ())
    else
      match s.triggerStore.fire triggerId now with
      | none => unwritten s (.ok ())
      | some triggerStore => writeBehind { s with triggerStore := triggerStore } append
  | .drainPendingTouches rates append sync => s.drainPendingTouches rates append sync

end FieldStores

/-! ## Triplets of a source file -/

namespace Facts

variable (f : Facts F) (now : ℤ)

/-- What is at a position when the valid triplets at some positions have been ended. -/
lemma getElem?_foldl_expireAt (positions : List ℕ)
    (acc : List (TripletEntry F) × List String × List ℕ) (i : ℕ) :
    (positions.foldl (expireAt now) acc).1[i]? = acc.1[i]?.map fun e =>
      if i ∈ positions ∧ e.validToMs = 0 then { e with validToMs := now } else e := by
  induction positions generalizing acc with
  | nil => simp
  | cons pos positions ih =>
    rw [List.foldl_cons, ih]
    unfold expireAt
    cases he : acc.1[pos]? with
    | none =>
      by_cases hi : i = pos
      · subst hi
        simp [he]
      · simp [hi]
    | some e =>
      obtain ⟨hlt, hget⟩ := List.getElem?_eq_some_iff.mp he
      by_cases hi : i = pos
      · subst hi
        by_cases hvalid : e.validToMs = 0
        · simp [hvalid, hlt, hget]
        · simp [hvalid, he]
      · by_cases hvalid : e.validToMs = 0
        · simp [hvalid, hi, List.getElem?_set_ne (Ne.symm hi)]
        · simp [hvalid, hi]

/-- The subjects of the triplets that have been ended. -/
lemma mem_subjects_foldl_expireAt (positions : List ℕ)
    (acc : List (TripletEntry F) × List String × List ℕ) (subject : String) :
    subject ∈ (positions.foldl (expireAt now) acc).2.1 ↔ subject ∈ acc.2.1 ∨
      ∃ pos ∈ positions, ∃ e, acc.1[pos]? = some e ∧ e.validToMs = 0 ∧ e.subject = subject := by
  induction positions generalizing acc with
  | nil => simp
  | cons pos positions ih =>
    rw [List.foldl_cons, ih, List.exists_mem_cons_iff, ← or_assoc]
    have hrest := fun i => getElem?_foldl_expireAt now [pos] acc i
    simp only [List.foldl_cons, List.foldl_nil, List.mem_singleton] at hrest
    have hhead : subject ∈ (expireAt now acc pos).2.1 ↔ subject ∈ acc.2.1 ∨
        ∃ e, acc.1[pos]? = some e ∧ e.validToMs = 0 ∧ e.subject = subject := by
      unfold expireAt
      cases he : acc.1[pos]? with
      | none => simp
      | some e => by_cases hvalid : e.validToMs = 0 <;> simp [hvalid, eq_comm]
    rw [hhead]
    constructor
    · rintro (h | ⟨i, hi, e, he, hvalid, hsubject⟩)
      · exact Or.inl h
      · rw [hrest] at he
        obtain ⟨e', he', rfl⟩ := Option.map_eq_some_iff.mp he
        by_cases hexpired : i = pos ∧ e'.validToMs = 0
        · rw [if_pos hexpired] at hsubject
          exact Or.inl (Or.inr ⟨e', hexpired.1 ▸ he', hexpired.2, hsubject⟩)
        · rw [if_neg hexpired] at hvalid hsubject
          exact Or.inr ⟨i, hi, e', he', hvalid, hsubject⟩
    · rintro (h | ⟨i, hi, e, he, hvalid, hsubject⟩)
      · exact Or.inl h
      · by_cases heq : i = pos
        · exact Or.inl (Or.inr ⟨e, heq ▸ he, hvalid, hsubject⟩)
        · refine Or.inr ⟨i, hi, e, ?_, hvalid, hsubject⟩
          rw [hrest, he, Option.map_some, if_neg fun h => heq h.1]

/-- A subject is marked dirty already. -/
def Dirty (f : Facts F) (subject : String) : Prop :=
  f.clean = false ∧ ∀ dirty ∈ f.dirtySubjects, subject ∈ dirty

lemma Dirty.markDirty {f : Facts F} {subject : String} (h : f.Dirty subject) :
    f.markDirty subject = f := by
  obtain ⟨hclean, hdirty⟩ := h
  unfold Facts.markDirty
  cases hd : f.dirtySubjects with
  | none => cases f; simp_all
  | some dirty =>
    have hmem : insert subject dirty = dirty := Finset.insert_eq_self.mpr (hdirty dirty hd)
    cases f
    simp_all

lemma dirty_markDirty (f : Facts F) (subject : String) : (f.markDirty subject).Dirty subject := by
  refine ⟨rfl, fun dirty hdirty => ?_⟩
  obtain ⟨dirty', -, rfl⟩ := Option.map_eq_some_iff.mp hdirty
  exact Finset.mem_insert_self _ _

lemma Dirty.mono {f : Facts F} {subject : String} (h : f.Dirty subject) (other : String) :
    (f.markDirty other).Dirty subject := by
  refine ⟨rfl, fun dirty hdirty => ?_⟩
  obtain ⟨dirty', hdirty', rfl⟩ := Option.map_eq_some_iff.mp hdirty
  rw [h.1] at hdirty'
  exact Finset.mem_insert_of_mem (h.2 dirty' hdirty')

/-- To mark subjects changes nothing iff they are marked. -/
lemma foldl_markDirty_eq_iff (f : Facts F) (subjects : List String) :
    subjects.foldl markDirty f = f ↔ ∀ subject ∈ subjects, f.Dirty subject := by
  constructor
  · intro h subject hsubject
    have hmarked : ∀ (subjects : List String) (g : Facts F), subject ∈ subjects ∨ g.Dirty subject →
        (subjects.foldl markDirty g).Dirty subject := by
      intro subjects
      induction subjects with
      | nil => exact fun g hg => hg.resolve_left List.not_mem_nil
      | cons other subjects ih =>
        intro g hg
        rw [List.foldl_cons]
        refine ih _ ?_
        rcases hg with hmem | hdirty
        · rcases List.mem_cons.mp hmem with rfl | hmem
          · exact Or.inr (dirty_markDirty g _)
          · exact Or.inl hmem
        · exact Or.inr (hdirty.mono other)
    exact h ▸ hmarked subjects f (Or.inl hsubject)
  · intro h
    induction subjects with
    | nil => rfl
    | cons subject subjects ih =>
      rw [List.foldl_cons, (h subject List.mem_cons_self).markDirty]
      exact ih (List.forall_mem_cons.mp h).2

/-- A file has no valid triplet, but for such as the clock does not end and the cleaner knows of. -/
def Spent (f : Facts F) (sourceFile : String) (now : ℤ) : Prop :=
  ∀ pos ∈ f.bySourceFile.getD (sourceIndex f.entries) sourceFile, ∀ e, f.entries[pos]? = some e →
    e.validToMs = 0 → now = 0 ∧ f.Dirty e.subject

/-- To end the triplets of a file leaves the triplets as they are iff none is valid. -/
lemma invalidateBySourceFile_eq_iff (f : Facts F) (sourceFile : String) (now : ℤ) :
    (f.invalidateBySourceFile ⟨sourceFile, now⟩).1.withSource f.bySourceFile = f ↔
      f.Spent sourceFile now := by
  unfold invalidateBySourceFile
  dsimp only
  generalize hpositions : f.bySourceFile.getD (sourceIndex f.entries) sourceFile = positions
  have hentries : (positions.foldl (expireAt now) (f.entries, [], [])).1 = f.entries ↔
      ∀ pos ∈ positions, ∀ e, f.entries[pos]? = some e → e.validToMs = 0 → now = 0 := by
    constructor
    · intro h pos hpos e he hvalid
      have hget := getElem?_foldl_expireAt now positions (f.entries, [], []) pos
      rw [h, he, Option.map_some, if_pos ⟨hpos, hvalid⟩] at hget
      have htime := congrArg TripletEntry.validToMs (Option.some.inj hget)
      exact htime.symm.trans hvalid
    · intro h
      refine List.ext_getElem? fun i => ?_
      rw [getElem?_foldl_expireAt]
      cases he : f.entries[i]? with
      | none => rfl
      | some e =>
        rw [Option.map_some]
        by_cases hexpired : i ∈ positions ∧ e.validToMs = 0
        · rw [if_pos hexpired, h i hexpired.1 e he hexpired.2, ← hexpired.2]
        · rw [if_neg hexpired]
  -- the positions by source file play no part in marking
  have hmark : ∀ (subjects : List String) (g : Facts F) (b : Option (String → List ℕ)),
      (subjects.foldl markDirty g).withSource b = subjects.foldl markDirty (g.withSource b) := by
    intro subjects
    induction subjects with
    | nil => exact fun _ _ => rfl
    | cons subject subjects ih => exact fun g b => ih (g.markDirty subject) b
  rw [hmark]
  constructor
  · intro h pos hpos e he hvalid
    rw [hpositions] at hpos
    have hkept := congrArg Facts.entries h
    rw [(foldl_markDirty_frame _ _).2] at hkept
    have hnow := hentries.mp hkept pos hpos e he hvalid
    have hsame : ({ f with
        entries := (positions.foldl (expireAt now) (f.entries, [], [])).1
        bySourceFile := some (f.bySourceFile.getD (sourceIndex f.entries)) } : Facts F).withSource
          f.bySourceFile = f := by
      have hkept' : (positions.foldl (expireAt now) (f.entries, [], [])).1 = f.entries := hkept
      rw [hkept']
      rfl
    rw [hsame] at h
    refine ⟨hnow, (foldl_markDirty_eq_iff f _).mp h e.subject ?_⟩
    exact (mem_subjects_foldl_expireAt now positions (f.entries, [], []) _).mpr
      (Or.inr ⟨pos, hpos, e, he, hvalid, rfl⟩)
  · intro h
    unfold Spent at h
    rw [hpositions] at h
    have hkept := hentries.mpr fun pos hpos e he hvalid => (h pos hpos e he hvalid).1
    rw [hkept]
    refine (foldl_markDirty_eq_iff f _).mpr fun subject hsubject => ?_
    rcases (mem_subjects_foldl_expireAt now positions (f.entries, [], []) _).mp hsubject with
      hnil | ⟨pos, hpos, e, he, hvalid, rfl⟩
    · exact absurd hnil List.not_mem_nil
    · exact (h pos hpos e he hvalid).2

end Facts

/-! ## Calls whose append fails -/

namespace FieldStores

/-- The stores are as they were, and the touches still wait.  The positions by source file are built
when they are first needed. -/
structure Unchanged (s s' : FieldStores F) : Prop where
  tripletStore : { s'.tripletStore with bySourceFile := s.tripletStore.bySourceFile } = s.tripletStore
  states : s'.store.ctx.states = s.store.ctx.states
  assocEdges : s'.store.ctx.assocEdges = s.store.ctx.assocEdges
  symbolIdx : s'.symbolIdx = s.symbolIdx
  callGraph : s'.callGraph = s.callGraph
  agentProtocolStore : s'.agentProtocolStore = s.agentProtocolStore
  constraintStore : s'.constraintStore = s.constraintStore
  triggerStore : s'.triggerStore = s.triggerStore
  pendingTouches : s'.pendingTouches.Perm s.pendingTouches

/-- Stores whose compared parts are the same. -/
lemma Unchanged.refl (s : FieldStores F) : s.Unchanged s :=
  ⟨rfl, rfl, rfl, rfl, rfl, rfl, rfl, rfl, .refl _⟩

/-- If an append of a call fails, the call does, and changes nothing. -/
def Atomic (m : Made F) (s : FieldStores F) : Prop :=
  (∃ e, .error e ∈ m.appends) → (∃ e, m.result = .error e) ∧ s.Unchanged m.after

lemma atomic_unwritten (s : FieldStores F) (result : Except FieldError Unit) :
    Atomic (unwritten s result) s := fun ⟨_, he⟩ => absurd he List.not_mem_nil

/-- A call that appends first and has changed nothing by then. -/
lemma atomic_writeAhead {s s' : FieldStores F} (h : s.Unchanged s') (append : Except FieldError Unit)
    (after : FieldStores F) : Atomic (writeAhead s' append after) s := by
  rintro ⟨e, he⟩
  cases append with
  | error e' => exact ⟨⟨e', rfl⟩, h⟩
  | ok u => exact absurd (List.mem_singleton.mp he) nofun

/-- A call that appends behind its change has to have changed nothing. -/
lemma atomic_writeBehind {s after : FieldStores F} {append : Except FieldError Unit} :
    Atomic (writeBehind after append) s ↔ (append.isOk = true ∨ s.Unchanged after) := by
  cases append with
  | error e =>
    exact ⟨fun h => Or.inr (h ⟨e, List.mem_singleton.mpr rfl⟩).2,
      fun h _ => ⟨⟨e, rfl⟩, h.resolve_left nofun⟩⟩
  | ok u =>
    exact ⟨fun _ => Or.inl rfl, fun _ ⟨e, he⟩ => absurd (List.mem_singleton.mp he) nofun⟩

variable [F32 F] (s : FieldStores F) (now : ℤ)

/-- What a call whose append fails needs: that it appends first, or has nothing to change; that of the
appends of a `forget` it is the first that fails. -/
def Spared (s : FieldStores F) (now : ℤ) : Call F → Prop
  | .invalidateTripletsBySourceFile sourceFile append => append.isOk = true ∨
      s.tripletStore.deferredReplay = none ∧ s.tripletStore.Spent sourceFile now
  | .forget memoryId append sync appends => (s.store.ctx.states memoryId).isSome = true →
      append.isOk = true → sync.isOk = true →
        ∀ i < (s.tripletStore.idsBySourceMemory memoryId).length, (appends i).isOk = true
  | .registerTask _ _ _ _ _ _ _ _ _ append => append.isOk = true ∨ s.disabled .agentProtocol = true
  | .assertConstraint _ _ _ _ _ _ _ _ append => append.isOk = true ∨ s.disabled .constraint = true
  | .fireTrigger triggerId append => append.isOk = true ∨ s.disabled .trigger = true ∨
      ∀ t, s.triggerStore.get triggerId = some t → t.status ≠ .armed
  | _ => True

/-! ### The calls that change first -/

omit [F32 F] in
lemma unchanged_sourceFile (sourceFile : String) : s.Unchanged { s with
      tripletStore := (s.tripletStore.invalidateBySourceFile ⟨sourceFile, now⟩).1 } ↔
    s.tripletStore.deferredReplay = none ∧ s.tripletStore.Spent sourceFile now := by
  have honly : s.Unchanged { s with
      tripletStore := (s.tripletStore.invalidateBySourceFile ⟨sourceFile, now⟩).1 } ↔
      { (s.tripletStore.invalidateBySourceFile ⟨sourceFile, now⟩).1 with
        bySourceFile := s.tripletStore.bySourceFile } = s.tripletStore :=
    ⟨fun h => h.tripletStore, fun h => ⟨h, rfl, rfl, rfl, rfl, rfl, rfl, rfl, .refl _⟩⟩
  rw [honly, ← Facts.invalidateBySourceFile_eq_iff]
  unfold TripletStore.invalidateBySourceFile
  cases hdeferred : s.tripletStore.deferredReplay with
  | some buffer =>
    refine ⟨fun h => ?_, fun h => absurd h.1 nofun⟩
    have hbuffer := congrArg TripletStore.deferredReplay h
    rw [hdeferred] at hbuffer
    have hlen := congrArg List.length (Option.some.inj hbuffer)
    rw [List.length_append] at hlen
    exact absurd hlen (Nat.succ_ne_self _)
  | none =>
    refine ⟨fun h => ⟨rfl, congrArg TripletStore.toFacts h⟩, fun h => ?_⟩
    have hstore := congrArg (fun f => ({ s.tripletStore with toFacts := f } : TripletStore F)) h.2
    refine Eq.trans ?_ hstore
    simp only [hdeferred]
    rfl

omit [F32 F] in
lemma registered_ne (goal : String) (constraints acceptanceCriteria : List String)
    (realm sessionId : String) (priority : ℕ) (parentTaskId : Option ℕ) (deadlineMs : Option ℤ)
    (tags : List String) : (s.agentProtocolStore.call now (.registerTask goal constraints
      acceptanceCriteria realm sessionId priority parentTaskId deadlineMs tags)).1 ≠
        s.agentProtocolStore := by
  intro h
  have hlen := congrArg (fun a : AgentProtocolStore F => a.tasks.length) h
  simp [AgentProtocolStore.call, AgentProtocolStore.insertTask] at hlen

lemma asserted_ne (subject predicate object : String) (confidence : F) (scope : String)
    (branchId : ℕ) (provenance : Provenance) (sourceMemoryId : Option MemoryId) :
    (s.constraintStore.call now (.assertConstraint subject predicate object confidence scope branchId
      provenance sourceMemoryId)).1 ≠ s.constraintStore := by
  intro h
  have hlen := congrArg (fun c : ConstraintStore F => c.constraints.length) h
  simp only [ConstraintStore.call, ConstraintStore.assertFact] at hlen
  split at hlen <;>
    simp [ConstraintStore.insertConstraint, ConstraintStore.createBranch,
      ConstraintStore.pushBranch] at hlen

omit [F32 F] in
/-- A trigger that fires is another one then. -/
lemma fire_cases (t : TriggerStore F) (id : ℕ) :
    t.fire id now = none ∧ (∀ a, t.get id = some a → a.status ≠ .armed) ∨
      ∃ t', t.fire id now = some t' ∧ t' ≠ t ∧ ¬ ∀ a, t.get id = some a → a.status ≠ .armed := by
  unfold TriggerStore.fire TriggerStore.get
  cases hidx : t.idToIndex id with
  | none => exact Or.inl ⟨rfl, fun _ h => absurd h nofun⟩
  | some idx =>
    simp only [Option.bind_some]
    cases ha : t.triggers[idx]? with
    | none => exact Or.inl ⟨rfl, fun _ h => absurd h nofun⟩
    | some a =>
      simp only [Option.bind_some, Option.some.injEq, forall_eq']
      by_cases harmed : a.status = .armed
      · rw [if_neg (not_not.mpr harmed)]
        refine Or.inr ⟨_, rfl, fun h => ?_, not_not.mpr harmed⟩
        have hset := congrArg (fun t : TriggerStore F => t.triggers[idx]?) h
        obtain ⟨hlt, -⟩ := List.getElem?_eq_some_iff.mp ha
        simp only [List.getElem?_set_self hlt, ha, Option.some.injEq] at hset
        have hstatus := congrArg TriggerAutomaton.status hset
        rw [harmed] at hstatus
        exact absurd hstatus nofun
      · rw [if_pos harmed]
        exact Or.inl ⟨rfl, harmed⟩

/-! ### The calls that append first -/

lemma atomic_updateState (memoryId : MemoryId) (strengthDelta confidenceDelta decayRate : Option F)
    (touch : Bool) (pin : Option Bool) (append : Except FieldError Unit) :
    Atomic (s.make now (.updateState memoryId strengthDelta confidenceDelta decayRate touch pin
      append)) s := by
  rintro ⟨e, he⟩
  simp only [make] at he ⊢
  split at he
  · obtain rfl := List.mem_singleton.mp he
    unfold LiveStore.updateState
    cases s.store.ctx.states memoryId with
    | none => exact ⟨⟨_, rfl⟩, Unchanged.refl s⟩
    | some state =>
      dsimp only
      split
      · exact ⟨⟨_, rfl⟩, Unchanged.refl s⟩
      · exact ⟨⟨e, rfl⟩, Unchanged.refl s⟩
  · exact absurd he List.not_mem_nil

lemma atomic_addTriplet (subject predicate object : String) (weight : F)
    (sourceMemoryId : Option MemoryId) (sourceFile : Option String)
    (append : Except FieldError Unit) :
    Atomic (s.addTriplet now subject predicate object weight sourceMemoryId sourceFile append) s := by
  have htaken : s.Unchanged { s with tripletIdAlloc := s.tripletIdAlloc + 1 } :=
    ⟨rfl, rfl, rfl, rfl, rfl, rfl, rfl, rfl, .refl _⟩
  exact atomic_writeAhead htaken append _

lemma atomic_addAssocEdge (src dst : MemoryId) (edgeType : EdgeType) (weight : F)
    (append : Except FieldError Unit) :
    Atomic (s.addAssocEdge now src dst edgeType weight append) s := by
  unfold addAssocEdge LiveStore.addAssocEdge LiveStore.isAlive
  cases hsrc : s.store.ctx.states src with
  | none => exact atomic_unwritten s _
  | some srcState =>
    cases hdst : s.store.ctx.states dst with
    | none =>
      simp only [Option.map_some, Option.map_none, Option.getD_some, Option.getD_none, Bool.and_false]
      exact atomic_unwritten s _
    | some dstState =>
      simp only [Option.map_some, Option.getD_some]
      by_cases hdead : srcState.deleted = true ∨ dstState.deleted = true
      · have hnone : (!srcState.deleted && !dstState.deleted) = false := by
          rcases hdead with h | h <;> simp [h]
        rw [hnone]
        exact atomic_unwritten s _
      · obtain ⟨hs, hd⟩ := not_or.mp hdead
        simp only [Bool.not_eq_true] at hs hd
        simp only [hs, hd, Bool.not_false, Bool.and_self, if_true, Bool.false_eq_true, if_false]
        split
        · rintro ⟨e, he⟩
          exact ⟨⟨_, rfl⟩, (s.atomic_addTriplet now _ _ _ _ _ _ append ⟨e, he⟩).2⟩
        · rintro ⟨e, he⟩
          obtain rfl := List.mem_singleton.mp he
          exact ⟨⟨e, rfl⟩, Unchanged.refl s⟩

lemma atomic_drainPendingTouches (rates : ℕ → F) (append sync : Except FieldError Unit) :
    Atomic (s.drainPendingTouches rates append sync) s := by
  unfold drainPendingTouches
  split
  · exact atomic_unwritten s _
  · rintro ⟨e, he⟩
    cases append with
    | error e' =>
      exact ⟨⟨e', rfl⟩, rfl, rfl, rfl, rfl, rfl, rfl, rfl, rfl, List.perm_insertionSort _ _⟩
    | ok u => exact absurd (List.mem_singleton.mp he) nofun

omit [F32 F] in
/-- A memory is forgotten though the log has not taken the end of one of its triplets. -/
lemma atomic_forget (memoryId : MemoryId) (append sync : Except FieldError Unit)
    (appends : ℕ → Except FieldError Unit) :
    Atomic (s.forget now memoryId append sync appends) s ↔
      ((s.store.ctx.states memoryId).isSome = true → append.isOk = true → sync.isOk = true →
        ∀ i < (s.tripletStore.idsBySourceMemory memoryId).length, (appends i).isOk = true) := by
  cases hstate : s.store.ctx.states memoryId with
  | none =>
    refine iff_of_true ?_ (fun h => absurd h nofun)
    simp only [forget, hstate, Option.isNone_none, if_true]
    exact atomic_unwritten s _
  | some state =>
    cases append with
    | error e =>
      refine iff_of_true (fun _ => ?_) (fun _ h => absurd h nofun)
      simp only [forget, LiveStore.forget, hstate]
      exact ⟨⟨e, rfl⟩, Unchanged.refl s⟩
    | ok u =>
      cases sync with
      | error e =>
        refine iff_of_true (fun ⟨e', he'⟩ => ?_) (fun _ _ h => absurd h nofun)
        simp only [forget, hstate] at he'
        exact absurd (List.mem_singleton.mp he') nofun
      | ok u' =>
        have hdone : Atomic (s.forget now memoryId (.ok ()) (.ok ()) appends) s ↔
            ∀ e, ∀ i < (s.tripletStore.idsBySourceMemory memoryId).length, appends i ≠ .error e := by
          simp only [forget, LiveStore.forget, hstate, Atomic, Option.isNone_some,
            Bool.false_eq_true, if_false, Except.isOk, Except.toBool, Bool.and_self, if_true,
            List.mem_cons, reduceCtorEq, false_or, List.mem_map, Prod.exists, exists_false,
            false_and, imp_false, not_exists, not_and]
          refine forall_congr' fun e => ⟨fun h i hi => ?_, fun h tid i hmem => ?_⟩
          · exact h _ i (List.mk_mem_zipIdx_iff_getElem?.mpr (List.getElem?_eq_getElem hi))
          · have hget := List.mk_mem_zipIdx_iff_getElem?.mp hmem
            exact h i (List.getElem?_eq_some_iff.mp hget).1
        refine hdone.trans ⟨fun h _ _ _ i hi => ?_, fun h e i hi he => ?_⟩
        · cases happend : appends i with
          | error e => exact absurd happend (h e i hi)
          | ok u => rfl
        · have hok := h rfl rfl rfl i hi
          rw [he] at hok
          exact absurd hok nofun

/-- A call that is told by an append that it failed has failed and has changed nothing, iff it appends
before it changes anything or has nothing to change, and, where it forgets a memory, it is the first
append that failed. -/
theorem failed_append_iff (c : Call F) : Atomic (s.make now c) s ↔ s.Spared now c := by
  cases c with
  | addTriplet subject predicate object weight sourceMemoryId sourceFile append =>
    exact iff_of_true (s.atomic_addTriplet now subject predicate object weight sourceMemoryId
      sourceFile append) trivial
  | invalidateTriplet tripletId append =>
    exact iff_of_true (atomic_writeAhead (Unchanged.refl s) append _) trivial
  | invalidateTripletsBySourceFile sourceFile append =>
    rw [make, atomic_writeBehind, s.unchanged_sourceFile now sourceFile]
    exact Iff.rfl
  | tripletSupersede oldId newId atMs append =>
    exact iff_of_true (atomic_writeAhead (Unchanged.refl s) append _) trivial
  | updateState memoryId strengthDelta confidenceDelta decayRate touch pin append =>
    exact iff_of_true (s.atomic_updateState now memoryId strengthDelta confidenceDelta decayRate touch
      pin append) trivial
  | forget memoryId append sync appends => exact s.atomic_forget now memoryId append sync appends
  | addAssocEdge src dst edgeType weight append =>
    exact iff_of_true (s.atomic_addAssocEdge now src dst edgeType weight append) trivial
  | upsertSymbol kind name signature filePath lineStart lineEnd repoId embedding description memoryId
      append =>
    have htaken : s.Unchanged { s with symbolIdAlloc := s.symbolIdAlloc + 1 } :=
      ⟨rfl, rfl, rfl, rfl, rfl, rfl, rfl, rfl, .refl _⟩
    exact iff_of_true (atomic_writeAhead htaken append _) trivial
  | addCallEdge callerId calleeId append =>
    exact iff_of_true (atomic_writeAhead (Unchanged.refl s) append _) trivial
  | registerTask goal constraints acceptanceCriteria realm sessionId priority parentTaskId deadlineMs
      tags append =>
    simp only [make, Spared]
    split
    · rename_i hdisabled
      exact iff_of_true (atomic_unwritten s _) (Or.inr hdisabled)
    · rename_i hdisabled
      rw [atomic_writeBehind]
      exact or_congr_right (iff_of_false
        (fun h => s.registered_ne now _ _ _ _ _ _ _ _ _ h.agentProtocolStore) hdisabled)
  | assertConstraint subject predicate object confidence scope branchId provenance sourceMemoryId
      append =>
    simp only [make, Spared]
    split
    · rename_i hdisabled
      exact iff_of_true (atomic_unwritten s _) (Or.inr hdisabled)
    · rename_i hdisabled
      rw [atomic_writeBehind]
      exact or_congr_right (iff_of_false
        (fun h => s.asserted_ne now _ _ _ _ _ _ _ _ h.constraintStore) hdisabled)
  | fireTrigger triggerId append =>
    simp only [make, Spared]
    split
    · rename_i hdisabled
      exact iff_of_true (atomic_unwritten s _) (Or.inr (Or.inl hdisabled))
    · rename_i hdisabled
      rcases fire_cases now s.triggerStore triggerId with ⟨hfire, hnot⟩ | ⟨t', hfire, hne, harmed⟩
      · rw [hfire]
        exact iff_of_true (atomic_unwritten s _) (Or.inr (Or.inr hnot))
      · rw [hfire]
        dsimp only
        rw [atomic_writeBehind]
        refine or_congr_right (iff_of_false (fun h => hne h.triggerStore) ?_)
        exact fun h => h.elim hdisabled harmed
  | drainPendingTouches rates append sync =>
    exact iff_of_true (s.atomic_drainPendingTouches rates append sync) trivial

/-- Stores with nothing in them but a trigger that is armed. -/
def oneArmed : FieldStores ℚ where
  tripletStore := .empty ℚ
  store := .empty 1
  symbolIdx := ⟨fun _ => none, fun _ => none, fun _ => none⟩
  callGraph := .new
  agentProtocolStore := .new
  constraintStore := .new
  triggerStore := (TriggerStore.new.addTrigger "deadline" (.timeAfter 10) (.notify "late") 20 1 1 ""
    none 5).1
  pendingTouches := []
  tripletIdAlloc := 1
  symbolIdAlloc := 1
  disabled _ := false

/-- The trigger has fired, though the log has not taken that. -/
theorem armed_trigger_fires :
    ¬ ∀ (s : FieldStores ℚ) (now : ℤ) (c : Call ℚ), Atomic (s.make now c) s := by
  intro h
  obtain ⟨-, hsame⟩ := h oneArmed 12 (.fireTrigger 1 (.error (.io "disk full")))
    ⟨_, List.mem_singleton.mpr rfl⟩
  have hstatus := congrArg (fun t => t.triggers.map (·.status)) hsame.triggerStore
  exact absurd hstatus (by decide)

end FieldStores

end ChittaField
