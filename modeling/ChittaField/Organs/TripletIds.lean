import ChittaField.Lib.Replayed
import ChittaField.Log.Reader
import ChittaField.Organs.DeferredReplay

/-!
# The ids of new triplets

An open store takes the ids of new triplets from an allocator of its own, which starts behind the
ids that the open has replayed.  What is ingested from peers comes with ids of its own; the store
counts them, the allocator does not.

`triplet_ids_fresh` says when the ids that are given out are not those of other triplets.
-/

namespace ChittaField

variable {F : Type}

/-! ## The open store -/

/-- The triplets of an open store, with the allocator and what their loader needs.  The triplets that
were added and the ids that peers have brought since the open are noted beside. -/
structure TripletField (F : Type) where
  tripletStore : TripletStore F
  tripletIdAlloc : UInt64
  order : SubjectOrder
  sidecar : Option Sidecar
  given : List (AddTripletOp F)
  brought : List ℕ

/-- What an addition recorded while the indexes are owed adds. -/
def DeferredOp.added : DeferredOp F → Option ℕ
  | .add o _ => some o.tripletId
  | .invalidate _ => none
  | .invalidateBySourceFile _ => none

/-- The ids in a store and in its replay buffer. -/
def TripletStore.ids (t : TripletStore F) : List ℕ :=
  t.entries.map (·.id) ++ (t.deferredReplay.getD []).filterMap DeferredOp.added

namespace TripletField

variable [F32 F]

/-- Open a store: a snapshot, and the tail of the log.  The allocator is seeded behind the replay and
in front of the loader. -/
def openImpl (deferred : Bool) (order : SubjectOrder) (sidecar : Option Sidecar)
    (t : TripletStore F) (ops : List (ℤ × TripletOp F)) : TripletField F :=
  let replayed := if deferred then t.markIndexesDirty.replayAll ops else t.replayAll ops
  { tripletStore := if deferred then replayed else t.eagerLoad order sidecar ops
    tripletIdAlloc := replayed.nextId
    order := order
    sidecar := sidecar
    given := []
    brought := [] }

/-- The triplets; who reads them first runs the loader. -/
def access (s : TripletField F) : TripletStore F :=
  if s.tripletStore.deferredReplay.isSome then
    (((s.tripletStore.loadSupersessionSidecar s.sidecar).applyDeferredReplay).cleanForLoad s.order).1
  else s.tripletStore

/-- A call. -/
inductive Call (F : Type) where
  | addTriplet (subject predicate object : String) (weight : F) (sourceMemoryId : Option MemoryId)
      (sourceFile : Option String) (validFromMs ingestedMs : ℤ) (append : Except FieldError Unit)
  | invalidateTriplet (o : InvalidateTripletOp) (append : Except FieldError Unit)
  | tripletSupersede (o : SupersedeTripletOp) (append : Except FieldError Unit)
  /-- Ingest what peers have logged. -/
  | syncForeign (ops : List (ℤ × TripletOp F))

/-- Make a call; the ids that it gives out. -/
def call (s : TripletField F) : Call F → TripletField F × List ℕ
  | .addTriplet subject predicate object weight sourceMemoryId sourceFile validFromMs ingestedMs
      append =>
    let id := s.tripletIdAlloc.toNat
    let s := { s with tripletIdAlloc := s.tripletIdAlloc + 1 }
    match append with
    | .error _ => (s, [])
    | .ok () =>
      let o : AddTripletOp F :=
        ⟨id, subject, predicate, object, weight, validFromMs, sourceMemoryId, sourceFile⟩
      ({ s with
         tripletStore := s.access.replayAddAt o ingestedMs
         given := s.given ++ [o] }, [id])
  | .invalidateTriplet o append =>
    (if append.isOk then { s with tripletStore := s.access.invalidate o } else s, [])
  | .tripletSupersede o append =>
    (if append.isOk then { s with tripletStore := s.access.supersede o } else s, [])
  | .syncForeign ops =>
    ({ s with
       tripletStore := if ops.isEmpty then s.tripletStore else s.access.replayAll ops
       brought := s.brought ++ ops.filterMap fun op => op.2.added }, [])

end TripletField

/-! ## The ids of a store -/

namespace TripletStore

variable [F32 F] {t : TripletStore F}

omit [F32 F] in
lemma ids_of_none (h : t.deferredReplay = none) : t.ids = t.entries.map (·.id) := by
  rw [ids, h]
  exact List.append_nil _

/-- An operation adds its id, and changes no other. -/
lemma map_onFacts {α : Type} {pick : TripletEntry F → α}
    (hpick : ∀ (e : TripletEntry F) (t : ℤ), pick { e with validToMs := t } = pick e) (f : Facts F) :
    ∀ op : TripletOp F, (op.onFacts f).entries.map pick = f.entries.map pick ++
      match op with
      | .add o => [pick o.entry]
      | _ => []
  | .add o => by
    simp only [TripletOp.onFacts, Facts.insertWithId, Facts.noteAddition_frame, List.map_append]
    rfl
  | .invalidate o => by
    rw [List.append_nil]
    exact (Facts.map_invalidate hpick f o).1
  | .invalidateBySourceFile o => by
    rw [List.append_nil]
    simp only [TripletOp.onFacts, Facts.invalidateBySourceFile, Facts.foldl_markDirty_frame]
    exact Facts.map_foldl_expireAt hpick _ _ (f.entries, [], [])
  | .supersede o => by rw [List.append_nil]; rfl

lemma map_id_onFacts (f : Facts F) (op : TripletOp F) :
    (op.onFacts f).entries.map (·.id) = f.entries.map (·.id) ++ op.added.toList := by
  rw [map_onFacts (fun _ _ => rfl)]
  cases op <;> rfl

lemma map_id_foldl_onFacts (ops : List (TripletOp F)) (f : Facts F) :
    (ops.foldl TripletOp.onFacts f).entries.map (·.id) =
      f.entries.map (·.id) ++ ops.filterMap TripletOp.added := by
  induction ops generalizing f with
  | nil => exact (List.append_nil _).symm
  | cons op ops ih =>
    rw [List.foldl_cons, ih, map_id_onFacts, List.append_assoc, List.filterMap_cons]
    cases op.added <;> rfl

/-- What was recorded adds its ids when it is applied. -/
lemma foldl_applyDeferred_ids (h : t.deferredReplay = none) (buffer : List (DeferredOp F)) :
    (buffer.foldl applyDeferred t).deferredReplay = none ∧
      (buffer.foldl applyDeferred t).entries.map (·.id) =
        t.entries.map (·.id) ++ buffer.filterMap DeferredOp.added := by
  induction buffer generalizing t with
  | nil => exact ⟨h, (List.append_nil _).symm⟩
  | cons d buffer ih =>
    have hstep : (t.applyDeferred d).deferredReplay = none ∧
        (t.applyDeferred d).entries.map (·.id) = t.entries.map (·.id) ++ d.added.toList := by
      cases d with
      | add o ingestedMs =>
        have hdirect : t.applyDeferred (.add o ingestedMs) = _ := replay_direct h (ingestedMs, .add o)
        rw [hdirect]
        exact ⟨h, map_id_onFacts t.toFacts (.add o)⟩
      | invalidate o =>
        have hdirect : t.applyDeferred (.invalidate o) = _ := replay_direct h (0, .invalidate o)
        rw [hdirect]
        exact ⟨h, map_id_onFacts t.toFacts (.invalidate o)⟩
      | invalidateBySourceFile o =>
        have hdirect : t.applyDeferred (.invalidateBySourceFile o) = _ :=
          replay_direct h (0, .invalidateBySourceFile o)
        rw [hdirect]
        exact ⟨h, map_id_onFacts t.toFacts (.invalidateBySourceFile o)⟩
    obtain ⟨hnone, hids⟩ := ih hstep.1
    refine ⟨hnone, hids.trans ?_⟩
    rw [hstep.2, List.append_assoc, List.filterMap_cons]
    cases d.added <;> rfl

/-- When the indexes are built the ids stay. -/
lemma applyDeferredReplay_ids (t : TripletStore F) : t.applyDeferredReplay.deferredReplay = none ∧
    t.applyDeferredReplay.entries.map (·.id) = t.ids := by
  unfold applyDeferredReplay
  dsimp only
  split
  · exact foldl_applyDeferred_ids (t := rebuildIndexes { t with deferredReplay := none }) rfl _
  · exact foldl_applyDeferred_ids (t := { t with deferredReplay := none }) rfl _

lemma ensureIndexes_ids (h : t.deferredReplay = none) : t.ensureIndexes.deferredReplay = none ∧
    t.ensureIndexes.entries.map (·.id) = t.entries.map (·.id) := by
  unfold ensureIndexes
  split
  · obtain ⟨hnone, hids⟩ := t.applyDeferredReplay_ids
    exact ⟨hnone, hids.trans (ids_of_none h)⟩
  · exact ⟨h, rfl⟩

omit [F32 F] in
lemma purgeInvalidated_sub (t : TripletStore F) :
    t.purgeInvalidated.1.deferredReplay = t.deferredReplay ∧
      t.purgeInvalidated.1.entries ⊆ t.entries := by
  unfold purgeInvalidated
  dsimp only
  split <;> exact ⟨rfl, List.filter_subset_self _⟩

lemma dedupEntries_sub (t : TripletStore F) :
    t.dedupEntries.1.deferredReplay = t.deferredReplay ∧ t.dedupEntries.1.entries ⊆ t.entries := by
  unfold dedupEntries
  dsimp only
  split
  · exact ⟨rfl, List.Subset.refl _⟩
  · refine ⟨rfl, fun e he => ?_⟩
    obtain ⟨p, hp, rfl⟩ := List.mem_map.mp he
    exact List.fst_mem_of_mem_zipIdx (List.mem_of_mem_filter hp)

lemma cleanSubjects_sub (order : SubjectOrder) (t : TripletStore F) (subjects : Finset String) :
    (t.cleanSubjects order subjects).1.deferredReplay = t.deferredReplay ∧
      (t.cleanSubjects order subjects).1.entries ⊆ t.entries := by
  unfold cleanSubjects
  dsimp only
  split
  · exact ⟨rfl, List.Subset.refl _⟩
  · exact ⟨rfl, List.filter_subset_self _⟩

/-- The cleaner adds nothing. -/
lemma cleanForLoad_sub (order : SubjectOrder) (h : t.deferredReplay = none) :
    (t.cleanForLoad order).1.deferredReplay = none ∧
      ∀ id ∈ (t.cleanForLoad order).1.entries.map (·.id), id ∈ t.entries.map (·.id) := by
  obtain ⟨hnone, hids⟩ := ensureIndexes_ids h
  have hsub : ∀ {t' : TripletStore F}, t'.entries ⊆ t.ensureIndexes.entries →
      ∀ id ∈ t'.entries.map (·.id), id ∈ t.entries.map (·.id) := by
    intro t' hentries id hid
    rw [← hids]
    exact List.map_subset _ hentries hid
  unfold cleanForLoad
  dsimp only
  split
  · exact ⟨hnone, hsub (List.Subset.refl _)⟩
  · split
    · obtain ⟨hdeferred, hentries⟩ := cleanSubjects_sub order
        { t.ensureIndexes with dirtySubjects := none } _
      exact ⟨hdeferred.trans hnone, hsub hentries⟩
    · obtain ⟨hdeferred, hentries⟩ := purgeInvalidated_sub
        { t.ensureIndexes with dirtySubjects := none }
      obtain ⟨hdeferred', hentries'⟩ := dedupEntries_sub
        (purgeInvalidated { t.ensureIndexes with dirtySubjects := none }).1
      exact ⟨hdeferred'.trans (hdeferred.trans hnone), hsub (List.Subset.trans hentries' hentries)⟩

end TripletStore

/-! ## What an id resolves to -/

/-- A triplet as it was when it was added. -/
def TripletEntry.timeless (e : TripletEntry F) : TripletEntry F := { e with validToMs := 0 }

namespace Facts

variable [F32 F] {f : Facts F} {o : AddTripletOp F}

/-- The id of an addition resolves to what was added. -/
def Resolves (f : Facts F) (o : AddTripletOp F) : Prop :=
  (f.entryById o.tripletId).map TripletEntry.timeless = some o.entry

lemma resolves_insertWithId (f : Facts F) (o : AddTripletOp F) : (f.insertWithId o).Resolves o := by
  simp only [Resolves, entryById, insertWithId, noteAddition_frame, Function.update_self,
    Option.bind_some, List.getElem?_concat_length, Option.map_some]
  rfl

/-- Another addition leaves the position of an id. -/
lemma idToIndex_onFacts (f : Facts F) {op : TripletOp F} {id : ℕ} (hop : op.added ≠ some id) :
    (op.onFacts f).idToIndex id = f.idToIndex id := by
  cases op with
  | add o' =>
    have hne : id ≠ o'.tripletId := fun h => hop (congrArg some h.symm)
    obtain ⟨hsame, -⟩ := f.noteAddition_indexes o' (f.idToIndex o'.tripletId).isSome
      (f.findExactLive o'.subject o'.predicate o'.object).isSome
    simp only [TripletOp.onFacts, insertWithId, Function.update_of_ne hne]
    exact congrFun hsame.idToIndex id
  | invalidate o' => exact congrFun (f.sameIndexes_invalidate o').idToIndex id
  | invalidateBySourceFile o' =>
    have hsame : f.SameIndexes (f.invalidateBySourceFile o').1 :=
      sameIndexes_foldl_markDirty _ ⟨rfl, rfl, rfl, rfl, rfl⟩
    exact congrFun hsame.idToIndex id
  | supersede o' => rfl

/-- An id resolves to the same as long as it is not added again. -/
lemma Resolves.onFacts (h : f.Resolves o) {op : TripletOp F} (hop : op.added ≠ some o.tripletId) :
    (op.onFacts f).Resolves o := by
  unfold Resolves entryById at h ⊢
  rw [f.idToIndex_onFacts hop]
  cases hidx : f.idToIndex o.tripletId with
  | none => rw [hidx] at h; exact absurd h nofun
  | some idx =>
    rw [hidx, Option.bind_some, ← List.getElem?_map] at h
    rw [Option.bind_some, ← List.getElem?_map, TripletStore.map_onFacts (fun _ _ => rfl),
      List.getElem?_append_left (List.getElem?_eq_some_iff.mp h).1]
    exact h

lemma Resolves.foldl_onFacts (h : f.Resolves o) {ops : List (TripletOp F)}
    (hops : o.tripletId ∉ ops.filterMap TripletOp.added) :
    (ops.foldl TripletOp.onFacts f).Resolves o := by
  induction ops generalizing f with
  | nil => exact h
  | cons op ops ih =>
    have hop : op.added ≠ some o.tripletId := fun hadded =>
      hops (List.mem_filterMap.mpr ⟨op, List.mem_cons_self, hadded⟩)
    refine ih (h.onFacts hop) fun hmem => hops ?_
    obtain ⟨op', hop', hadded⟩ := List.mem_filterMap.mp hmem
    exact List.mem_filterMap.mpr ⟨op', List.mem_cons_of_mem _ hop', hadded⟩

end Facts

/-! ## The allocator at the open -/

/-- The counter is above an id that is advanced over, and never falls. -/
lemma advanceNextId_bounds {n : UInt64} {id : ℕ} (hid : id + 1 < 2 ^ 64) :
    n.toNat ≤ (advanceNextId n id).toNat ∧ id < (advanceNextId n id).toNat := by
  unfold advanceNextId
  split
  · rw [UInt64.toNat_ofNat_of_lt' hid]
    omega
  · omega

/-- The counter behind operations is above the ids that they add. -/
lemma TripletOp.foldl_onNextId_bounds (ops : List (TripletOp F))
    (hops : ∀ id ∈ ops.filterMap added, id + 1 < 2 ^ 64) (n : UInt64) :
    n.toNat ≤ (ops.foldl onNextId n).toNat ∧
      ∀ id ∈ ops.filterMap added, id < (ops.foldl onNextId n).toNat := by
  induction ops generalizing n with
  | nil => exact ⟨le_rfl, List.forall_mem_nil _⟩
  | cons op ops ih =>
    have htail : ∀ id ∈ ops.filterMap added, id + 1 < 2 ^ 64 := by
      intro id hid
      obtain ⟨op', hop', hadded⟩ := List.mem_filterMap.mp hid
      exact hops id (List.mem_filterMap.mpr ⟨op', List.mem_cons_of_mem _ hop', hadded⟩)
    obtain ⟨hle, hlt⟩ := ih htail (op.onNextId n)
    have hop : n.toNat ≤ (op.onNextId n).toNat ∧
        ∀ id, op.added = some id → id < (op.onNextId n).toNat := by
      cases op with
      | add o =>
        obtain ⟨hle, hlt⟩ := advanceNextId_bounds (n := n)
          (hops o.tripletId (List.mem_filterMap.mpr ⟨.add o, List.mem_cons_self, rfl⟩))
        exact ⟨hle, fun id hid => Option.some.inj hid ▸ hlt⟩
      | invalidate o => exact ⟨le_rfl, nofun⟩
      | invalidateBySourceFile o => exact ⟨le_rfl, nofun⟩
      | supersede o => exact ⟨le_rfl, nofun⟩
    refine ⟨hop.1.trans hle, fun id hid => ?_⟩
    obtain ⟨op', hop', hadded⟩ := List.mem_filterMap.mp hid
    rcases List.mem_cons.mp hop' with rfl | hop'
    · exact (hop.2 id hadded).trans_le hle
    · exact hlt id (List.mem_filterMap.mpr ⟨op', hop', hadded⟩)

variable {t : TripletStore F}

namespace TripletStore

/-- A snapshot counts its triplets, and has nothing recorded. -/
structure Sealed (t : TripletStore F) : Prop where
  counted : ∀ e ∈ t.entries, e.id < t.nextId.toNat
  deferredReplay : t.deferredReplay = none

lemma sealed_empty : (empty F).Sealed := ⟨List.forall_mem_nil _, rfl⟩

/-- What is recorded of operations are the ids that they add. -/
lemma filterMap_recorded (ops : List (ℤ × TripletOp F)) :
    (ops.flatMap TripletOp.recorded).filterMap DeferredOp.added =
      ops.filterMap fun op => op.2.added := by
  induction ops with
  | nil => rfl
  | cons op ops ih =>
    rw [List.flatMap_cons, List.filterMap_append, ih, List.filterMap_cons]
    obtain ⟨nowMs, op⟩ := op
    cases op <;> rfl

variable [F32 F]

/-- Behind a replay of either kind there are the ids of the store and those of the operations. -/
lemma replayAll_ids (h : t.deferredReplay = none) (ops : List (ℤ × TripletOp F)) :
    (t.replayAll ops).ids = t.entries.map (·.id) ++ ops.filterMap (fun op => op.2.added) ∧
      (t.markIndexesDirty.replayAll ops).ids =
        t.entries.map (·.id) ++ ops.filterMap fun op => op.2.added := by
  constructor
  · have hrun := replayAll_direct h ops
    rw [ids_of_none (by rw [hrun]; exact h), hrun, map_id_foldl_onFacts, List.filterMap_map]
    rfl
  · have hrun : t.markIndexesDirty.replayAll ops = _ := replayAll_recorded rfl ops
    rw [hrun, ids, Option.getD_some, List.nil_append, filterMap_recorded]
    rfl

/-- Operations leave a snapshot that counts its triplets. -/
lemma Sealed.replayAll (h : t.Sealed) {ops : List (ℤ × TripletOp F)}
    (hops : ∀ id ∈ ops.filterMap (fun op => op.2.added), id + 1 < 2 ^ 64) :
    (t.replayAll ops).Sealed := by
  have hrun := replayAll_direct h.deferredReplay ops
  have hnone : (t.replayAll ops).deferredReplay = none :=
    (congrArg TripletStore.deferredReplay hrun).trans h.deferredReplay
  obtain ⟨hle, hlt⟩ := TripletOp.foldl_onNextId_bounds (ops.map Prod.snd)
    (by rw [List.filterMap_map]; exact hops) t.nextId
  rw [List.filterMap_map] at hlt
  refine ⟨fun e he => ?_, hnone⟩
  have hid := List.mem_map_of_mem (f := fun e : TripletEntry F => e.id) he
  rw [← ids_of_none hnone, (replayAll_ids h.deferredReplay ops).1] at hid
  rw [congrArg TripletStore.nextId hrun]
  rcases List.mem_append.mp hid with hid | hid
  · obtain ⟨e', he', hsame⟩ := List.mem_map.mp hid
    exact hsame ▸ (h.counted e' he').trans_le hle
  · exact hlt e.id hid

/-- Behind a replay of either kind the counter is the same. -/
lemma replayAll_nextId (h : t.deferredReplay = none) (ops : List (ℤ × TripletOp F)) :
    (t.replayAll ops).nextId = (ops.map Prod.snd).foldl TripletOp.onNextId t.nextId ∧
      (t.markIndexesDirty.replayAll ops).nextId =
        (ops.map Prod.snd).foldl TripletOp.onNextId t.nextId := by
  constructor
  · rw [replayAll_direct h]
  · have hrun : t.markIndexesDirty.replayAll ops = _ := replayAll_recorded rfl ops
    rw [hrun]
    rfl

end TripletStore

namespace TripletField

variable [F32 F] {s : TripletField F}

/-! ## One call -/

/-- The loader leaves nothing recorded, and no id that was not there; it runs once. -/
lemma access_frame (s : TripletField F) : s.access.deferredReplay = none ∧
    (∀ id ∈ s.access.entries.map (·.id), id ∈ s.tripletStore.ids) ∧
      (s.tripletStore.deferredReplay = none → s.access = s.tripletStore) := by
  unfold access
  split
  · rename_i hdeferred
    have hsidecar : (s.tripletStore.loadSupersessionSidecar s.sidecar).ids = s.tripletStore.ids := by
      cases s.sidecar <;> rfl
    obtain ⟨hnone, hids⟩ :=
      (s.tripletStore.loadSupersessionSidecar s.sidecar).applyDeferredReplay_ids
    obtain ⟨hnone', hsub⟩ := TripletStore.cleanForLoad_sub s.order hnone
    refine ⟨hnone', fun id hid => ?_, fun hdirect => ?_⟩
    · rw [← hsidecar, ← hids]
      exact hsub id hid
    · rw [hdirect] at hdeferred
      exact absurd hdeferred nofun
  · rename_i hdirect
    have hnone : s.tripletStore.deferredReplay = none := by simpa using hdirect
    refine ⟨hnone, fun id hid => ?_, fun _ => rfl⟩
    rw [TripletStore.ids_of_none hnone]
    exact hid

/-- The ids of the store are below the allocator, or peers have brought them.  The ids that were given
out are below the allocator, and resolve to what was added with them. -/
structure Guarded (s : TripletField F) : Prop where
  counted : ∀ id ∈ s.tripletStore.ids, id < s.tripletIdAlloc.toNat ∨ id ∈ s.brought
  below : ∀ o ∈ s.given, o.tripletId < s.tripletIdAlloc.toNat
  loaded : ∀ o ∈ s.given, s.tripletStore.deferredReplay = none
  resolves : ∀ o ∈ s.given, s.tripletStore.Resolves o

/-- What a call needs: the id that is taken is not one that peers have brought, nor the last one there
is; peers bring no id that was given out. -/
def Call.Fresh (s : TripletField F) : Call F → Prop
  | .addTriplet .. => s.tripletIdAlloc.toNat ∉ s.brought ∧ s.tripletIdAlloc.toNat + 1 < 2 ^ 64
  | .invalidateTriplet .. => True
  | .tripletSupersede .. => True
  | .syncForeign ops => ∀ o ∈ s.given, o.tripletId ∉ ops.filterMap fun op => op.2.added

instance (s : TripletField F) : ∀ c : Call F, Decidable (c.Fresh s)
  | .addTriplet .. => inferInstanceAs
      (Decidable (s.tripletIdAlloc.toNat ∉ s.brought ∧ s.tripletIdAlloc.toNat + 1 < 2 ^ 64))
  | .invalidateTriplet .. => isTrue trivial
  | .tripletSupersede .. => isTrue trivial
  | .syncForeign ops => inferInstanceAs
      (Decidable (∀ o ∈ s.given, o.tripletId ∉ ops.filterMap fun op => op.2.added))

/-- Operations on a guarded store, when their ids are counted and none of them was given out. -/
lemma Guarded.ingest (h : s.Guarded) (ops : List (ℤ × TripletOp F)) {alloc : UInt64}
    {brought : List ℕ} (halloc : s.tripletIdAlloc.toNat ≤ alloc.toNat)
    (hbrought : s.brought ⊆ brought)
    (hcounted : ∀ id ∈ ops.filterMap (fun op => op.2.added), id < alloc.toNat ∨ id ∈ brought)
    (hgiven : ∀ o ∈ s.given, o.tripletId ∉ ops.filterMap fun op => op.2.added) :
    Guarded { s with
      tripletStore := s.access.replayAll ops
      tripletIdAlloc := alloc
      brought := brought } := by
  obtain ⟨hnone, hsub, honce⟩ := s.access_frame
  have hrun := TripletStore.replayAll_direct hnone ops
  constructor
  · intro id hid
    rw [(TripletStore.replayAll_ids hnone ops).1] at hid
    rcases List.mem_append.mp hid with hid | hid
    · exact (h.counted id (hsub id hid)).imp (fun hlt => hlt.trans_le halloc) fun hmem => hbrought hmem
    · exact hcounted id hid
  · exact fun o ho => (h.below o ho).trans_le halloc
  · intro o ho
    exact (congrArg TripletStore.deferredReplay hrun).trans hnone
  · intro o ho
    have hresolves : s.access.Resolves o := honce (h.loaded o ho) ▸ h.resolves o ho
    refine (congrArg (fun t : TripletStore F => t.Resolves o) hrun).mpr ?_
    refine hresolves.foldl_onFacts ?_
    rw [List.filterMap_map]
    exact hgiven o ho

/-- A call keeps the store guarded. -/
lemma Guarded.call (h : s.Guarded) {c : Call F} (hc : c.Fresh s) : (s.call c).1.Guarded := by
  have hempty : ∀ ops : List (ℤ × TripletOp F), ops.filterMap (fun op => op.2.added) = [] →
      ∀ (P : ℕ → Prop), ∀ id ∈ ops.filterMap (fun op => op.2.added), P id :=
    fun ops hops P id hid => absurd (hops ▸ hid) List.not_mem_nil
  cases c with
  | addTriplet subject predicate object weight sourceMemoryId sourceFile validFromMs ingestedMs
      append =>
    have hnext : (s.tripletIdAlloc + 1).toNat = s.tripletIdAlloc.toNat + 1 := by
      rw [UInt64.toNat_add]
      exact Nat.mod_eq_of_lt hc.2
    have hlt : s.tripletIdAlloc.toNat < (s.tripletIdAlloc + 1).toNat := by omega
    cases append with
    | error e =>
      exact ⟨fun id hid => (h.counted id hid).imp_left fun hid => hid.trans hlt,
        fun o ho => (h.below o ho).trans hlt, h.loaded, h.resolves⟩
    | ok u =>
      let o : AddTripletOp F := ⟨s.tripletIdAlloc.toNat, subject, predicate, object, weight,
        validFromMs, sourceMemoryId, sourceFile⟩
      have hstored := h.ingest [(ingestedMs, .add o)] hlt.le (List.Subset.refl s.brought)
        (fun id hid => Or.inl (by
          obtain rfl : id = s.tripletIdAlloc.toNat := by simpa [TripletOp.added, o] using hid
          omega))
        (fun o' ho' hid => by
          have hsame : o'.tripletId = s.tripletIdAlloc.toNat := by
            simpa [TripletOp.added, o] using hid
          exact (h.below o' ho').ne hsame)
      have hdirect : s.access.replayAddAt o ingestedMs = _ :=
        TripletStore.replay_direct s.access_frame.1 (ingestedMs, .add o)
      refine ⟨hstored.counted, List.forall_mem_append.mpr ⟨hstored.below,
        List.forall_mem_singleton.mpr (hnext ▸ Nat.lt_succ_self _)⟩, fun o' ho' => ?_,
        List.forall_mem_append.mpr ⟨hstored.resolves, List.forall_mem_singleton.mpr ?_⟩⟩
      · exact (congrArg TripletStore.deferredReplay hdirect).trans s.access_frame.1
      · exact (congrArg (fun t : TripletStore F => t.Resolves o) hdirect).mpr
          (s.access.resolves_insertWithId o)
  | invalidateTriplet o append =>
    simp only [TripletField.call]
    split
    · exact h.ingest [(0, .invalidate o)] le_rfl (List.Subset.refl _) (hempty _ rfl _)
        fun _ _ => List.not_mem_nil
    · exact h
  | tripletSupersede o append =>
    simp only [TripletField.call]
    split
    · exact h.ingest [(0, .supersede o)] le_rfl (List.Subset.refl _) (hempty _ rfl _)
        fun _ _ => List.not_mem_nil
    · exact h
  | syncForeign ops =>
    have hstored := h.ingest ops le_rfl
      (List.subset_append_left s.brought (ops.filterMap fun op => op.2.added))
      (fun id hid => Or.inr (List.mem_append_right _ hid)) hc
    simp only [TripletField.call]
    split
    · refine ⟨fun id hid => (h.counted id hid).imp_right (List.mem_append_left _), h.below,
        h.loaded, h.resolves⟩
    · exact hstored

/-- An id that is given out is the id of no triplet. -/
lemma Guarded.fresh (h : s.Guarded) {c : Call F} (hc : c.Fresh s) :
    ∀ id ∈ (s.call c).2, id ∉ s.tripletStore.ids := by
  cases c with
  | addTriplet subject predicate object weight sourceMemoryId sourceFile validFromMs ingestedMs
      append =>
    cases append with
    | error e => exact fun id hid => absurd hid List.not_mem_nil
    | ok u =>
      intro id hid hmem
      obtain rfl := List.mem_singleton.mp hid
      rcases h.counted _ hmem with hlt | hmem
      · exact hlt.false
      · exact hc.1 hmem
  | invalidateTriplet => exact fun id hid => absurd hid List.not_mem_nil
  | tripletSupersede => exact fun id hid => absurd hid List.not_mem_nil
  | syncForeign ops => exact fun id hid => absurd hid List.not_mem_nil

/-- A store is guarded when it is opened. -/
lemma guarded_openImpl (deferred : Bool) (order : SubjectOrder) (sidecar : Option Sidecar)
    (h : t.Sealed) {ops : List (ℤ × TripletOp F)}
    (hops : ∀ id ∈ ops.filterMap (fun op => op.2.added), id + 1 < 2 ^ 64) :
    (openImpl deferred order sidecar t ops).Guarded := by
  obtain ⟨hids, hids'⟩ := TripletStore.replayAll_ids h.deferredReplay ops
  obtain ⟨hnext, hnext'⟩ := TripletStore.replayAll_nextId h.deferredReplay ops
  have hbounds := TripletOp.foldl_onNextId_bounds (ops.map Prod.snd)
    (by rw [List.filterMap_map]; exact hops) t.nextId
  have hcounted : ∀ id ∈ t.entries.map (·.id) ++ ops.filterMap (fun op => op.2.added),
      id < ((ops.map Prod.snd).foldl TripletOp.onNextId t.nextId).toNat := by
    intro id hid
    rcases List.mem_append.mp hid with hid | hid
    · obtain ⟨e, he, rfl⟩ := List.mem_map.mp hid
      exact (h.counted e he).trans_le hbounds.1
    · rw [List.filterMap_map] at hbounds
      exact hbounds.2 id hid
  refine ⟨fun id hid => Or.inl ?_, List.forall_mem_nil _,
    List.forall_mem_nil _, List.forall_mem_nil _⟩
  cases deferred with
  | true =>
    simp only [openImpl, if_true] at hid ⊢
    rw [hids'] at hid
    rw [hnext']
    exact hcounted id hid
  | false =>
    simp only [openImpl, Bool.false_eq_true, if_false] at hid ⊢
    rw [hnext]
    refine hcounted id ?_
    have hsidecar : ((t.replayAll ops).loadSupersessionSidecar sidecar).deferredReplay = none ∧
        ((t.replayAll ops).loadSupersessionSidecar sidecar).entries = (t.replayAll ops).entries := by
      have hdirect := (congrArg TripletStore.deferredReplay
        (TripletStore.replayAll_direct h.deferredReplay ops)).trans h.deferredReplay
      cases sidecar <;> exact ⟨hdirect, rfl⟩
    obtain ⟨hnone, hsub⟩ := TripletStore.cleanForLoad_sub order hsidecar.1
    rw [TripletStore.eagerLoad, TripletStore.ids_of_none hnone] at hid
    have hmem := hsub id hid
    rw [hsidecar.2] at hmem
    rw [← hids]
    exact List.mem_append_left _ hmem

/-! ## Runs -/

/-- Along a run whose calls need no id twice, every id that is given out is new to the store and its
replay buffer, and resolves to what was added with it ever after. -/
theorem triplet_ids_fresh (deferred : Bool) (order : SubjectOrder) (sidecar : Option Sidecar)
    {t : TripletStore F} (h : t.Sealed) {ops : List (ℤ × TripletOp F)}
    (hops : ∀ id ∈ ops.filterMap (fun op => op.2.added), id + 1 < 2 ^ 64) {calls : List (Call F)}
    (hall : Replayed.All call (fun s c => c.Fresh s) (openImpl deferred order sidecar t ops) calls) :
    Replayed.All call (fun s c => ∀ id ∈ (s.call c).2, id ∉ s.tripletStore.ids)
        (openImpl deferred order sidecar t ops) calls ∧
      ∀ o ∈ (Replayed.run call (openImpl deferred order sidecar t ops) calls).1.given,
        (Replayed.run call (openImpl deferred order sidecar t ops) calls).1.access.Resolves o := by
  have hopen := guarded_openImpl deferred order sidecar h hops
  have hstep : ∀ (s : TripletField F) (c : Call F), s.Guarded → c.Fresh s → (s.call c).1.Guarded :=
    fun _ _ hs hc => hs.call hc
  have hrun := Replayed.invariant_run Guarded hstep hopen hall
  refine ⟨Replayed.all_run Guarded hstep (fun _ _ hs hc => hs.fresh hc) hopen hall, fun o ho => ?_⟩
  obtain ⟨-, -, honce⟩ := access_frame
    (Replayed.run call (openImpl deferred order sidecar t ops) calls).1
  rw [honce (hrun.loaded o ho)]
  exact hrun.resolves o ho

/-- A store is opened behind a snapshot with two triplets and a log with one, two are added, and peers
bring another one. -/
theorem triplet_ids_fresh_sample :
    let s := openImpl true TripletStore.sortedOrder none
      ((TripletStore.empty ℚ).replayAll TripletStore.seedOps)
      [(7, .add ⟨5, "carol", "knows", "dave", 1, 7, none, none⟩)]
    let calls : List (Call ℚ) :=
      [.addTriplet "a" "calls" "b" 1 none none 30 31 (.ok ()),
        .syncForeign [(32, .add ⟨9, "b", "calls", "c", 1, 32, none, none⟩)],
        .addTriplet "a" "calls" "c" 1 none none 33 34 (.ok ()), .invalidateTriplet ⟨6, 35⟩ (.ok ())]
    Replayed.All call (fun s c => ∀ id ∈ (s.call c).2, id ∉ s.tripletStore.ids) s calls ∧
      ∀ o ∈ (Replayed.run call s calls).1.given, (Replayed.run call s calls).1.access.Resolves o :=
  triplet_ids_fresh true _ none (TripletStore.sealed_empty.replayAll (by decide +kernel))
    (by decide +kernel) (by decide +kernel)

/-- Peers bring a triplet with the id that the allocator has next: it is given out again, and the
fact that came first is the one that can no longer be reached. -/
theorem triplet_id_taken_twice :
    ¬ ∀ (t : TripletStore ℚ) (calls : List (Call ℚ)), t.Sealed →
      Replayed.All call (fun s c => ∀ id ∈ (s.call c).2, id ∉ s.tripletStore.ids)
        (openImpl false TripletStore.sortedOrder none t []) calls := by
  intro hfresh
  have hall := hfresh (TripletStore.empty ℚ)
    [.syncForeign [(5, .add ⟨1, "b", "calls", "c", 1, 5, none, none⟩)],
      .addTriplet "a" "calls" "c" 1 none none 6 6 (.ok ())] TripletStore.sealed_empty
  have htaken : 1 ∈ (TripletField.access { openImpl false TripletStore.sortedOrder none
      (TripletStore.empty ℚ) [] with
        tripletStore := (TripletStore.empty ℚ).replayAll
          [(5, .add ⟨1, "b", "calls", "c", 1, 5, none, none⟩)] }).ids := by
    decide +kernel
  exact hall.2.1 1 (List.mem_singleton.mpr rfl) htaken

end TripletField

end ChittaField
