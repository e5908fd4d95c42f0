import ChittaField.Organs.Triplets

/-!
# Deferred triplet replay

A start that defers the triplet indexes records the mutations of replay, loads the sidecar, and then
builds the indexes and applies what it recorded.  A start that does not, applies the mutations at
once and loads the sidecar behind them.

`deferred_replay_eq_eager` says that both come to the same store.  The mutations and the cleaner do
not depend on whether the positions by source file are built yet (`Facts.withSource`), the sidecar
gives way to what is in memory, and to advance the next id twice is to advance it once.
-/

namespace ChittaField

variable {F : Type}

/-! ## The positions by source file -/

namespace Facts

/-- The facts with other positions by source file. -/
def withSource (f : Facts F) (b : Option (String → List ℕ)) : Facts F := { f with bySourceFile := b }

/-- The positions by source file are those of the triplets, if they are built. -/
def SourceIndexed (f : Facts F) : Prop :=
  ∀ index, f.bySourceFile = some index → index = sourceIndex f.entries

/-- The indexes are those of the triplets. -/
structure Indexed (f : Facts F) : Prop where
  idToIndex : f.idToIndex = (identity f.entries).1
  duplicateIds : f.duplicateIds = (identity f.entries).2
  bySubject : f.bySubject = postings (·.subject) f.entries
  byObject : f.byObject = postings (·.object) f.entries
  byPredicate : f.byPredicate = postings (·.predicate) f.entries
  bySourceFile : f.SourceIndexed

/-- The indexes by id and by string are the same. -/
structure SameIndexes (f g : Facts F) : Prop where
  idToIndex : g.idToIndex = f.idToIndex
  duplicateIds : g.duplicateIds = f.duplicateIds
  bySubject : g.bySubject = f.bySubject
  byObject : g.byObject = f.byObject
  byPredicate : g.byPredicate = f.byPredicate

lemma SameIndexes.refl (f : Facts F) : f.SameIndexes f := ⟨rfl, rfl, rfl, rfl, rfl⟩

end Facts

variable {entries entries' : List (TripletEntry F)}

/-- The positions by source file depend on the source files only. -/
lemma sourceIndex_congr (h : entries.map (·.sourceFile) = entries'.map (·.sourceFile)) :
    sourceIndex entries = sourceIndex entries' := by
  have hfold : ∀ entries : List (TripletEntry F), sourceIndex entries =
      (entries.map (·.sourceFile)).zipIdx.foldl (fun index p => p.1.elim index fun path =>
        Function.update index path (index path ++ [p.2])) fun _ => [] := by
    intro entries
    rw [List.zipIdx_map, List.foldl_map, sourceIndex]
    refine congrFun (congrFun (congrArg _ (funext fun index => funext fun p => ?_)) _) _
    unfold noteSource
    cases hp : p.1.sourceFile <;> simp [hp]
  rw [hfold, hfold, h]

lemma sourceIndex_append (entries : List (TripletEntry F)) (e : TripletEntry F) :
    sourceIndex (entries ++ [e]) = noteSource (sourceIndex entries) (e, entries.length) := by
  simp [sourceIndex, List.zipIdx_append, List.foldl_append]

/-- The positions of the ids depend on the ids only. -/
lemma identity_congr (h : entries.map (·.id) = entries'.map (·.id)) :
    identity entries = identity entries' := by
  have hfold : ∀ entries : List (TripletEntry F), identity entries =
      (entries.map (·.id)).zipIdx.foldl (fun (acc : (ℕ → Option ℕ) × Finset ℕ) (p : ℕ × ℕ) =>
        (Function.update acc.1 p.1 (some p.2),
          if (acc.1 p.1).isSome then insert p.1 acc.2 else acc.2)) (fun _ => none, ∅) := by
    intro entries
    rw [List.zipIdx_map, List.foldl_map, identity]
    rfl
  rw [hfold, hfold, h]

lemma identity_append (entries : List (TripletEntry F)) (e : TripletEntry F) :
    identity (entries ++ [e]) = noteIdentity (identity entries) (e, entries.length) := by
  simp [identity, List.zipIdx_append, List.foldl_append]

/-- The postings depend on the strings and the ids only. -/
lemma postings_congr {pick : TripletEntry F → String}
    (h : entries.map (fun e => (pick e, e.id)) = entries'.map fun e => (pick e, e.id)) :
    postings pick entries = postings pick entries' := by
  have hfold : ∀ entries : List (TripletEntry F), postings pick entries =
      (entries.map fun e => (pick e, e.id)).foldl (fun m p => post m p.1 p.2) fun _ => none := by
    intro entries
    rw [List.foldl_map]
    rfl
  rw [hfold, hfold, h]

lemma postings_append (pick : TripletEntry F → String) (entries : List (TripletEntry F))
    (e : TripletEntry F) :
    postings pick (entries ++ [e]) = post (postings pick entries) (pick e) e.id := by
  rw [postings, List.foldl_append]
  rfl

variable {f : Facts F}

namespace Facts

/-- A change of an entry leaves what it does not touch. -/
lemma map_set_pick {α : Type} {pick : TripletEntry F → α} {entries : List (TripletEntry F)}
    {idx : ℕ} {e e' : TripletEntry F} (he : entries[idx]? = some e) (hpick : pick e' = pick e) :
    (entries.set idx e').map pick = entries.map pick := by
  obtain ⟨hlt, heq⟩ := List.getElem?_eq_some_iff.mp he
  have hlt' : idx < (entries.map pick).length := by rwa [List.length_map]
  have hget : (entries.map pick)[idx] = pick e := by rw [List.getElem_map, heq]
  rw [List.map_set, hpick, ← hget]
  exact List.set_getElem_self hlt'

lemma map_expireAt {α : Type} {pick : TripletEntry F → α}
    (hpick : ∀ (e : TripletEntry F) (t : ℤ), pick { e with validToMs := t } = pick e) (nowMs : ℤ)
    (acc : List (TripletEntry F) × List String × List ℕ) (pos : ℕ) :
    (expireAt nowMs acc pos).1.map pick = acc.1.map pick := by
  unfold expireAt
  split
  · rfl
  · rename_i e he
    split
    · exact map_set_pick he (hpick e nowMs)
    · rfl

lemma map_foldl_expireAt {α : Type} {pick : TripletEntry F → α}
    (hpick : ∀ (e : TripletEntry F) (t : ℤ), pick { e with validToMs := t } = pick e) (nowMs : ℤ)
    (positions : List ℕ) (acc : List (TripletEntry F) × List String × List ℕ) :
    (positions.foldl (expireAt nowMs) acc).1.map pick = acc.1.map pick := by
  induction positions generalizing acc with
  | nil => rfl
  | cons pos positions ih => exact (ih _).trans (map_expireAt hpick nowMs acc pos)

lemma markDirty_frame (f : Facts F) (subject : String) :
    (f.markDirty subject).bySourceFile = f.bySourceFile ∧
      (f.markDirty subject).entries = f.entries := ⟨rfl, rfl⟩

lemma foldl_markDirty_frame (subjects : List String) (f : Facts F) :
    (subjects.foldl markDirty f).bySourceFile = f.bySourceFile ∧
      (subjects.foldl markDirty f).entries = f.entries := by
  induction subjects generalizing f with
  | nil => exact ⟨rfl, rfl⟩
  | cons subject subjects ih => exact ih (f.markDirty subject)

lemma noteAddition_frame (f : Facts F) (o : AddTripletOp F) (reused duplicate : Bool) :
    (f.noteAddition o reused duplicate).bySourceFile = f.bySourceFile ∧
      (f.noteAddition o reused duplicate).entries = f.entries := by
  cases reused <;> cases duplicate <;> cases hc : f.clean <;> simp [noteAddition, markDirty, hc]

lemma withSource_noteAddition (f : Facts F) (b : Option (String → List ℕ)) (o : AddTripletOp F)
    (reused duplicate : Bool) : (f.withSource b).noteAddition o reused duplicate =
      (f.noteAddition o reused duplicate).withSource b := by
  cases reused <;> cases duplicate <;> cases hc : f.clean <;>
    simp [noteAddition, withSource, markDirty, hc]

variable [F32 F]

lemma withSource_insertWithId (f : Facts F) (b : Option (String → List ℕ)) (o : AddTripletOp F) :
    (f.withSource b).insertWithId o = (f.insertWithId o).withSource
      (b.map fun index => noteSource index (o.entry, f.entries.length)) := by
  have hnote : (f.withSource b).noteAddition o ((f.withSource b).idToIndex o.tripletId).isSome
      ((f.withSource b).findExactLive o.subject o.predicate o.object).isSome =
        (f.noteAddition o (f.idToIndex o.tripletId).isSome
          (f.findExactLive o.subject o.predicate o.object).isSome).withSource b :=
    withSource_noteAddition f b o _ _
  unfold insertWithId
  rw [hnote]
  simp [withSource, noteAddition_frame]

lemma sourceIndexed_insertWithId (h : f.SourceIndexed) (o : AddTripletOp F) :
    (f.insertWithId o).SourceIndexed := by
  intro index hindex
  simp only [insertWithId, noteAddition_frame] at hindex ⊢
  obtain ⟨index', hindex', rfl⟩ := Option.map_eq_some_iff.mp hindex
  rw [sourceIndex_append, h index' hindex']

omit [F32 F] in
lemma withSource_invalidate (f : Facts F) (b : Option (String → List ℕ)) (o : InvalidateTripletOp) :
    (f.withSource b).invalidate o = (f.invalidate o).withSource b := by
  unfold invalidate
  cases hidx : f.idToIndex o.tripletId with
  | none => simp only [withSource, hidx]
  | some idx =>
    cases he : f.entries[idx]? with
    | none => simp only [withSource, hidx, he]
    | some e =>
      simp only [withSource, hidx, he]
      rfl

omit [F32 F] in
/-- An invalidation changes no entry but in its time. -/
lemma map_invalidate {α : Type} {pick : TripletEntry F → α}
    (hpick : ∀ (e : TripletEntry F) (t : ℤ), pick { e with validToMs := t } = pick e) (f : Facts F)
    (o : InvalidateTripletOp) :
    (f.invalidate o).entries.map pick = f.entries.map pick ∧
      (f.invalidate o).bySourceFile = f.bySourceFile := by
  unfold invalidate
  split
  · exact ⟨rfl, rfl⟩
  · split
    · exact ⟨rfl, rfl⟩
    · rename_i he
      exact ⟨map_set_pick he (hpick _ _), rfl⟩

omit [F32 F] in
lemma sourceIndexed_invalidate (h : f.SourceIndexed) (o : InvalidateTripletOp) :
    (f.invalidate o).SourceIndexed := by
  intro index hindex
  have hframe : (f.invalidate o).entries.map (·.sourceFile) = f.entries.map (·.sourceFile) ∧
      (f.invalidate o).bySourceFile = f.bySourceFile := map_invalidate (fun _ _ => rfl) f o
  rw [hframe.2] at hindex
  rw [h index hindex]
  exact sourceIndex_congr hframe.1.symm

omit [F32 F] in
lemma SourceIndexed.getD (h : f.SourceIndexed) :
    f.bySourceFile.getD (sourceIndex f.entries) = sourceIndex f.entries := by
  cases hf : f.bySourceFile with
  | none => rfl
  | some index => exact h index hf

omit [F32 F] in
/-- Where the positions by source file are built, they are those that would be built. -/
lemma invalidateBySourceFile_withSource {b : Option (String → List ℕ)} (h : f.SourceIndexed)
    (hb : (f.withSource b).SourceIndexed) (o : InvalidateTripletsBySourceFileOp) :
    (f.withSource b).invalidateBySourceFile o = f.invalidateBySourceFile o := by
  unfold invalidateBySourceFile
  rw [h.getD, hb.getD]
  rfl

omit [F32 F] in
lemma sourceIndexed_invalidateBySourceFile (h : f.SourceIndexed)
    (o : InvalidateTripletsBySourceFileOp) : (f.invalidateBySourceFile o).1.SourceIndexed := by
  intro index hindex
  simp only [invalidateBySourceFile, foldl_markDirty_frame, Option.some.injEq] at hindex ⊢
  rw [← hindex, h.getD]
  exact sourceIndex_congr
    (map_foldl_expireAt (fun _ _ => rfl) _ _ (f.entries, [], [])).symm

end Facts

/-! ## Indexed facts -/

namespace Facts

lemma sameIndexes_foldl_markDirty (subjects : List String) {f g : Facts F} (h : f.SameIndexes g) :
    f.SameIndexes (subjects.foldl markDirty g) := by
  exact List.foldlRecOn (motive := f.SameIndexes) subjects _ h
    fun _ h _ _ => ⟨h.idToIndex, h.duplicateIds, h.bySubject, h.byObject, h.byPredicate⟩

lemma sameIndexes_invalidate (f : Facts F) (o : InvalidateTripletOp) :
    f.SameIndexes (f.invalidate o) := by
  unfold invalidate
  split
  · exact SameIndexes.refl f
  · split
    · exact SameIndexes.refl f
    · exact ⟨rfl, rfl, rfl, rfl, rfl⟩

/-- Facts stay indexed when nothing but times is changed. -/
lemma Indexed.invalidated {f g : Facts F} (h : f.Indexed) (hsame : f.SameIndexes g)
    (hsource : g.SourceIndexed) (hmap : ∀ {α : Type} {pick : TripletEntry F → α},
      (∀ (e : TripletEntry F) (t : ℤ), pick { e with validToMs := t } = pick e) →
        g.entries.map pick = f.entries.map pick) : g.Indexed where
  idToIndex := by rw [hsame.idToIndex, h.idToIndex, identity_congr (hmap fun _ _ => rfl)]
  duplicateIds := by rw [hsame.duplicateIds, h.duplicateIds, identity_congr (hmap fun _ _ => rfl)]
  bySubject := by rw [hsame.bySubject, h.bySubject, postings_congr (hmap fun _ _ => rfl)]
  byObject := by rw [hsame.byObject, h.byObject, postings_congr (hmap fun _ _ => rfl)]
  byPredicate := by rw [hsame.byPredicate, h.byPredicate, postings_congr (hmap fun _ _ => rfl)]
  bySourceFile := hsource

lemma noteAddition_indexes (f : Facts F) (o : AddTripletOp F) (reused duplicate : Bool) :
    f.SameIndexes { f.noteAddition o reused duplicate with duplicateIds := f.duplicateIds } ∧
      (f.noteAddition o reused duplicate).duplicateIds =
        if reused then insert o.tripletId f.duplicateIds else f.duplicateIds := by
  cases reused <;> cases duplicate <;> cases hc : f.clean <;>
    exact ⟨⟨by simp [noteAddition, markDirty, hc], rfl, by simp [noteAddition, markDirty, hc],
      by simp [noteAddition, markDirty, hc], by simp [noteAddition, markDirty, hc]⟩,
      by simp [noteAddition, markDirty, hc]⟩

/-- What an entry that is added does to the indexes. -/
lemma insertWithId_indexes [F32 F] (f : Facts F) (o : AddTripletOp F) :
    let g := f.insertWithId o
    g.entries = f.entries ++ [o.entry] ∧
      g.duplicateIds = (if (f.idToIndex o.tripletId).isSome then insert o.tripletId f.duplicateIds
        else f.duplicateIds) ∧
      (f.idToIndex = (identity f.entries).1 → g.idToIndex = (identity g.entries).1) ∧
      (f.bySubject = postings (·.subject) f.entries → g.bySubject = postings (·.subject) g.entries) ∧
      (f.byObject = postings (·.object) f.entries → g.byObject = postings (·.object) g.entries) ∧
      (f.byPredicate = postings (·.predicate) f.entries →
        g.byPredicate = postings (·.predicate) g.entries) := by
  obtain ⟨hsame, hdup⟩ := f.noteAddition_indexes o (f.idToIndex o.tripletId).isSome
    (f.findExactLive o.subject o.predicate o.object).isSome
  have hentries : (f.insertWithId o).entries = f.entries ++ [o.entry] := by
    simp only [Facts.insertWithId, noteAddition_frame]
  refine ⟨hentries, hdup, fun h => ?_, fun h => ?_, fun h => ?_, fun h => ?_⟩
  · rw [hentries, identity_append]
    simp only [Facts.insertWithId, noteIdentity, ← h, noteAddition_frame]
    exact congrArg (Function.update · o.tripletId _) hsame.idToIndex
  · rw [hentries, postings_append, ← h]
    exact congrArg (post · o.subject o.tripletId) hsame.bySubject
  · rw [hentries, postings_append, ← h]
    exact congrArg (post · o.object o.tripletId) hsame.byObject
  · rw [hentries, postings_append, ← h]
    exact congrArg (post · o.predicate o.tripletId) hsame.byPredicate

lemma Indexed.insertWithId [F32 F] {f : Facts F} (h : f.Indexed) (o : AddTripletOp F) :
    (f.insertWithId o).Indexed := by
  obtain ⟨hentries, hdup, hid, hsubject, hobject, hpredicate⟩ := f.insertWithId_indexes o
  refine ⟨hid h.idToIndex, ?_, hsubject h.bySubject, hobject h.byObject, hpredicate h.byPredicate,
    sourceIndexed_insertWithId h.bySourceFile o⟩
  rw [hentries, identity_append, hdup]
  simp only [noteIdentity, ← h.idToIndex, ← h.duplicateIds]
  rfl

end Facts

/-! ## One operation -/

/-- Facts that differ at most in whether the positions by source file are built. -/
structure Facts.Alike (f g : Facts F) : Prop where
  eq : g = f.withSource g.bySourceFile
  left : f.SourceIndexed
  right : g.SourceIndexed

namespace TripletOp

variable [F32 F]

/-- What an operation does to the triplets. -/
def onFacts (f : Facts F) : TripletOp F → Facts F
  | .add o => f.insertWithId o
  | .invalidate o => f.invalidate o
  | .invalidateBySourceFile o => (f.invalidateBySourceFile o).1
  | .supersede _ => f

omit [F32 F] in
/-- What an operation does to the counter. -/
def onNextId (n : UInt64) : TripletOp F → UInt64
  | .add o => advanceNextId n o.tripletId
  | .invalidate _ => n
  | .invalidateBySourceFile _ => n
  | .supersede _ => n

omit [F32 F] in
/-- What an operation does to the supersessions. -/
def onSupersessions (m : ℕ → Option (ℕ × ℤ)) : TripletOp F → ℕ → Option (ℕ × ℤ)
  | .add _ => m
  | .invalidate _ => m
  | .invalidateBySourceFile _ => m
  | .supersede o => Function.update m o.oldId (some (o.newId, o.supersededAtMs))

omit [F32 F] in
/-- What an operation at a time does to the ingestion times. -/
def onIngestions (m : ℕ → Option ℤ) : ℤ × TripletOp F → ℕ → Option ℤ
  | (nowMs, .add o) => Function.update m o.tripletId (some nowMs)
  | (_, .invalidate _) => m
  | (_, .invalidateBySourceFile _) => m
  | (_, .supersede _) => m

omit [F32 F] in
/-- What is recorded of an operation. -/
def recorded : ℤ × TripletOp F → List (DeferredOp F)
  | (nowMs, .add o) => [.add o nowMs]
  | (_, .invalidate o) => [.invalidate o]
  | (_, .invalidateBySourceFile o) => [.invalidateBySourceFile o]
  | (_, .supersede _) => []

/-- An operation keeps the positions by source file right, and does not depend on whether they are
built. -/
lemma alike_onFacts {f g : Facts F} (h : f.Alike g) (op : TripletOp F) :
    (op.onFacts f).Alike (op.onFacts g) := by
  have heq := h.eq
  have hright := h.right
  generalize g.bySourceFile = b at heq
  subst heq
  cases op with
  | add o =>
    refine ⟨?_, Facts.sourceIndexed_insertWithId h.left o, Facts.sourceIndexed_insertWithId hright o⟩
    simp only [onFacts, Facts.withSource_insertWithId]
    rfl
  | invalidate o =>
    refine ⟨?_, Facts.sourceIndexed_invalidate h.left o, Facts.sourceIndexed_invalidate hright o⟩
    simp only [onFacts, Facts.withSource_invalidate]
    rfl
  | invalidateBySourceFile o =>
    have hsame := Facts.invalidateBySourceFile_withSource h.left hright o
    have hindexed := Facts.sourceIndexed_invalidateBySourceFile h.left o
    refine ⟨?_, hindexed, ?_⟩
    · simp only [onFacts, hsame]
      rfl
    · simp only [onFacts, hsame]
      exact hindexed
  | supersede o => exact h

/-- An operation keeps the indexes right. -/
lemma indexed_onFacts (h : f.Indexed) (op : TripletOp F) : (op.onFacts f).Indexed := by
  cases op with
  | add o => exact h.insertWithId o
  | invalidate o =>
    exact h.invalidated (f.sameIndexes_invalidate o)
      (Facts.sourceIndexed_invalidate h.bySourceFile o)
      fun hpick => (Facts.map_invalidate hpick f o).1
  | invalidateBySourceFile o =>
    refine h.invalidated (Facts.sameIndexes_foldl_markDirty _ ⟨rfl, rfl, rfl, rfl, rfl⟩)
      (Facts.sourceIndexed_invalidateBySourceFile h.bySourceFile o) fun hpick => ?_
    simp only [onFacts, Facts.invalidateBySourceFile, Facts.foldl_markDirty_frame]
    exact Facts.map_foldl_expireAt hpick _ _ (f.entries, [], [])
  | supersede o => exact h

end TripletOp

variable {t : TripletStore F}

namespace TripletStore

variable [F32 F]

/-- An operation of a replay that applies it at once. -/
lemma replay_direct (h : t.deferredReplay = none) (op : ℤ × TripletOp F) : t.replay op = { t with
      toFacts := op.2.onFacts t.toFacts
      nextId := op.2.onNextId t.nextId
      supersessionMap := op.2.onSupersessions t.supersessionMap
      ingestionTimes := TripletOp.onIngestions t.ingestionTimes op } := by
  obtain ⟨nowMs, op⟩ := op
  cases op with
  | add o => simp only [replay, replayAddAt, h]; rfl
  | invalidate o => simp only [replay, invalidate, h]; rfl
  | invalidateBySourceFile o => simp only [replay, invalidateBySourceFile, h]; rfl
  | supersede o => rfl

/-- An operation of a replay that records it. -/
lemma replay_recorded {buffer : List (DeferredOp F)} (h : t.deferredReplay = some buffer)
    (op : ℤ × TripletOp F) : t.replay op = { t with
      nextId := op.2.onNextId t.nextId
      supersessionMap := op.2.onSupersessions t.supersessionMap
      deferredReplay := some (buffer ++ TripletOp.recorded op) } := by
  obtain ⟨nowMs, op⟩ := op
  cases op with
  | add o => simp only [replay, replayAddAt, h]; rfl
  | invalidate o => simp only [replay, invalidate, h]; rfl
  | invalidateBySourceFile o => simp only [replay, invalidateBySourceFile, h]; rfl
  | supersede o =>
    simp only [TripletOp.recorded, List.append_nil, ← h]
    rfl

/-- A recorded operation, when it is applied. -/
lemma applyDeferred_recorded (h : t.deferredReplay = none) (op : ℤ × TripletOp F) :
    (TripletOp.recorded op).foldl applyDeferred t = { t with
      toFacts := op.2.onFacts t.toFacts
      nextId := op.2.onNextId t.nextId
      ingestionTimes := TripletOp.onIngestions t.ingestionTimes op } := by
  obtain ⟨nowMs, op⟩ := op
  cases op with
  | add o => exact replay_direct h (nowMs, .add o)
  | invalidate o => exact replay_direct h (nowMs, .invalidate o)
  | invalidateBySourceFile o => exact replay_direct h (nowMs, .invalidateBySourceFile o)
  | supersede o => rfl

/-! ## Runs -/

/-- A replay that applies its operations at once. -/
lemma replayAll_direct (h : t.deferredReplay = none) (ops : List (ℤ × TripletOp F)) :
    t.replayAll ops = { t with
      toFacts := (ops.map Prod.snd).foldl TripletOp.onFacts t.toFacts
      nextId := (ops.map Prod.snd).foldl TripletOp.onNextId t.nextId
      supersessionMap := (ops.map Prod.snd).foldl TripletOp.onSupersessions t.supersessionMap
      ingestionTimes := ops.foldl TripletOp.onIngestions t.ingestionTimes } := by
  induction ops generalizing t with
  | nil => rfl
  | cons op ops ih =>
    have hstep := replay_direct h op
    have hrun := @ih (t.replay op) (by rw [hstep]; exact h)
    rw [replayAll, List.foldl_cons]
    refine hrun.trans ?_
    rw [hstep]
    rfl

/-- A replay that records its operations. -/
lemma replayAll_recorded {buffer : List (DeferredOp F)} (h : t.deferredReplay = some buffer)
    (ops : List (ℤ × TripletOp F)) : t.replayAll ops = { t with
      nextId := (ops.map Prod.snd).foldl TripletOp.onNextId t.nextId
      supersessionMap := (ops.map Prod.snd).foldl TripletOp.onSupersessions t.supersessionMap
      deferredReplay := some (buffer ++ ops.flatMap TripletOp.recorded) } := by
  induction ops generalizing t buffer with
  | nil =>
    rw [List.flatMap_nil, List.append_nil, ← h]
    rfl
  | cons op ops ih =>
    have hstep := replay_recorded h op
    have hrun := @ih (t.replay op) (buffer ++ TripletOp.recorded op) (by rw [hstep])
    rw [replayAll, List.foldl_cons]
    refine hrun.trans ?_
    rw [hstep, List.append_assoc]
    rfl

/-- The recorded operations, when they are applied. -/
lemma foldl_applyDeferred (h : t.deferredReplay = none) (ops : List (ℤ × TripletOp F)) :
    (ops.flatMap TripletOp.recorded).foldl applyDeferred t = { t with
      toFacts := (ops.map Prod.snd).foldl TripletOp.onFacts t.toFacts
      nextId := (ops.map Prod.snd).foldl TripletOp.onNextId t.nextId
      ingestionTimes := ops.foldl TripletOp.onIngestions t.ingestionTimes } := by
  induction ops generalizing t with
  | nil => rfl
  | cons op ops ih =>
    rw [List.flatMap_cons, List.foldl_append, applyDeferred_recorded h op]
    exact @ih { t with
      toFacts := op.2.onFacts t.toFacts
      nextId := op.2.onNextId t.nextId
      ingestionTimes := TripletOp.onIngestions t.ingestionTimes op } h

end TripletStore

/-- Facts that are alike stay so. -/
lemma Facts.Alike.foldl_onFacts [F32 F] {f g : Facts F} (h : f.Alike g) (ops : List (TripletOp F)) :
    (ops.foldl TripletOp.onFacts f).Alike (ops.foldl TripletOp.onFacts g) := by
  induction ops generalizing f g with
  | nil => exact h
  | cons op ops ih => exact ih (TripletOp.alike_onFacts h op)

/-- The counter behind some operations: they set it, or raise it to a bound. -/
lemma TripletOp.foldl_onNextId (ops : List (TripletOp F)) :
    (∃ c, ∀ n, ops.foldl onNextId n = c) ∨
      ∃ k, ∀ n, (ops.foldl onNextId n).toNat = max n.toNat k := by
  induction ops with
  | nil => exact Or.inr ⟨0, fun n => (Nat.max_zero _).symm⟩
  | cons op ops ih =>
    -- one operation sets the counter or raises it
    have hop : (∃ c, ∀ n, op.onNextId n = c) ∨ ∃ k, ∀ n, (op.onNextId n).toNat = max n.toNat k := by
      cases op with
      | add o =>
        by_cases hfits : o.tripletId + 1 < 2 ^ 64
        · refine Or.inr ⟨o.tripletId + 1, fun n => ?_⟩
          simp only [onNextId, advanceNextId]
          split
          · rw [UInt64.toNat_ofNat_of_lt' hfits]
            omega
          · omega
        · refine Or.inl ⟨UInt64.ofNat (o.tripletId + 1), fun n => if_pos ?_⟩
          have := n.toNat_lt
          omega
      | invalidate o => exact Or.inr ⟨0, fun n => (Nat.max_zero _).symm⟩
      | invalidateBySourceFile o => exact Or.inr ⟨0, fun n => (Nat.max_zero _).symm⟩
      | supersede o => exact Or.inr ⟨0, fun n => (Nat.max_zero _).symm⟩
    rcases ih with ⟨c, hc⟩ | ⟨k, hk⟩
    · exact Or.inl ⟨c, fun n => hc _⟩
    · rcases hop with ⟨c, hc⟩ | ⟨k', hk'⟩
      · exact Or.inl ⟨ops.foldl onNextId c, fun n => by rw [List.foldl_cons, hc]⟩
      · exact Or.inr ⟨max k' k, fun n => by rw [List.foldl_cons, hk, hk', max_assoc]⟩

/-- To advance the counter twice is to advance it once. -/
lemma TripletOp.foldl_onNextId_twice (ops : List (TripletOp F)) (n : UInt64) :
    ops.foldl onNextId (ops.foldl onNextId n) = ops.foldl onNextId n := by
  rcases TripletOp.foldl_onNextId ops with ⟨c, hc⟩ | ⟨k, hk⟩
  · rw [hc, hc]
  · refine UInt64.toNat_inj.mp ?_
    rw [hk, hk, max_assoc, max_self]

/-- The triplet that an operation adds. -/
def TripletOp.added : TripletOp F → Option ℕ
  | .add o => some o.tripletId
  | .invalidate _ => none
  | .invalidateBySourceFile _ => none
  | .supersede _ => none

/-- The ids with an ingestion time behind some operations. -/
lemma TripletOp.isSome_foldl_onIngestions (ops : List (ℤ × TripletOp F)) (m : ℕ → Option ℤ)
    (id : ℕ) : (ops.foldl onIngestions m id).isSome =
      ((m id).isSome || (ops.map Prod.snd).any fun op => op.added = some id) := by
  induction ops generalizing m with
  | nil => simp
  | cons op ops ih =>
    rw [List.foldl_cons, ih, List.map_cons, List.any_cons, ← Bool.or_assoc]
    congr 1
    obtain ⟨nowMs, op⟩ := op
    cases op with
    | add o =>
      by_cases hid : id = o.tripletId
      · subst hid
        simp [onIngestions, added]
      · simp [onIngestions, added, hid, Ne.symm hid]
    | invalidate o => simp [onIngestions, added]
    | invalidateBySourceFile o => simp [onIngestions, added]
    | supersede o => simp [onIngestions, added]

/-! ## Cleaning -/

namespace Facts

variable [F32 F]

/-- What is selected at a position does not depend on what was selected before. -/
lemma exists_selectAt (f : Facts F) (best : String × String → Option ℕ) (pos : ℕ) :
    ∃ new best', ∀ acc : Selection, (f.selectAt (acc, best) pos).1.removed = new ∪ acc.removed ∧
      (f.selectAt (acc, best) pos).2 = best' := by
  unfold selectAt
  cases f.entries[pos]? with
  | none => exact ⟨∅, best, fun acc => ⟨(Finset.empty_union _).symm, rfl⟩⟩
  | some e =>
    by_cases hvalid : e.validToMs = 0
    · simp only [hvalid, ne_eq, not_true_eq_false, if_false]
      cases (best (e.predicate, e.object)).bind fun previous => f.entries[previous]? with
      | none => exact ⟨∅, _, fun acc => ⟨(Finset.empty_union _).symm, rfl⟩⟩
      | some previous =>
        by_cases hlt : F32.lt previous.weight e.weight = true
        · simp only [hlt, if_true]
          exact ⟨{previous.id}, _, fun acc => ⟨Finset.insert_eq _ _, rfl⟩⟩
        · simp only [hlt]
          exact ⟨{e.id}, _, fun acc => ⟨Finset.insert_eq _ _, rfl⟩⟩
    · simp only [ne_eq, hvalid, not_false_eq_true, if_true]
      exact ⟨{e.id}, best, fun acc => ⟨Finset.insert_eq _ _, rfl⟩⟩

lemma removed_foldl_selectAt (f : Facts F) (positions : List ℕ) (acc : Selection)
    (best : String × String → Option ℕ) :
    (positions.foldl f.selectAt (acc, best)).1.removed =
      acc.removed ∪ (positions.foldl f.selectAt (⟨∅, 0, 0⟩, best)).1.removed := by
  induction positions generalizing acc best with
  | nil => exact (Finset.union_empty _).symm
  | cons pos positions ih =>
    obtain ⟨new, best', hstep⟩ := f.exists_selectAt best pos
    have hpair : ∀ acc : Selection, f.selectAt (acc, best) pos =
        ((f.selectAt (acc, best) pos).1, best') := fun acc => Prod.ext rfl (hstep acc).2
    rw [List.foldl_cons, List.foldl_cons, hpair, hpair ⟨∅, 0, 0⟩, ih,
      ih (f.selectAt (⟨∅, 0, 0⟩, best) pos).1, (hstep acc).1, (hstep ⟨∅, 0, 0⟩).1,
      Finset.union_empty, ← Finset.union_assoc, Finset.union_comm new]

/-- What is selected does not depend on the order of the subjects. -/
lemma removed_select (f : Facts F) (subjects : List String) :
    (f.select subjects).removed = subjects.toFinset.biUnion fun subject =>
      (f.selectSubject ⟨∅, 0, 0⟩ subject).removed := by
  have hall : ∀ acc : Selection, (subjects.foldl f.selectSubject acc).removed =
      acc.removed ∪ subjects.toFinset.biUnion fun subject =>
        (f.selectSubject ⟨∅, 0, 0⟩ subject).removed := by
    induction subjects with
    | nil => exact fun acc => (Finset.union_empty _).symm
    | cons subject subjects ih =>
      intro acc
      rw [List.foldl_cons, ih, List.toFinset_cons, Finset.biUnion_insert, ← Finset.union_assoc]
      congr 1
      exact f.removed_foldl_selectAt _ acc _
  exact (hall ⟨∅, 0, 0⟩).trans (Finset.empty_union _)

lemma removed_walk (f : Facts F) (order order' : SubjectOrder) (subjects : Finset String) :
    (f.select (order.walk subjects)).removed = (f.select (order'.walk subjects)).removed := by
  rw [removed_select, removed_select, order.complete, order'.complete]

end Facts

namespace TripletStore

/-- Stores that differ at most in whether the positions by source file are built, and in the values
of the ingestion times. -/
structure Alike (t t' : TripletStore F) : Prop where
  facts : ∃ b, t'.toFacts = t.toFacts.withSource b
  nextId : t'.nextId = t.nextId
  supersessionMap : t'.supersessionMap = t.supersessionMap
  ingested : ∀ id, (t'.ingestionTimes id).isSome = (t.ingestionTimes id).isSome

lemma Alike.retainIngested {t t' : TripletStore F} (h : t.Alike t') :
    t.retainIngested.Alike t'.retainIngested := by
  obtain ⟨b, hb⟩ := h.facts
  refine ⟨⟨b, hb⟩, h.nextId, h.supersessionMap, fun id => ?_⟩
  have hidx : t'.idToIndex = t.idToIndex := (congrArg Facts.idToIndex hb).trans rfl
  simp only [TripletStore.retainIngested, hidx]
  split
  · exact h.ingested id
  · rfl

/-- Stores that are alike with the same change to their triplets. -/
lemma Alike.mapFacts {t t' : TripletStore F} (h : t.Alike t') {f g : Facts F}
    (hfg : ∃ b, g = f.withSource b) : { t with toFacts := f }.Alike { t' with toFacts := g } :=
  ⟨hfg, h.nextId, h.supersessionMap, h.ingested⟩

lemma Alike.rebuildIndexes {t t' : TripletStore F} (h : t.Alike t') :
    t.rebuildIndexes.Alike t'.rebuildIndexes := by
  obtain ⟨b, hb⟩ := h.facts
  refine ⟨⟨none, ?_⟩, h.nextId, h.supersessionMap, h.ingested⟩
  simp only [TripletStore.rebuildIndexes, hb]
  rfl

lemma Alike.purgeInvalidated {t t' : TripletStore F} (h : t.Alike t') :
    t.purgeInvalidated.1.Alike t'.purgeInvalidated.1 := by
  obtain ⟨b, hb⟩ := h.facts
  have hentries : t'.entries = t.entries := (congrArg Facts.entries hb).trans rfl
  have hkept : Alike { t with entries := t.entries.filter (·.validToMs = 0) }
      { t' with entries := t'.entries.filter (·.validToMs = 0) } :=
    h.mapFacts ⟨b, by rw [hb]; rfl⟩
  simp only [TripletStore.purgeInvalidated]
  rw [hentries] at hkept ⊢
  split
  · exact hkept.rebuildIndexes.retainIngested
  · exact hkept

variable [F32 F]

lemma Alike.dedupEntries {t t' : TripletStore F} (h : t.Alike t') :
    t.dedupEntries.1.Alike t'.dedupEntries.1 := by
  obtain ⟨b, hb⟩ := h.facts
  have hentries : t'.entries = t.entries := (congrArg Facts.entries hb).trans rfl
  simp only [TripletStore.dedupEntries, hentries]
  split
  · exact h
  · have hkept := h.mapFacts (f := { t.toFacts with entries := (t.entries.zipIdx.filter fun p =>
        p.2 ∉ (t.entries.zipIdx.foldl (dedupAt t.entries) (fun _ => none, ∅)).2).map Prod.fst })
      (g := { t'.toFacts with entries := (t.entries.zipIdx.filter fun p =>
        p.2 ∉ (t.entries.zipIdx.foldl (dedupAt t.entries) (fun _ => none, ∅)).2).map Prod.fst })
      ⟨b, by rw [hb]; rfl⟩
    exact hkept.rebuildIndexes.retainIngested

lemma Alike.cleanSubjects {t t' : TripletStore F} (h : t.Alike t') (order order' : SubjectOrder)
    (subjects : Finset String) :
    (t.cleanSubjects order subjects).1.Alike (t'.cleanSubjects order' subjects).1 := by
  obtain ⟨b, hb⟩ := h.facts
  have hselect : (t'.toFacts.select (order'.walk subjects)).removed =
      (t.toFacts.select (order.walk subjects)).removed := by
    rw [hb]
    exact t.toFacts.removed_walk order' order subjects
  simp only [TripletStore.cleanSubjects, hselect]
  split
  · exact h.mapFacts ⟨b, by rw [hb]; rfl⟩
  · have hkept : Alike
        { t with
          toFacts := t.toFacts.remove subjects (t.toFacts.select (order.walk subjects)).removed
          ingestionTimes := fun id => if id ∈ (t.toFacts.select (order.walk subjects)).removed
            then none else t.ingestionTimes id }
        { t' with
          toFacts := t'.toFacts.remove subjects (t.toFacts.select (order.walk subjects)).removed
          ingestionTimes := fun id => if id ∈ (t.toFacts.select (order.walk subjects)).removed
            then none else t'.ingestionTimes id } := by
      refine ⟨⟨none, by rw [hb]; rfl⟩, h.nextId, h.supersessionMap, fun id => ?_⟩
      simp only
      split
      · rfl
      · exact h.ingested id
    have hretained := hkept.retainIngested
    obtain ⟨b', hb'⟩ := hretained.facts
    exact hretained.mapFacts ⟨b', by rw [hb']; rfl⟩

/-- The cleaner makes stores alike of stores that are. -/
lemma Alike.cleanForLoad {t t' : TripletStore F} (h : t.Alike t') (ht : t.indexesDirty = false)
    (ht' : t'.indexesDirty = false) (order order' : SubjectOrder) :
    (t.cleanForLoad order).1.Alike (t'.cleanForLoad order').1 := by
  obtain ⟨b, hb⟩ := h.facts
  have hclean : t'.clean = t.clean := (congrArg Facts.clean hb).trans rfl
  have hknown : knownSubjects t'.toFacts = knownSubjects t.toFacts := by
    rw [hb]
    rfl
  have hnone : Alike { t with dirtySubjects := none } { t' with dirtySubjects := none } :=
    h.mapFacts ⟨b, by rw [hb]; rfl⟩
  have hensure : ∀ t : TripletStore F, t.indexesDirty = false → t.ensureIndexes = t :=
    fun t ht => if_neg (by simp [ht])
  unfold TripletStore.cleanForLoad
  rw [hensure t ht, hensure t' ht']
  simp only [hknown]
  by_cases hc : t.clean = true
  · rw [if_pos hc, if_pos (hclean.trans hc)]
    exact h
  · rw [if_neg hc, if_neg (hclean ▸ hc)]
    cases knownSubjects t.toFacts with
    | some subjects => exact hnone.cleanSubjects order order' subjects
    | none =>
      have hdeduped := hnone.purgeInvalidated.dedupEntries
      obtain ⟨b', hb'⟩ := hdeduped.facts
      exact hdeduped.mapFacts ⟨b', congrArg (fun f : Facts F => { f with clean := true }) hb'⟩

end TripletStore

/-! ## The two starts -/

namespace TripletStore

/-- The indexes of a store are those of its triplets, and nothing is held back. -/
structure Indexed (t : TripletStore F) : Prop where
  facts : t.toFacts.Indexed
  indexesDirty : t.indexesDirty = false
  deferredReplay : t.deferredReplay = none

/-- What readers of two stores see is the same.  Of the ingestion times these are the ids that have
one; their values are clocks. -/
structure SameTriplets (t t' : TripletStore F) : Prop where
  entries : t'.entries = t.entries
  idToIndex : t'.idToIndex = t.idToIndex
  bySubject : t'.bySubject = t.bySubject
  byObject : t'.byObject = t.byObject
  byPredicate : t'.byPredicate = t.byPredicate
  supersessionMap : t'.supersessionMap = t.supersessionMap
  ingested : ∀ id, (t'.ingestionTimes id).isSome = (t.ingestionTimes id).isSome
  nextId : t'.nextId = t.nextId

lemma Alike.sameTriplets {t t' : TripletStore F} (h : t.Alike t') : t.SameTriplets t' := by
  obtain ⟨b, hb⟩ := h.facts
  exact ⟨(congrArg Facts.entries hb).trans rfl, (congrArg Facts.idToIndex hb).trans rfl,
    (congrArg Facts.bySubject hb).trans rfl, (congrArg Facts.byObject hb).trans rfl,
    (congrArg Facts.byPredicate hb).trans rfl, h.supersessionMap, h.ingested, h.nextId⟩

/-- To rebuild the indexes of an indexed store changes nothing that can be seen. -/
lemma Indexed.alike_rebuild (h : t.Indexed) : t.toFacts.Alike t.toFacts.rebuildIndexes where
  eq := Facts.ext rfl rfl h.facts.duplicateIds.symm rfl rfl h.facts.idToIndex.symm
    h.facts.bySubject.symm h.facts.byObject.symm h.facts.byPredicate.symm
  left := h.facts.bySourceFile
  right _ h := by cases h

variable [F32 F]

/-- A store stays indexed under a replay that applies its operations at once. -/
lemma Indexed.replayAll (h : t.Indexed) (ops : List (ℤ × TripletOp F)) :
    (t.replayAll ops).Indexed := by
  refine List.foldlRecOn (motive := Indexed) ops _ h fun t h op _ => ?_
  rw [replay_direct h.deferredReplay]
  exact ⟨TripletOp.indexed_onFacts h.facts op.2, h.indexesDirty, h.deferredReplay⟩

/-- A start that applies the mutations of replay at once. -/
def eagerLoad (order : SubjectOrder) (sidecar : Option Sidecar) (ops : List (ℤ × TripletOp F))
    (t : TripletStore F) : TripletStore F :=
  (((t.replayAll ops).loadSupersessionSidecar sidecar).cleanForLoad order).1

/-- A start that records the mutations of replay. -/
def deferredLoad (order : SubjectOrder) (sidecar : Option Sidecar) (ops : List (ℤ × TripletOp F))
    (t : TripletStore F) : TripletStore F :=
  (((t.markIndexesDirty.replayAll ops).loadSupersessionSidecar
    sidecar).applyDeferredReplay.cleanForLoad order).1

/-- The indexes are built, and the recorded operations are applied. -/
lemma applyDeferredReplay_of_dirty (hdirty : t.indexesDirty = true) (ops : List (ℤ × TripletOp F))
    (hrecorded : t.deferredReplay = some (ops.flatMap TripletOp.recorded)) :
    t.applyDeferredReplay = { t with
      toFacts := (ops.map Prod.snd).foldl TripletOp.onFacts t.toFacts.rebuildIndexes
      nextId := (ops.map Prod.snd).foldl TripletOp.onNextId t.nextId
      ingestionTimes := ops.foldl TripletOp.onIngestions t.ingestionTimes
      indexesDirty := false
      deferredReplay := none } := by
  simp only [applyDeferredReplay, hrecorded, Option.getD_some, hdirty, if_true]
  exact foldl_applyDeferred rfl ops

/-- The store of a start that records, when what it recorded is applied. -/
lemma applyDeferredReplay_recorded (h : t.deferredReplay = none) (sidecar : Option Sidecar)
    (ops : List (ℤ × TripletOp F)) :
    ((t.markIndexesDirty.replayAll ops).loadSupersessionSidecar sidecar).applyDeferredReplay =
      { t with
        toFacts := (ops.map Prod.snd).foldl TripletOp.onFacts t.toFacts.rebuildIndexes
        nextId := (ops.map Prod.snd).foldl TripletOp.onNextId t.nextId
        supersessionMap := (({ t with
          supersessionMap := (ops.map Prod.snd).foldl TripletOp.onSupersessions
            t.supersessionMap }).loadSupersessionSidecar sidecar).supersessionMap
        ingestionTimes := ops.foldl TripletOp.onIngestions
          (t.loadSupersessionSidecar sidecar).ingestionTimes
        indexesDirty := false } := by
  have hrecord : t.markIndexesDirty.replayAll ops = _ := replayAll_recorded rfl ops
  -- the replay has advanced the counter already
  have htwice := TripletOp.foldl_onNextId_twice (ops.map Prod.snd) t.nextId
  rw [hrecord, List.nil_append, h]
  cases sidecar with
  | none =>
    refine (applyDeferredReplay_of_dirty rfl ops rfl).trans ?_
    simp only [loadSupersessionSidecar, markIndexesDirty, htwice]
  | some s =>
    refine (applyDeferredReplay_of_dirty rfl ops rfl).trans ?_
    simp only [loadSupersessionSidecar, markIndexesDirty, htwice]

omit [F32 F] in
lemma loadSupersessionSidecar_frame (t : TripletStore F) (sidecar : Option Sidecar) :
    (t.loadSupersessionSidecar sidecar).toFacts = t.toFacts ∧
      (t.loadSupersessionSidecar sidecar).nextId = t.nextId ∧
      (t.loadSupersessionSidecar sidecar).indexesDirty = t.indexesDirty := by
  cases sidecar with
  | none => exact ⟨rfl, rfl, rfl⟩
  | some s => exact ⟨rfl, rfl, rfl⟩

omit [F32 F] in
/-- The ids with an ingestion time behind the sidecar. -/
lemma isSome_loadSupersessionSidecar (t : TripletStore F) (sidecar : Option Sidecar) (id : ℕ) :
    ((t.loadSupersessionSidecar sidecar).ingestionTimes id).isSome =
      ((t.ingestionTimes id).isSome ||
        (sidecar.elim [] (·.ingestionTimes)).any fun p => p.1 = id) := by
  cases sidecar with
  | none => simp [loadSupersessionSidecar]
  | some s => simpa [loadSupersessionSidecar] using Maps.isSome_foldl_orInsert _ _ _

/-- What the two starts hand to the cleaner. -/
lemma alike_loaded (h : t.Indexed) (sidecar : Option Sidecar) {ops ops' : List (ℤ × TripletOp F)}
    (hops : ops'.map Prod.snd = ops.map Prod.snd) :
    ((t.replayAll ops).loadSupersessionSidecar sidecar).Alike
      ((t.markIndexesDirty.replayAll ops').loadSupersessionSidecar
        sidecar).applyDeferredReplay := by
  rw [applyDeferredReplay_recorded h.deferredReplay, replayAll_direct h.deferredReplay, hops]
  obtain ⟨b, hb⟩ : ∃ b, (ops.map Prod.snd).foldl TripletOp.onFacts t.toFacts.rebuildIndexes =
      ((ops.map Prod.snd).foldl TripletOp.onFacts t.toFacts).withSource b :=
    ⟨_, (h.alike_rebuild.foldl_onFacts (ops.map Prod.snd)).eq⟩
  refine ⟨⟨b, ?_⟩, ?_, ?_, fun id => ?_⟩
  · rw [(loadSupersessionSidecar_frame _ sidecar).1]
    exact hb
  · rw [(loadSupersessionSidecar_frame _ sidecar).2.1]
  · cases sidecar with
    | none => rfl
    | some s => rfl
  · rw [TripletOp.isSome_foldl_onIngestions, isSome_loadSupersessionSidecar,
      isSome_loadSupersessionSidecar, TripletOp.isSome_foldl_onIngestions, hops, Bool.or_right_comm]

/-- A start that defers the indexes comes to the same store as one that does not. -/
theorem deferred_replay_eq_eager {t : TripletStore F} (h : t.Indexed) (sidecar : Option Sidecar)
    {ops ops' : List (ℤ × TripletOp F)} (hops : ops'.map Prod.snd = ops.map Prod.snd)
    (order order' : SubjectOrder) :
    (t.eagerLoad order sidecar ops).SameTriplets (t.deferredLoad order' sidecar ops') := by
  have halike := alike_loaded h sidecar hops
  have hdeferred : ((t.markIndexesDirty.replayAll ops').loadSupersessionSidecar
      sidecar).applyDeferredReplay.indexesDirty = false := by
    rw [applyDeferredReplay_recorded h.deferredReplay]
  have heager : ((t.replayAll ops).loadSupersessionSidecar sidecar).indexesDirty = false := by
    rw [(loadSupersessionSidecar_frame _ sidecar).2.2, replayAll_direct h.deferredReplay]
    exact h.indexesDirty
  exact (halike.cleanForLoad heager hdeferred order order').sameTriplets

/-- A store without triplets. -/
def empty (F : Type) : TripletStore F where
  clean := true
  dirtySubjects := none
  duplicateIds := ∅
  bySourceFile := none
  entries := []
  idToIndex := fun _ => none
  bySubject := fun _ => none
  byObject := fun _ => none
  byPredicate := fun _ => none
  nextId := 1
  supersessionMap := fun _ => none
  ingestionTimes := fun _ => none
  indexesDirty := false
  deferredReplay := none

omit [F32 F] in
lemma indexed_empty : (empty F).Indexed :=
  ⟨⟨rfl, rfl, rfl, rfl, rfl, fun _ h => nomatch h⟩, rfl, rfl⟩

/-- Two triplets of a snapshot. -/
def seedOps : List (ℤ × TripletOp ℚ) :=
  [(5, .add ⟨1, "alice", "knows", "bob", 1, 10, some 9, some "seed.rs"⟩),
    (6, .add ⟨2, "bob", "knows", "carol", 1, 20, some 9, none⟩)]

/-- A replay with an id that is used again, an invalidation of a triplet that it added, and a
supersession, under a clock. -/
def sampleOps (nowMs : ℤ) : List (ℤ × TripletOp ℚ) :=
  [(nowMs, .add ⟨10, "alice", "wrote", "paper", 1, 100, some 1, some "a.rs"⟩),
    (nowMs, .invalidate ⟨10, 200⟩),
    (nowMs, .add ⟨2, "bob", "knows", "carol", 2, 110, some 2, some "a.rs"⟩),
    (nowMs, .supersede ⟨1, 10, 210⟩),
    (nowMs, .invalidateBySourceFile ⟨"a.rs", 300⟩),
    (nowMs, .add ⟨97, "dave", "edits", "paper", 1, 140, some 5, none⟩)]

/-- The subjects in order. -/
def sortedOrder : SubjectOrder where
  walk subjects := subjects.sort (· ≤ ·)
  complete subjects := Finset.sort_toFinset subjects (· ≤ ·)

/-- A replay behind a snapshot with two triplets, at two clocks. -/
theorem sample_replay_eq_eager :
    (((empty ℚ).replayAll seedOps).eagerLoad sortedOrder (some ⟨[(1, 2, 3)], [(1, 4)]⟩)
      (sampleOps 400)).SameTriplets (((empty ℚ).replayAll seedOps).deferredLoad sortedOrder
        (some ⟨[(1, 2, 3)], [(1, 4)]⟩) (sampleOps 401)) := by
  have hops : (sampleOps 401).map Prod.snd = (sampleOps 400).map Prod.snd := rfl
  have hseed : ((empty ℚ).replayAll seedOps).Indexed := indexed_empty.replayAll seedOps
  exact deferred_replay_eq_eager hseed _ hops _ _

end TripletStore

end ChittaField
