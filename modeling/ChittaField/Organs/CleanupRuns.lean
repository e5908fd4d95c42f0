import ChittaField.Organs.Cleanup

/-!
# Cleaning along a run

A store keeps track of the subjects that changed since it was clean, so that the next cleaning can
do without a full scan.  Here a store is new or deserialised, and then called in any order.

What the store keeps track of covers all that a cleaning removes (`Facts.Tracked`), as long as a
clean store notices that a triplet it adds is there already, and no store whose indexes are not those
of its triplets is taken for a clean one.  `cleaning_is_full` says that a cleaning then always comes
to what a full scan comes to.  A triplet is not noticed where its id was given to another one, as in
`duplicate_not_noticed`.
-/

namespace ChittaField

variable {F : Type}

/-! ## Tidy subjects and changes -/

section Tidy

variable {entries entries' : List (TripletEntry F)} {subject : String}

/-- Whether a subject is tidy is a matter of the strings and times of its triplets. -/
lemma TidyAt.congr (h : TidyAt entries subject)
    (heq : (entries'.filter (·.subject = subject)).map (fun e => (e.spo, e.validToMs)) =
      (entries.filter (·.subject = subject)).map fun e => (e.spo, e.validToMs)) :
    TidyAt entries' subject := by
  refine ⟨fun e he hsubject => ?_, ?_⟩
  · have hmem : (e.spo, e.validToMs) ∈
        (entries.filter (·.subject = subject)).map fun e => (e.spo, e.validToMs) := by
      rw [← heq]
      exact List.mem_map_of_mem (List.mem_filter.mpr ⟨he, decide_eq_true hsubject⟩)
    obtain ⟨e', he', hsame⟩ := List.mem_map.mp hmem
    obtain ⟨hmem', hsubject'⟩ := List.mem_filter.mp he'
    have htime : e'.validToMs = e.validToMs := congrArg Prod.snd hsame
    exact htime.symm.trans (h.valid e' hmem' (of_decide_eq_true hsubject'))
  · have hspo := congrArg (List.map Prod.fst) heq
    rw [List.map_map, List.map_map] at hspo
    exact hspo ▸ h.nodup

lemma TidyAt.congr_map (h : TidyAt entries subject)
    (heq : entries'.map (fun e => (e.spo, e.validToMs)) =
      entries.map fun e => (e.spo, e.validToMs)) : TidyAt entries' subject := by
  refine h.congr ?_
  have hfilter : ∀ l : List (TripletEntry F),
      (l.filter (·.subject = subject)).map (fun e => (e.spo, e.validToMs)) =
        (l.map fun e => (e.spo, e.validToMs)).filter fun k => decide (k.1.1 = subject) := by
    intro l
    rw [List.filter_map]
    rfl
  rw [hfilter, hfilter, heq]

/-- A triplet at a position is replaced by one of the same subject: other subjects stay as they
are. -/
lemma filter_set_subject {idx : ℕ} {e e' : TripletEntry F} (he : entries[idx]? = some e)
    (hsubject : e'.subject = e.subject) (hne : e.subject ≠ subject) :
    (entries.set idx e').filter (·.subject = subject) = entries.filter (·.subject = subject) := by
  obtain ⟨hlt, heq⟩ := List.getElem?_eq_some_iff.mp he
  have hsplit := List.take_append_drop idx entries
  rw [List.drop_eq_getElem_cons hlt, heq] at hsplit
  rw [List.set_eq_take_append_cons_drop, if_pos hlt]
  conv_rhs => rw [← hsplit]
  simp [List.filter_append, hsubject, hne]

/-- One more triplet: its subject is added to those that cover what a cleaning removes. -/
lemma Covered.append {subjects : Finset String} (h : Covered entries subjects)
    (e : TripletEntry F) : Covered (entries ++ [e]) (insert e.subject subjects) := by
  intro s hs
  rw [Finset.mem_insert, not_or] at hs
  refine (h s hs.2).congr ?_
  simp [List.filter_append, Ne.symm hs.1]

/-- One more valid triplet, whose strings no other one has. -/
lemma Covered.append_new {subjects : Finset String} (h : Covered entries subjects)
    {e : TripletEntry F} (hvalid : e.validToMs = 0) (hnew : ∀ e' ∈ entries, e'.spo ≠ e.spo) :
    Covered (entries ++ [e]) subjects := by
  intro s hs
  by_cases hsubject : e.subject = s
  · refine ⟨fun e' he' hs' => ?_, ?_⟩
    · rcases List.mem_append.mp he' with he' | he'
      · exact (h s hs).valid e' he' hs'
      · rw [List.mem_singleton.mp he', hvalid]
    · rw [List.filter_append, List.map_append]
      have hone : ([e].filter (·.subject = s)).map TripletEntry.spo = [e.spo] := by
        simp [hsubject]
      rw [hone]
      refine List.Nodup.append (h s hs).nodup (List.nodup_singleton _) ?_
      intro k hk hke
      obtain ⟨e', he', rfl⟩ := List.mem_map.mp hk
      exact hnew e' (List.mem_of_mem_filter he') (List.mem_singleton.mp hke)
  · refine (h s hs).congr ?_
    simp [List.filter_append, hsubject]

/-- Where a full cleaning has nothing to remove, all subjects are tidy. -/
lemma tidyAt_of_nothing [F32 F] (hvalid : (entries.filter (·.validToMs ≠ 0)).length = 0)
    (hlosers : (losers entries).card = 0) (subject : String) : TidyAt entries subject := by
  have hself : cleaned entries = entries := by
    rw [cleaned, Finset.card_eq_zero.mp hlosers]
    simp only [Finset.notMem_empty, not_false_eq_true, decide_true, List.filter_true]
    rw [map_fst_liveIdx]
    rw [List.length_eq_zero_iff, List.filter_eq_nil_iff] at hvalid
    exact List.filter_eq_self.mpr fun e he => by simpa using hvalid e he
  exact hself ▸ tidyAt_cleaned entries subject

end Tidy

namespace Facts

/-- The subjects with changes since the facts were clean, if they are known. -/
def changed (f : Facts F) : Option (Finset String) := if f.clean then some ∅ else f.dirtySubjects

/-- Where the changed subjects are known, the indexes are those of the triplets, and all that a
cleaning removes is of a changed subject. -/
def Tracked (f : Facts F) : Prop :=
  ∀ subjects, f.changed = some subjects → f.Aligned ∧ Covered f.entries subjects

variable {f g : Facts F}

lemma changed_markDirty (f : Facts F) (subject : String) :
    (f.markDirty subject).changed = f.changed.map (insert subject) := rfl

lemma changed_foldl_markDirty (l : List String) (f : Facts F) :
    (l.foldl markDirty f).changed = f.changed.map (l.toFinset ∪ ·) := by
  induction l generalizing f with
  | nil => cases h : f.changed <;> simp [h]
  | cons subject l ih =>
    rw [List.foldl_cons, ih, changed_markDirty, Option.map_map]
    congr 1
    funext subjects
    ext s
    simp

lemma changed_noteAddition (f : Facts F) (o : AddTripletOp F) (reused duplicate : Bool) :
    (f.noteAddition o reused duplicate).changed =
      if reused then none
      else if !f.clean || duplicate then f.changed.map (insert o.subject) else f.changed := by
  cases reused <;> cases duplicate <;> cases hc : f.clean <;>
    simp [noteAddition, markDirty, changed, hc]

/-- The indexes stay those of the triplets while ids and strings are the same. -/
lemma Aligned.of_same (h : f.Aligned) (hsame : f.SameIndexes g)
    (hmap : g.entries.map (fun e => (e.id, e.spo)) = f.entries.map fun e => (e.id, e.spo)) :
    g.Aligned := by
  have hpick : ∀ {α : Type} (pick : ℕ × String × String × String → α),
      g.entries.map (fun e => pick (e.id, e.spo)) = f.entries.map fun e => pick (e.id, e.spo) := by
    intro α pick
    have := congrArg (List.map pick) hmap
    rwa [List.map_map, List.map_map] at this
  have hident : identity g.entries = identity f.entries :=
    identity_congr (hpick fun k => k.1)
  refine ⟨?_, ?_, ?_, ?_, ?_⟩
  · rw [hsame.idToIndex, h.idToIndex, hident]
  · rw [hsame.duplicateIds, hident]
    exact h.duplicateIds
  · rw [hsame.bySubject, h.bySubject]
    exact postings_congr (hpick fun k => (k.2.1, k.1)).symm
  · rw [hsame.byObject, h.byObject]
    exact postings_congr (hpick fun k => (k.2.2.2, k.1)).symm
  · rw [hsame.byPredicate, h.byPredicate]
    exact postings_congr (hpick fun k => (k.2.2.1, k.1)).symm

/-! ## Additions -/

section Additions

/-- A clean store notices that a fact is there already, if the id is new. -/
def Notices (f : Facts F) (o : AddTripletOp F) : Prop :=
  f.clean = true → f.idToIndex o.tripletId = none →
    (∃ e ∈ f.entries, e.validToMs = 0 ∧ e.spo = (o.subject, o.predicate, o.object)) →
      (f.findExactLive o.subject o.predicate o.object).isSome = true

instance (f : Facts F) (o : AddTripletOp F) : Decidable (f.Notices o) :=
  inferInstanceAs (Decidable (_ → _ → _ → _))

variable [F32 F]

lemma Aligned.insertWithId (h : f.Aligned) (o : AddTripletOp F) : (f.insertWithId o).Aligned := by
  obtain ⟨hentries, hdup, hid, hsubject, hobject, hpredicate⟩ := f.insertWithId_indexes o
  refine ⟨hid h.idToIndex, ?_, hsubject h.bySubject, hobject h.byObject, hpredicate h.byPredicate⟩
  rw [hentries, identity_append, hdup]
  simp only [noteIdentity, ← h.idToIndex]
  change (if (f.idToIndex o.tripletId).isSome = true then
    insert o.tripletId (identity f.entries).2 else (identity f.entries).2) ⊆ _
  split_ifs
  · exact Finset.insert_subset_insert _ h.duplicateIds
  · exact h.duplicateIds

/-- An addition is kept track of. -/
lemma Tracked.insertWithId (h : f.Tracked) {o : AddTripletOp F} (hn : f.Notices o) :
    (f.insertWithId o).Tracked := by
  intro subjects hchanged
  have hentries : (f.insertWithId o).entries = f.entries ++ [o.entry] := by
    simp only [Facts.insertWithId, noteAddition_frame]
  have hnote : (f.insertWithId o).changed =
      (f.noteAddition o (f.idToIndex o.tripletId).isSome
        (f.findExactLive o.subject o.predicate o.object).isSome).changed := rfl
  rw [hnote, changed_noteAddition] at hchanged
  rw [hentries]
  split_ifs at hchanged with hreused hmark
  · -- the triplet's subject is marked
    obtain ⟨old, hold, rfl⟩ := Option.map_eq_some_iff.mp hchanged
    obtain ⟨haligned, hcovered⟩ := h old hold
    exact ⟨haligned.insertWithId o, hcovered.append o.entry⟩
  · -- the store stays clean
    obtain ⟨haligned, hcovered⟩ := h subjects hchanged
    rw [Bool.or_eq_true, not_or, Bool.not_eq_true', Bool.not_eq_false] at hmark
    obtain ⟨hclean, hfound⟩ := hmark
    refine ⟨haligned.insertWithId o, hcovered.append_new rfl fun e he hspo => hfound ?_⟩
    have hnone : f.idToIndex o.tripletId = none := by
      simpa using hreused
    refine hn hclean hnone ⟨e, he, ?_, hspo⟩
    have hsome : subjects = ∅ := by
      rw [changed, if_pos hclean] at hchanged
      exact (Option.some.inj hchanged).symm
    exact (hcovered e.subject (hsome ▸ Finset.notMem_empty _)).valid e he rfl

end Additions

/-! ## Other changes -/

/-- The weight of a triplet is raised. -/
def raiseWeight [F32 F] (f : Facts F) (id : ℕ) (weight : F) : Facts F :=
  match f.idToIndex id with
  | none => f
  | some idx =>
    match f.entries[idx]? with
    | none => f
    | some e => { f with entries := f.entries.set idx { e with weight := F32.max e.weight weight } }

lemma Tracked.raiseWeight [F32 F] (h : f.Tracked) (id : ℕ) (weight : F) :
    (f.raiseWeight id weight).Tracked := by
  unfold Facts.raiseWeight
  split
  · exact h
  · split
    · exact h
    · rename_i e he
      intro subjects hchanged
      obtain ⟨haligned, hcovered⟩ := h subjects hchanged
      exact ⟨haligned.of_same ⟨rfl, rfl, rfl, rfl, rfl⟩ (map_set_pick he rfl),
        fun s hs => (hcovered s hs).congr_map (map_set_pick he rfl)⟩

/-- An invalidation changes the time of one triplet, whose subject is noted, or nothing. -/
lemma invalidate_cases (f : Facts F) (o : InvalidateTripletOp) :
    f.invalidate o = f ∨ ∃ idx, ∃ e : TripletEntry F, f.entries[idx]? = some e ∧ f.invalidate o =
      { f with entries := f.entries.set idx { e with validToMs := o.invalidatedAtMs } }.markDirty
        e.subject := by
  unfold Facts.invalidate
  cases hidx : f.idToIndex o.tripletId with
  | none => exact Or.inl rfl
  | some idx =>
    cases he : f.entries[idx]? with
    | none =>
      left
      simp only [he]
    | some e =>
      right
      refine ⟨idx, e, he, ?_⟩
      simp only [he]

lemma Tracked.invalidate (h : f.Tracked) (o : InvalidateTripletOp) : (f.invalidate o).Tracked := by
  rcases f.invalidate_cases o with hsame | ⟨idx, e, he, heq⟩
  · rwa [hsame]
  · intro subjects hchanged
    rw [heq] at hchanged ⊢
    rw [changed_markDirty] at hchanged
    obtain ⟨old, hold, rfl⟩ := Option.map_eq_some_iff.mp hchanged
    obtain ⟨haligned, hcovered⟩ := h old hold
    refine ⟨haligned.of_same ⟨rfl, rfl, rfl, rfl, rfl⟩ (map_set_pick he rfl), fun s hs => ?_⟩
    rw [Finset.mem_insert, not_or] at hs
    exact (hcovered s hs.2).congr (congrArg _ (filter_set_subject he rfl (Ne.symm hs.1)))

/-- The subjects whose triplets a source file invalidates are noted. -/
lemma filter_foldl_expireAt (nowMs : ℤ) (positions : List ℕ)
    (acc : List (TripletEntry F) × List String × List ℕ) {subject : String}
    (hsubject : subject ∉ (positions.foldl (expireAt nowMs) acc).2.1) :
    (positions.foldl (expireAt nowMs) acc).1.filter (·.subject = subject) =
      acc.1.filter (·.subject = subject) := by
  induction positions using List.reverseRecOn with
  | nil => rfl
  | append_singleton positions pos ih =>
    rw [List.foldl_append] at hsubject ⊢
    generalize positions.foldl (expireAt nowMs) acc = done at ih hsubject ⊢
    simp only [List.foldl_cons, List.foldl_nil, expireAt] at hsubject ⊢
    split at hsubject
    · exact ih hsubject
    · rename_i e he
      split_ifs at hsubject ⊢ with hvalid
      · simp only [List.mem_append, List.mem_singleton, not_or] at hsubject
        have hsame : ({ e with validToMs := nowMs } : TripletEntry F).subject = e.subject := rfl
        exact (filter_set_subject he hsame (Ne.symm hsubject.2)).trans (ih hsubject.1)
      · exact ih hsubject

lemma Tracked.invalidateBySourceFile (h : f.Tracked) (o : InvalidateTripletsBySourceFileOp) :
    (f.invalidateBySourceFile o).1.Tracked := by
  intro subjects hchanged
  simp only [Facts.invalidateBySourceFile, changed_foldl_markDirty] at hchanged
  obtain ⟨old, hold, rfl⟩ := Option.map_eq_some_iff.mp hchanged
  obtain ⟨haligned, hcovered⟩ := h old hold
  refine ⟨haligned.of_same (sameIndexes_foldl_markDirty _ ⟨rfl, rfl, rfl, rfl, rfl⟩) ?_,
    fun s hs => ?_⟩
  · simp only [Facts.invalidateBySourceFile, foldl_markDirty_frame]
    exact map_foldl_expireAt (fun _ _ => rfl) _ _ _
  · rw [Finset.mem_union, List.mem_toFinset, not_or] at hs
    refine (hcovered s hs.2).congr (congrArg _ ?_)
    simp only [Facts.invalidateBySourceFile, foldl_markDirty_frame]
    exact filter_foldl_expireAt _ _ _ hs.1

lemma aligned_rebuildIndexes (f : Facts F) : f.rebuildIndexes.Aligned :=
  ⟨rfl, Finset.Subset.refl _, rfl, rfl, rfl⟩

lemma Tracked.rebuildIndexes (h : f.Tracked) : f.rebuildIndexes.Tracked := fun subjects hchanged =>
  ⟨f.aligned_rebuildIndexes, (h subjects hchanged).2⟩

end Facts

/-! ## A cleaning -/

namespace TripletStore

variable [F32 F] {t : TripletStore F}

/-- The store does not know what has changed. -/
def forgetDirty (t : TripletStore F) : TripletStore F := { t with dirtySubjects := none }

/-- The three ways to clean. -/
lemma cleanForLoad_cases (order : SubjectOrder) (hidx : t.indexesDirty = false) :
    (t.clean = true ∧ cleanForLoad order t = (t, 0, 0)) ∨
      (∃ subjects, t.clean = false ∧ t.dirtySubjects = some subjects ∧
        (∀ s ∈ subjects, t.toFacts.Unambiguous s) ∧
          cleanForLoad order t = cleanSubjects order t.forgetDirty subjects) ∨
        (t.clean = false ∧ cleanForLoad order t = t.forgetDirty.fullScan) := by
  have hself : t.ensureIndexes = t := by
    rw [ensureIndexes, hidx]
    rfl
  unfold cleanForLoad
  rw [hself]
  by_cases hclean : t.clean = true
  · exact Or.inl ⟨hclean, by simp only [hclean, if_true]⟩
  · rw [Bool.not_eq_true] at hclean
    cases hknown : knownSubjects t.toFacts with
    | none =>
      refine Or.inr (Or.inr ⟨hclean, ?_⟩)
      rw [if_neg (by simp [hclean]), hknown]
      rfl
    | some subjects =>
      obtain ⟨hdirty, hunamb⟩ := Option.filter_eq_some_iff.mp hknown
      refine Or.inr (Or.inl ⟨subjects, hclean, hdirty, fun s hs id hid hdup => ?_, ?_⟩)
      · exact of_decide_eq_true hunamb ⟨s, hs, id, hid, hdup⟩
      · rw [if_neg (by simp [hclean]), hknown]
        rfl

/-- Behind a full scan all subjects are tidy. -/
lemma tidyAt_fullScan (t : TripletStore F) (subject : String) :
    TidyAt t.fullScan.1.entries subject := by
  obtain ⟨hcount, -, hresult⟩ := t.dedupEntries_purgeInvalidated
  simp only [fullScan]
  rw [hresult]
  split_ifs with h
  · exact tidyAt_of_nothing (hcount ▸ h.1) h.2 subject
  · exact tidyAt_cleaned t.entries subject

/-- Behind a full scan that removes something, the indexes are those of the triplets. -/
lemma aligned_fullScan (h : (∀ s, TidyAt t.entries s) → t.toFacts.Aligned) :
    t.fullScan.1.toFacts.Aligned := by
  obtain ⟨hcount, -, hresult⟩ := t.dedupEntries_purgeInvalidated
  have haligned : t.purgeInvalidated.1.dedupEntries.1.toFacts.Aligned := by
    rw [hresult]
    split_ifs with hz
    · exact h fun s => tidyAt_of_nothing (hcount ▸ hz.1) hz.2 s
    · exact Facts.aligned_rebuildIndexes _
  exact ⟨haligned.1, haligned.2, haligned.3, haligned.4, haligned.5⟩

variable {subjects : Finset String}

/-- Behind a cleaning of some subjects the indexes are those of the triplets. -/
lemma aligned_cleanSubjects (order : SubjectWalk) (h : t.toFacts.Aligned)
    (hs : ∀ s ∈ subjects, t.toFacts.Unambiguous s) (hcov : Covered t.entries subjects) :
    (cleanSubjects order.toSubjectOrder t subjects).1.toFacts.Aligned := by
  have hone := removesOne_covered order h hs hcov
  have hremove := h.remove hone
  have hdup : (identity (t.entries.filter
      (·.id ∉ (t.toFacts.select (order.walk subjects)).removed))).2 ⊆ t.duplicateIds := by
    intro id hid
    refine h.duplicateIds (mem_identity.mpr ((mem_identity.mp hid).trans ?_))
    exact (List.filter_sublist.map _).count_le id
  by_cases hnone : (t.toFacts.select (order.walk subjects)).removed = ∅
  · simp only [cleanSubjects, hnone, if_true]
    exact ⟨h.1, h.2, h.3, h.4, h.5⟩
  · simp only [cleanSubjects, hnone, if_false, hremove]
    exact ⟨rfl, hdup, rfl, rfl, rfl⟩

/-- What a cleaning leaves is kept track of. -/
lemma tracked_cleanForLoad (order : SubjectWalk) (h : t.toFacts.Tracked)
    (hidx : t.indexesDirty = false) (haligned : (∀ s, TidyAt t.entries s) → t.toFacts.Aligned) :
    (cleanForLoad order.toSubjectOrder t).1.toFacts.Tracked := by
  rcases cleanForLoad_cases order.toSubjectOrder hidx with
    ⟨-, heq⟩ | ⟨subjects, hclean, hdirty, hunamb, heq⟩ | ⟨-, heq⟩
  · rwa [heq]
  · obtain ⟨hal, hcovered⟩ := h subjects (by rw [Facts.changed, hclean, hdirty]; rfl)
    have hal' : t.forgetDirty.toFacts.Aligned := ⟨hal.1, hal.2, hal.3, hal.4, hal.5⟩
    have hsame := cleanSubjects_eq_fullScan order hal' hunamb hcovered
    rw [heq]
    refine fun _ _ => ⟨aligned_cleanSubjects order hal' hunamb hcovered, fun s _ => ?_⟩
    exact hsame.entries ▸ tidyAt_fullScan t.forgetDirty s
  · rw [heq]
    refine fun _ _ => ⟨aligned_fullScan fun htidy => ?_, fun s _ => tidyAt_fullScan _ s⟩
    have hal := haligned htidy
    exact ⟨hal.1, hal.2, hal.3, hal.4, hal.5⟩

/-- A full scan does not read what is known of changes. -/
lemma fullScan_forgetDirty (t : TripletStore F) : SameCleaning t.forgetDirty.fullScan t.fullScan := by
  obtain ⟨hcount, hcard, hresult⟩ := t.dedupEntries_purgeInvalidated
  obtain ⟨hcount', hcard', hresult'⟩ := t.forgetDirty.dedupEntries_purgeInvalidated
  have hentries : t.forgetDirty.entries = t.entries := rfl
  rw [hentries] at hcount' hcard' hresult'
  rw [hcount] at hresult
  rw [hcount'] at hresult'
  have hcounts : t.forgetDirty.fullScan.2 = t.fullScan.2 :=
    Prod.ext (hcount'.trans hcount.symm) (hcard'.trans hcard.symm)
  refine ⟨?_, ?_, ?_, ?_, ?_, ?_, hcounts⟩ <;> simp only [fullScan] <;> rw [hresult, hresult'] <;>
    split_ifs <;> rfl

/-- Where nothing is to be removed, a full scan removes nothing. -/
lemma fullScan_of_tidy (h : ∀ s, TidyAt t.entries s) : SameCleaning (t, 0, 0) t.fullScan := by
  obtain ⟨hcount, hcard, hresult⟩ := t.dedupEntries_purgeInvalidated
  have hcov : Covered t.entries ∅ := fun s _ => h s
  have hvalid : (t.entries.filter (·.validToMs ≠ 0)).length = 0 := by
    rw [List.length_eq_zero_iff, List.filter_eq_nil_iff]
    exact fun e he hinvalid => of_decide_eq_true hinvalid ((h e.subject).valid e he rfl)
  have hlosers : (losers t.entries).card = 0 :=
    Finset.card_eq_zero.mpr (Finset.eq_empty_of_forall_notMem fun i hi =>
      Finset.notMem_empty _ (hcov.of_loser hi))
  rw [if_pos ⟨hcount.trans hvalid, hlosers⟩] at hresult
  refine ⟨?_, ?_, ?_, ?_, ?_, ?_, Prod.ext (hcount.trans hvalid).symm (hcard.trans hlosers).symm⟩ <;>
    simp only [fullScan] <;> rw [hresult]

/-- A cleaning comes to what it comes to when what has changed is not known, and to what a full scan
comes to. -/
def CleansFully (order : SubjectOrder) (t : TripletStore F) : Prop :=
  SameCleaning (cleanForLoad order t) (cleanForLoad order t.forgetDirty) ∧
    SameCleaning (cleanForLoad order t) t.fullScan

/-- A store that keeps track of its changes is cleaned fully. -/
lemma cleansFully_of_tracked (order : SubjectWalk) (h : t.toFacts.Tracked)
    (hidx : t.indexesDirty = false) : CleansFully order.toSubjectOrder t := by
  have hforget : t.forgetDirty.indexesDirty = false := hidx
  have hscan : t.clean = false →
      cleanForLoad order.toSubjectOrder t.forgetDirty = t.forgetDirty.fullScan := by
    intro hclean
    rcases cleanForLoad_cases order.toSubjectOrder hforget with
      ⟨hclean', -⟩ | ⟨subjects, -, hdirty, -⟩ | ⟨-, heq⟩
    · exact absurd (hclean.symm.trans hclean') Bool.false_ne_true
    · exact absurd hdirty (by simp [forgetDirty])
    · exact heq
  rcases cleanForLoad_cases order.toSubjectOrder hidx with
    ⟨hclean, heq⟩ | ⟨subjects, hclean, hdirty, hunamb, heq⟩ | ⟨hclean, heq⟩
  · obtain ⟨-, hcovered⟩ := h ∅ (by rw [Facts.changed, hclean]; rfl)
    have hcleanForget : cleanForLoad order.toSubjectOrder t.forgetDirty = (t.forgetDirty, 0, 0) := by
      rcases cleanForLoad_cases order.toSubjectOrder hforget with
        ⟨-, heq⟩ | ⟨subjects, hclean', -⟩ | ⟨hclean', -⟩
      · exact heq
      · exact absurd (hclean'.symm.trans hclean) Bool.false_ne_true
      · exact absurd (hclean'.symm.trans hclean) Bool.false_ne_true
    rw [CleansFully, heq, hcleanForget]
    exact ⟨⟨rfl, rfl, rfl, rfl, rfl, rfl, rfl⟩,
      fullScan_of_tidy fun s => hcovered s (Finset.notMem_empty s)⟩
  · obtain ⟨hal, hcovered⟩ := h subjects (by rw [Facts.changed, hclean, hdirty]; rfl)
    have hsame : SameCleaning (cleanSubjects order.toSubjectOrder t.forgetDirty subjects)
        t.forgetDirty.fullScan :=
      cleanSubjects_eq_fullScan order ⟨hal.1, hal.2, hal.3, hal.4, hal.5⟩ hunamb hcovered
    rw [CleansFully, heq, hscan hclean]
    exact ⟨hsame, SameCleaning.trans hsame t.fullScan_forgetDirty⟩
  · rw [CleansFully, heq, hscan hclean]
    exact ⟨SameCleaning.refl _, t.fullScan_forgetDirty⟩

/-! ## Runs -/

/-- A call on the store, with the clock of an addition.  A live addition gives the id itself. -/
inductive CleanupCall (F : Type) where
  | add (o : AddTripletOp F) (nowMs : ℤ)
  | replayAdd (o : AddTripletOp F) (nowMs : ℤ)
  | invalidate (o : InvalidateTripletOp)
  | invalidateBySourceFile (o : InvalidateTripletsBySourceFileOp)
  | rebuildIndexes
  | cleanForLoad

/-- A store that was deserialised: nothing is known of its cleanness, and the serialised indexes are
what they were when it was saved. -/
def deserialised (entries : List (TripletEntry F)) (nextId : UInt64) (idToIndex : ℕ → Option ℕ)
    (bySubject byObject byPredicate : Postings) : TripletStore F where
  clean := false
  dirtySubjects := none
  duplicateIds := ∅
  bySourceFile := none
  entries := entries
  idToIndex := idToIndex
  bySubject := bySubject
  byObject := byObject
  byPredicate := byPredicate
  nextId := nextId
  supersessionMap := fun _ => none
  ingestionTimes := fun _ => none
  indexesDirty := false
  deferredReplay := none

/-- A store before its first call. -/
inductive Origin : TripletStore F → Prop
  | new : Origin (empty F)
  | deserialised (entries nextId idToIndex bySubject byObject byPredicate) :
    Origin (deserialised entries nextId idToIndex bySubject byObject byPredicate)

/-- The operation of a live addition, with the next id. -/
def numbered (t : TripletStore F) (o : AddTripletOp F) : AddTripletOp F :=
  { o with tripletId := t.nextId.toNat }

/-- Add a triplet live: a valid one with the same strings is made heavier, else it is new; its
id. -/
def add (t : TripletStore F) (o : AddTripletOp F) (nowMs : ℤ) : TripletStore F × ℕ :=
  match t.findExactLive o.subject o.predicate o.object with
  | some existingId => ({ t with toFacts := t.toFacts.raiseWeight existingId o.weight }, existingId)
  | none =>
    ({ t with
        nextId := t.nextId + 1
        toFacts := t.toFacts.insertWithId (t.numbered o)
        ingestionTimes := Function.update t.ingestionTimes t.nextId.toNat (some nowMs) },
      t.nextId.toNat)

/-- Answer a call; the ids that it gives. -/
def answer (order : SubjectOrder) (t : TripletStore F) : CleanupCall F → TripletStore F × List ℕ
  | .add o nowMs => ((t.add o nowMs).1, [(t.add o nowMs).2])
  | .replayAdd o nowMs => (t.replayAddAt o nowMs, [])
  | .invalidate o => (t.invalidate o, [])
  | .invalidateBySourceFile o => t.invalidateBySourceFile o
  | .rebuildIndexes => (t.rebuildIndexes, [])
  | .cleanForLoad => ((cleanForLoad order t).1, [])

/-- A call that keeps what has changed known: a clean store notices an addition that is there
already, and where a cleaning has nothing to remove, the indexes are those of the triplets. -/
def Traced (t : TripletStore F) : CleanupCall F → Prop
  | .add o _ =>
    t.findExactLive o.subject o.predicate o.object = none → t.toFacts.Notices (t.numbered o)
  | .replayAdd o _ => t.toFacts.Notices o
  | .invalidate _ => True
  | .invalidateBySourceFile _ => True
  | .rebuildIndexes => True
  | .cleanForLoad => (∀ s, TidyAt t.entries s) → t.toFacts.Aligned

/-- A store that keeps track of its changes, and has its indexes. -/
structure Tracking (t : TripletStore F) : Prop where
  tracked : t.toFacts.Tracked
  indexesDirty : t.indexesDirty = false
  deferredReplay : t.deferredReplay = none

omit [F32 F] in
lemma Origin.tracking (h : Origin t) : t.Tracking := by
  cases h with
  | new =>
    refine ⟨fun _ _ => ⟨⟨rfl, Finset.Subset.refl _, rfl, rfl, rfl⟩, fun s _ => ?_⟩, rfl, rfl⟩
    exact ⟨fun e he => absurd he List.not_mem_nil, List.nodup_nil⟩
  | deserialised =>
    exact ⟨fun _ hchanged => (nomatch hchanged), rfl, rfl⟩

/-- A full cleaning does not owe indexes. -/
lemma indexesDirty_cleanForLoad (order : SubjectOrder) (h : t.indexesDirty = false)
    (hdef : t.deferredReplay = none) :
    (cleanForLoad order t).1.indexesDirty = false ∧
      (cleanForLoad order t).1.deferredReplay = none := by
  rcases cleanForLoad_cases order h with ⟨-, heq⟩ | ⟨subjects, -, -, -, heq⟩ | ⟨-, heq⟩
  · rw [heq]
    exact ⟨h, hdef⟩
  · rw [heq, cleanSubjects]
    split_ifs <;> exact ⟨h, hdef⟩
  · rw [heq]
    obtain ⟨-, -, hresult⟩ := t.forgetDirty.dedupEntries_purgeInvalidated
    simp only [fullScan]
    rw [hresult]
    split_ifs
    · exact ⟨h, hdef⟩
    · exact ⟨rfl, hdef⟩

/-- A traced call keeps track of its changes. -/
lemma Tracking.answer (h : t.Tracking) (order : SubjectWalk) {c : CleanupCall F}
    (hc : t.Traced c) : (t.answer order.toSubjectOrder c).1.Tracking := by
  cases c with
  | add o nowMs =>
    cases hfound : t.findExactLive o.subject o.predicate o.object with
    | some existingId =>
      simp only [TripletStore.answer, TripletStore.add, hfound]
      exact ⟨h.tracked.raiseWeight existingId o.weight, h.indexesDirty, h.deferredReplay⟩
    | none =>
      simp only [TripletStore.answer, TripletStore.add, hfound]
      exact ⟨h.tracked.insertWithId (hc hfound), h.indexesDirty, h.deferredReplay⟩
  | replayAdd =>
    simp only [TripletStore.answer, TripletStore.replayAddAt, h.deferredReplay]
    exact ⟨h.tracked.insertWithId hc, h.indexesDirty, rfl⟩
  | invalidate o =>
    simp only [TripletStore.answer, TripletStore.invalidate, h.deferredReplay]
    exact ⟨h.tracked.invalidate o, h.indexesDirty, rfl⟩
  | invalidateBySourceFile o =>
    simp only [TripletStore.answer, TripletStore.invalidateBySourceFile, h.deferredReplay]
    exact ⟨h.tracked.invalidateBySourceFile o, h.indexesDirty, rfl⟩
  | rebuildIndexes => exact ⟨h.tracked.rebuildIndexes, rfl, h.deferredReplay⟩
  | cleanForLoad =>
    obtain ⟨hdirty, hdeferred⟩ :=
      indexesDirty_cleanForLoad order.toSubjectOrder h.indexesDirty h.deferredReplay
    exact ⟨tracked_cleanForLoad order h.tracked h.indexesDirty hc, hdirty, hdeferred⟩

/-- Behind traced calls a cleaning is a full one. -/
theorem cleaning_is_full (order : SubjectWalk) (h : Origin t) {calls : List (CleanupCall F)}
    (hall : Replayed.All (answer order.toSubjectOrder) Traced t calls) :
    CleansFully order.toSubjectOrder
      (Replayed.run (answer order.toSubjectOrder) t calls).1 := by
  have hrun := Replayed.invariant_run Tracking (fun s c hs hc => hs.answer order hc) h.tracking hall
  exact cleansFully_of_tracked order hrun.tracked hrun.indexesDirty

lemma nodup_sortedOrder (subjects : Finset String) : (sortedOrder.walk subjects).Nodup :=
  Finset.sort_nodup subjects (· ≤ ·)

/-- The subjects in order. -/
def sortedWalk : SubjectWalk where
  toSubjectOrder := sortedOrder
  nodup := nodup_sortedOrder

/-- An addition of replay at a clock. -/
def readd (id : ℕ) (subject predicate object : String) : CleanupCall ℚ :=
  .replayAdd ⟨id, subject, predicate, object, 1, 100, none, none⟩ 50

/-- An id is used for two triplets and the store is cleaned.  The first triplet is then added again,
under a new id: the store looks it up by its id, finds the other one, and stays clean.  When a
triplet of another subject is invalidated, the cleaning looks at that subject only. -/
theorem duplicate_not_noticed :
    let r := (Replayed.run (answer sortedOrder) (empty ℚ)
      [readd 1 "alice" "knows" "bob", readd 1 "bob" "knows" "carol", .cleanForLoad,
        readd 2 "alice" "knows" "bob", readd 3 "carol" "knows" "dave", .invalidate ⟨3, 200⟩]).1
    (cleanForLoad sortedOrder r).2 = (1, 0) ∧
      (cleanForLoad sortedOrder r.forgetDirty).2 = (1, 1) ∧ r.fullScan.2 = (1, 1) ∧
      ((cleanForLoad sortedOrder r).1.entries.map fun e => (e.id, e.subject)) =
        [(1, "alice"), (1, "bob"), (2, "alice")] ∧
      ((cleanForLoad sortedOrder r.forgetDirty).1.entries.map fun e => (e.id, e.subject)) =
        [(1, "alice"), (1, "bob")] ∧ ¬CleansFully sortedOrder r := by
  refine ⟨by decide +kernel, by decide +kernel, by decide +kernel, by decide +kernel,
    by decide +kernel, fun h => absurd h.1.counts (by decide +kernel)⟩

/-- A run with a live addition of a triplet that is there, an invalidation, a cleaning, and an id
that is used again. -/
theorem cleaning_is_full_sample :
    CleansFully sortedOrder (Replayed.run (answer sortedOrder) (empty ℚ)
      [readd 1 "alice" "knows" "bob",
        .add ⟨0, "alice", "knows", "bob", 2, 100, none, none⟩ 51,
        .add ⟨0, "bob", "knows", "carol", 1, 100, none, none⟩ 52, .invalidate ⟨1, 200⟩,
        .cleanForLoad, readd 2 "bob" "knows" "carol"]).1 := by
  refine cleaning_is_full sortedWalk Origin.new ⟨?_, ?_, ?_, trivial, fun htidy => ?_, ?_, trivial⟩
  · change Facts.Notices _ _
    decide +kernel
  · refine fun _ => ?_
    decide +kernel
  · refine fun _ => ?_
    decide +kernel
  · exact absurd ((htidy "alice").valid _ (List.mem_cons_self ..) rfl) (by decide +kernel)
  · change Facts.Notices _ _
    decide +kernel

end TripletStore

end ChittaField
