import ChittaField.Organs.ReplicationRuns
import ChittaField.Organs.TripletIds

/-!
# What was believed

A query for an earlier time asks which triplets had come by then and were not superseded yet.  Later
operations do not change its answer, `believed_history`, but for the times at which triplets end.
-/

namespace ChittaField

namespace TripletStore

variable {F : Type}

/-- A triplet had come by a time, and was not superseded then. -/
def believed (t : TripletStore F) (ingestMs : ℤ) (e : TripletEntry F) : Bool :=
  (t.ingestionTimes e.id).getD e.validFromMs ≤ ingestMs ∧ (t.supersessionMap e.id).all (ingestMs < ·.2)

/-- What was believed of a subject at a time. -/
def queryBelievedAt (t : TripletStore F) (subject : String) (ingestMs : ℤ) : List (TripletEntry F) :=
  (((t.bySubject subject).getD []).filterMap t.entryById).filter (t.believed ingestMs)

/-- An operation comes after a time: it adds a new triplet, or supersedes one that was not superseded by
then. -/
def After (time : ℤ) (t : TripletStore F) : ℤ × TripletOp F → Prop
  | (nowMs, .add o) => time < nowMs ∧ o.tripletId ∉ t.entries.map (·.id)
  | (_, .supersede o) => time < o.supersededAtMs ∧ (t.supersessionMap o.oldId).all (time < ·.2) = true
  | _ => True

/-- The triplets of a subject that were believed at a time. -/
def beliefs (t : TripletStore F) (subject : String) (time : ℤ) : List (TripletEntry F) :=
  t.entries.filter fun e => e.subject = subject ∧ t.believed time e = true

variable {t : TripletStore F} {time : ℤ} {subject : String}

lemma Sound.queryBelievedAt (h : t.Sound) : t.queryBelievedAt subject time = t.beliefs subject time := by
  have hentries : ((t.entries.filter (·.subject = subject)).map (·.id)).filterMap t.entryById =
      t.entries.filter (·.subject = subject) := by
    rw [List.filterMap_map]
    refine (List.filterMap_congr fun e he => ?_).trans List.filterMap_some
    exact h.entryById.mpr ⟨List.mem_of_mem_filter he, rfl⟩
  rw [TripletStore.queryBelievedAt, h.indexed.facts.bySubject, getD_postings, hentries, beliefs,
    List.filter_filter]
  exact List.filter_congr fun e _ => by simp [Bool.and_comm]

variable [F32 F]

/-- An operation after a time leaves what was believed then. -/
lemma beliefs_replay (h : t.Indexed) {op : ℤ × TripletOp F} (hafter : After time t op) :
    ((t.replay op).beliefs subject time).map TripletEntry.timeless =
      (t.beliefs subject time).map TripletEntry.timeless := by
  have hmap : ∀ t : TripletStore F, (t.beliefs subject time).map TripletEntry.timeless =
      (t.entries.map TripletEntry.timeless).filter fun e => e.subject = subject ∧ t.believed time e = true :=
    fun t => by rw [List.filter_map]; rfl
  rw [hmap, hmap, replay_direct h.deferredReplay, map_onFacts fun _ _ => rfl, List.filter_append]
  obtain ⟨nowMs, op⟩ := op
  cases op with
  | add o =>
    refine (congrArg₂ _ (List.filter_congr fun e he => ?_) ?_).trans (List.append_nil _)
    · obtain ⟨a, ha, rfl⟩ := List.mem_map.mp he
      have hne : a.timeless.id ≠ o.tripletId := fun heq => hafter.2 (List.mem_map.mpr ⟨a, ha, heq⟩)
      simp only [believed, TripletOp.onIngestions, Function.update_of_ne hne]
      rfl
    · simp [believed, TripletOp.onIngestions, AddTripletOp.entry, TripletEntry.timeless, hafter.1.not_ge]
  | supersede o =>
    rw [List.filter_nil, List.append_nil]
    refine List.filter_congr fun e _ => ?_
    by_cases hid : e.id = o.oldId <;>
      simp [believed, TripletOp.onSupersessions, TripletOp.onIngestions, hid, hafter.1, hafter.2]
  | invalidate o => exact List.append_nil _
  | invalidateBySourceFile o => exact List.append_nil _

lemma Sound.replay (h : t.Sound) {op : ℤ × TripletOp F} (hafter : After time t op) :
    (t.replay op).Sound := by
  refine ⟨h.indexed.replayAll [op], ?_⟩
  rw [replay_direct h.indexed.deferredReplay]
  refine (map_id_onFacts t.toFacts op.2).symm ▸ h.distinct.append ?_ ?_
  · cases op.2.added <;> simp
  · obtain ⟨nowMs, op⟩ := op
    cases op with
    | add o => simpa [TripletOp.added] using hafter.2
    | _ => simp [TripletOp.added]

end TripletStore

/-- What was believed at a time is what the store of then has, whatever comes later: its triplets of the
subject that had come and were not superseded. -/
theorem believed_history {F : Type} [F32 F] (t : TripletStore F) (ht : t.Sound) (time : ℤ)
    (ops : List (ℤ × TripletOp F))
    (hafter : Replayed.All (fun t op => (t.replay op, ([] : List Unit))) (TripletStore.After time) t ops)
    (subject : String) : ((t.replayAll ops).queryBelievedAt subject time).map TripletEntry.timeless =
      (t.beliefs subject time).map TripletEntry.timeless := by
  induction ops generalizing t with
  | nil => exact congrArg _ ht.queryBelievedAt
  | cons op ops ih =>
    exact (ih (t.replay op) (ht.replay hafter.1) hafter.2).trans
      (TripletStore.beliefs_replay ht.indexed hafter.1)

/-- What supersedes a triplet at time 20 leaves it as a belief of time 10. -/
theorem believed_before_supersession :
    let t := (TripletStore.empty ℚ).replayAll [(5, .add ⟨1, "a", "b", "c", 1, 0, none, none⟩)]
    ((t.replayAll [(20, .supersede ⟨1, 2, 20⟩)]).queryBelievedAt "a" 10).map TripletEntry.timeless =
      (t.beliefs "a" 10).map TripletEntry.timeless ∧ (t.beliefs "a" 10).length = 1 := by
  intro t
  have ht : t.Sound := ⟨TripletStore.indexed_empty.replayAll _, by decide +kernel⟩
  refine ⟨believed_history t ht 10 _ ?_ "a", by decide +kernel⟩
  exact ⟨⟨by decide, by decide +kernel⟩, trivial⟩

end ChittaField
