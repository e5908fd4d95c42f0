import Mathlib.Algebra.BigOperators.Group.Finset.Basic
import ChittaField.Lib.Contests
import ChittaField.Lib.Lists
import ChittaField.Lib.Replayed
import ChittaField.Organs.DeferredReplay

/-!
# Cleaning a part of the triplets

The full scan removes the invalidated triplets and, of valid ones with the same strings, all but the
first among the heaviest.  The incremental cleaning does this for the triplets of some subjects,
which it finds through the indexes.

`cleanSubjects_eq_fullScan` says when both come to the same store: the indexes are those of the
triplets (`Facts.Aligned`), the ids of the subjects are used once (`Facts.Unambiguous`), and the
triplets of all other subjects are valid and different (`Covered`).  Both select the losers of
contests: the full scan lets all triplets with the same strings contest, the incremental cleaning
those of one subject at a time.
-/

namespace ChittaField

variable {F : Type}

/-! ## Triplets by position -/

/-- The strings of a triplet. -/
def TripletEntry.spo (e : TripletEntry F) : String × String × String :=
  (e.subject, e.predicate, e.object)

/-- The strings of the triplet at a position. -/
def spoAt (entries : List (TripletEntry F)) (i : ℕ) : String × String × String :=
  ((entries[i]?).map TripletEntry.spo).getD ("", "", "")

/-- The triplet at a position is heavier than another one. -/
def heavier [F32 F] (entries : List (TripletEntry F)) (i j : ℕ) : Bool :=
  match entries[j]?, entries[i]? with
  | some old, some new => F32.lt old.weight new.weight
  | _, _ => false

/-- The valid triplets with their positions. -/
def liveIdx (entries : List (TripletEntry F)) : List (TripletEntry F × ℕ) :=
  entries.zipIdx.filter fun p => p.1.validToMs = 0

/-- The positions of valid triplets that others with the same strings replace. -/
def losers [F32 F] (entries : List (TripletEntry F)) : Finset ℕ :=
  (contests (spoAt entries) (heavier entries) ((liveIdx entries).map Prod.snd)).2

/-- The triplets that a full cleaning leaves. -/
def cleaned [F32 F] (entries : List (TripletEntry F)) : List (TripletEntry F) :=
  ((liveIdx entries).filter (·.2 ∉ losers entries)).map Prod.fst

variable {entries : List (TripletEntry F)}

lemma mem_liveIdx {p : TripletEntry F × ℕ} :
    p ∈ liveIdx entries ↔ entries[p.2]? = some p.1 ∧ p.1.validToMs = 0 := by
  rw [liveIdx, List.mem_filter, List.mem_zipIdx_iff_getElem?]
  simp

lemma nodup_liveIdx (entries : List (TripletEntry F)) :
    ((liveIdx entries).map Prod.snd).Nodup := by
  refine List.Nodup.sublist (List.filter_sublist.map _) ?_
  rw [List.zipIdx_map_snd]
  exact List.nodup_range'

lemma map_fst_liveIdx (entries : List (TripletEntry F)) :
    (liveIdx entries).map Prod.fst = entries.filter (·.validToMs = 0) := by
  have h : entries.filter (·.validToMs = 0) =
      (entries.zipIdx.map Prod.fst).filter (·.validToMs = 0) := by rw [List.zipIdx_map_fst]
  rw [h, List.filter_map]
  rfl

variable [F32 F]

/-! ## The full scan -/

namespace TripletStore

/-- The scan for duplicates lets every valid triplet contest the best of its strings. -/
lemma foldl_dedupAt (entries : List (TripletEntry F)) :
    entries.zipIdx.foldl (dedupAt entries) (fun _ => none, ∅) =
      contests (spoAt entries) (heavier entries) ((liveIdx entries).map Prod.snd) := by
  have hskip : ∀ acc (l : List (TripletEntry F × ℕ)), l.foldl (dedupAt entries) acc =
      (l.filter fun p => p.1.validToMs = 0).foldl (dedupAt entries) acc := by
    intro acc l
    rw [List.foldl_filter]
    congr 1
    funext acc p
    by_cases hp : p.1.validToMs = 0 <;> simp [dedupAt, hp]
  have hstep : ∀ l : List (TripletEntry F × ℕ), (∀ p ∈ l, entries[p.2]? = some p.1 ∧
      p.1.validToMs = 0) → l.foldl (dedupAt entries) (fun _ => none, ∅) =
        contests (spoAt entries) (heavier entries) (l.map Prod.snd) := by
    intro l
    induction l using List.reverseRecOn with
    | nil => exact fun _ => rfl
    | append_singleton l p ih =>
      intro h
      obtain ⟨hp, hlive⟩ := h p List.mem_concat_self
      have hl := ih (List.forall_mem_append.mp h).1
      have hkey : spoAt entries p.2 = p.1.spo := by simp [spoAt, hp]
      rw [List.foldl_append, hl, List.map_append, List.map_singleton, contests_concat]
      generalize hs : contests (spoAt entries) (heavier entries) (l.map Prod.snd) = s
      rw [List.foldl_cons, List.foldl_nil]
      cases hb : s.1 p.1.spo with
      | none =>
        have hnone : s.1 (p.1.subject, p.1.predicate, p.1.object) = none := hb
        simp [dedupAt, contest, hkey, hlive, hb, hnone]
        rfl
      | some b =>
        have hsome : s.1 (p.1.subject, p.1.predicate, p.1.object) = some b := hb
        -- a champion is a position of the list
        have hmem := (champion_mem (hs ▸ hb)).1
        obtain ⟨q, hq, rfl⟩ := List.mem_map.mp hmem
        have hentry := (h q (List.mem_append_left _ hq)).1
        simp [dedupAt, contest, hkey, hlive, hb, hsome, hentry, heavier, hp]
        rfl
  rw [hskip]
  exact hstep _ fun p hp => mem_liveIdx.mp hp

/-- The positions of what is left when the invalidated triplets are gone. -/
def liveAt (entries : List (TripletEntry F)) (k : ℕ) : ℕ :=
  (((liveIdx entries)[k]?).map Prod.snd).getD 0

omit [F32 F] in
lemma map_liveAt (entries : List (TripletEntry F)) :
    (List.range (liveIdx entries).length).map (liveAt entries) =
      (liveIdx entries).map Prod.snd := by
  refine List.ext_getElem (by simp) fun k hk hk' => ?_
  rw [List.length_map] at hk'
  simp [liveAt, hk']

omit [F32 F] in
lemma liveIdx_purged (entries : List (TripletEntry F)) :
    (liveIdx (entries.filter (·.validToMs = 0))).map Prod.snd =
      List.range (liveIdx entries).length := by
  have hall : liveIdx (entries.filter (·.validToMs = 0)) =
      (entries.filter (·.validToMs = 0)).zipIdx := by
    refine List.filter_eq_self.mpr fun p hp => ?_
    obtain ⟨_, hmem⟩ := List.mem_zipIdx_iff_getElem?.mp hp |> List.getElem?_eq_some_iff.mp
    have := List.mem_filter.mp (hmem ▸ List.getElem_mem _)
    exact this.2
  rw [hall, List.zipIdx_map_snd, ← map_fst_liveIdx, List.length_map, List.range_eq_range']

omit [F32 F] in
/-- The triplet at a position, before and behind the purge. -/
lemma getElem?_liveAt {k : ℕ} (hk : k < (liveIdx entries).length) :
    entries[liveAt entries k]? = (entries.filter (·.validToMs = 0))[k]? ∧
      (entries.filter (·.validToMs = 0))[k]?.isSome := by
  obtain ⟨p, hp⟩ : ∃ p, (liveIdx entries)[k]? = some p := ⟨_, List.getElem?_eq_getElem hk⟩
  have hentry := (mem_liveIdx.mp (List.mem_of_getElem? hp)).1
  have hpos : liveAt entries k = p.2 := by simp [liveAt, hp]
  rw [hpos, ← map_fst_liveIdx, List.getElem?_map, hp, Option.map_some, hentry]
  exact ⟨rfl, rfl⟩

/-- Duplicates are the same before and behind the purge. -/
lemma losers_purged (entries : List (TripletEntry F)) :
    losers entries = (losers (entries.filter (·.validToMs = 0))).image (liveAt entries) := by
  have hkey : ∀ i ∈ List.range (liveIdx entries).length,
      spoAt entries (liveAt entries i) = spoAt (entries.filter (·.validToMs = 0)) i := by
    intro i hi
    rw [spoAt, (getElem?_liveAt (List.mem_range.mp hi)).1, spoAt]
  have hbeats : ∀ i ∈ List.range (liveIdx entries).length,
      ∀ j ∈ List.range (liveIdx entries).length,
        heavier entries (liveAt entries i) (liveAt entries j) =
          heavier (entries.filter (·.validToMs = 0)) i j := by
    intro i hi j hj
    rw [heavier, (getElem?_liveAt (List.mem_range.mp hi)).1,
      (getElem?_liveAt (List.mem_range.mp hj)).1, heavier]
  rw [losers, losers, liveIdx_purged, ← map_liveAt]
  exact (contests_map hkey hbeats).2

omit [F32 F] in
lemma liveAt_injOn {i j : ℕ} (hi : i < (liveIdx entries).length) (hj : j < (liveIdx entries).length)
    (h : liveAt entries i = liveAt entries j) : i = j := by
  have hnodup := nodup_liveIdx entries
  rw [← map_liveAt] at hnodup
  exact List.inj_on_of_nodup_map hnodup (List.mem_range.mpr hi) (List.mem_range.mpr hj) h

/-- The losers are positions of valid triplets. -/
lemma losers_subset {i : ℕ} (h : i ∈ losers entries) : i ∈ (liveIdx entries).map Prod.snd :=
  ((decided_contests (nodup_liveIdx entries)).loser i h).1

lemma card_losers_purged (entries : List (TripletEntry F)) :
    (losers (entries.filter (·.validToMs = 0))).card = (losers entries).card := by
  rw [losers_purged entries]
  refine (Finset.card_image_of_injOn fun i hi j hj hij => ?_).symm
  have hlt : ∀ i ∈ losers (entries.filter (·.validToMs = 0)), i < (liveIdx entries).length := by
    intro i hi
    have := losers_subset hi
    rwa [liveIdx_purged, List.mem_range] at this
  exact liveAt_injOn (hlt i hi) (hlt j hj) hij

/-- What the two passes of the full scan leave. -/
lemma dedup_purged (entries : List (TripletEntry F)) :
    (((entries.filter (·.validToMs = 0)).zipIdx.filter fun p : TripletEntry F × ℕ =>
      p.2 ∉ losers (entries.filter (·.validToMs = 0))).map Prod.fst) = cleaned entries := by
  have hzip : (entries.filter (·.validToMs = 0)).zipIdx =
      (liveIdx entries).zipIdx.map (Prod.map Prod.fst id) := by
    rw [← map_fst_liveIdx, List.zipIdx_map]
  have hpred : ∀ x ∈ (liveIdx entries).zipIdx,
      decide (x.2 ∉ losers (entries.filter (·.validToMs = 0))) =
        decide (x.1.2 ∉ losers entries) := by
    rintro ⟨p, k⟩ hx
    have hp : (liveIdx entries)[k]? = some p := List.mem_zipIdx_iff_getElem?.mp hx
    have hk : k < (liveIdx entries).length := (List.getElem?_eq_some_iff.mp hp).1
    have hpos : liveAt entries k = p.2 := by simp [liveAt, hp]
    have hiff : k ∈ losers (entries.filter (·.validToMs = 0)) ↔ p.2 ∈ losers entries := by
      rw [losers_purged entries, ← hpos, Finset.mem_image]
      refine ⟨fun h => ⟨k, h, rfl⟩, ?_⟩
      rintro ⟨j, hj, heq⟩
      have hjlt := losers_subset hj
      rw [liveIdx_purged, List.mem_range] at hjlt
      exact liveAt_injOn hjlt hk heq ▸ hj
    simp only [hiff]
  have hfilter : ((liveIdx entries).zipIdx.filter fun x : (TripletEntry F × ℕ) × ℕ =>
      decide (x.1.2 ∉ losers entries)).map Prod.fst =
        (liveIdx entries).filter (·.2 ∉ losers entries) := by
    have h := List.filter_map (f := Prod.fst) (l := (liveIdx entries).zipIdx)
      (p := fun p : TripletEntry F × ℕ => decide (p.2 ∉ losers entries))
    rw [List.zipIdx_map_fst] at h
    exact h.symm
  rw [hzip, List.filter_map, List.map_map, cleaned, ← hfilter, List.map_map]
  refine congrArg (List.map _) (List.filter_congr fun x hx => ?_)
  exact hpred x hx

end TripletStore

/-! ## The indexes of triplets -/

section Indexes

omit [F32 F]

lemma isSome_identity {id : ℕ} :
    ((identity entries).1 id).isSome = true ↔ id ∈ entries.map (·.id) := by
  induction entries using List.reverseRecOn with
  | nil => simp [identity]
  | append_singleton l e ih =>
    rw [identity_append, List.map_append, List.mem_append, ← ih]
    by_cases hid : id = e.id
    · simp [noteIdentity, hid]
    · simp [noteIdentity, hid]

/-- An id that is not noted as repeated is at one position only, which the index has. -/
lemma identity_of_unique {i : ℕ} {e : TripletEntry F} (he : entries[i]? = some e)
    (hunique : e.id ∉ (identity entries).2) : (identity entries).1 e.id = some i ∧
      ∀ j e', entries[j]? = some e' → e'.id = e.id → j = i := by
  induction entries using List.reverseRecOn with
  | nil => simp at he
  | append_singleton l a ih =>
    rw [identity_append] at hunique ⊢
    have hlast : ∀ (j : ℕ) (e' : TripletEntry F), (l ++ [a])[j]? = some e' →
        l[j]? = some e' ∨ j = l.length ∧ e' = a := by
      intro j e' hj
      rcases Nat.lt_or_ge j l.length with hlt | hge
      · exact Or.inl (by rwa [List.getElem?_append_left hlt] at hj)
      · rw [List.getElem?_append_right hge, List.getElem?_singleton] at hj
        split_ifs at hj with hz
        exact Or.inr ⟨by omega, (Option.some.inj hj).symm⟩
    have hseen : ∀ (j : ℕ) (e' : TripletEntry F), l[j]? = some e' →
        ((identity l).1 e'.id).isSome = true := fun j e' hj =>
      isSome_identity.mpr (List.mem_map_of_mem (List.mem_of_getElem? hj))
    have hne : ∀ (j : ℕ) (e' : TripletEntry F), l[j]? = some e' → e'.id = a.id → e.id ≠ a.id := by
      intro j e' hj hid heq
      have hsome : ((identity l).1 a.id).isSome = true := hid ▸ hseen j e' hj
      rw [noteIdentity, if_pos hsome, heq] at hunique
      exact hunique (Finset.mem_insert_self _ _)
    rcases hlast i e he with hi | ⟨rfl, rfl⟩
    · have hea : e.id ≠ a.id := fun heq => hne i e hi heq heq
      have hold : e.id ∉ (identity l).2 := by
        simp only [noteIdentity] at hunique
        split_ifs at hunique
        · exact fun hmem => hunique (Finset.mem_insert_of_mem hmem)
        · exact hunique
      obtain ⟨hidx, huniq⟩ := ih hi hold
      refine ⟨(Function.update_of_ne hea ..).trans hidx, fun j e' hj heq => ?_⟩
      rcases hlast j e' hj with hj | ⟨-, rfl⟩
      · exact huniq j e' hj heq
      · exact absurd heq.symm hea
    · refine ⟨Function.update_self .., fun j e' hj heq => ?_⟩
      rcases hlast j e' hj with hj | ⟨rfl, -⟩
      · exact absurd rfl (hne j e' hj heq)
      · rfl

/-- The postings of a string are the ids of the triplets with it, if there are any. -/
lemma postings_apply (pick : TripletEntry F → String) (entries : List (TripletEntry F))
    (key : String) :
    postings pick entries key =
      Option.guard (· ≠ []) ((entries.filter (pick · = key)).map (·.id)) := by
  induction entries using List.reverseRecOn with
  | nil => simp [postings, Option.guard]
  | append_singleton l e ih =>
    rw [postings_append, post, List.filter_append, List.map_append]
    by_cases hkey : key = pick e
    · subst hkey
      have hgetD : (postings pick l (pick e)).getD [] = (l.filter (pick · = pick e)).map (·.id) := by
        rw [ih]
        by_cases hnil : (l.filter (pick · = pick e)).map (·.id) = [] <;> simp [Option.guard, hnil]
      rw [Function.update_self, hgetD]
      simp [Option.guard]
    · rw [Function.update_of_ne hkey, ih]
      simp [Ne.symm hkey]

lemma getD_postings (pick : TripletEntry F → String) (entries : List (TripletEntry F))
    (key : String) :
    (postings pick entries key).getD [] = (entries.filter (pick · = key)).map (·.id) := by
  rw [postings_apply]
  by_cases hnil : (entries.filter (pick · = key)).map (·.id) = [] <;> simp [Option.guard, hnil]

/-- The indexes are those of the triplets, but more ids may be noted as repeated than are. -/
structure Facts.Aligned (f : Facts F) : Prop where
  idToIndex : f.idToIndex = (identity f.entries).1
  duplicateIds : (identity f.entries).2 ⊆ f.duplicateIds
  bySubject : f.bySubject = postings (·.subject) f.entries
  byObject : f.byObject = postings (·.object) f.entries
  byPredicate : f.byPredicate = postings (·.predicate) f.entries

end Indexes

namespace TripletStore

/-- The store with other triplets, behind a rebuild of its indexes. -/
def rebuiltWith (t : TripletStore F) (entries : List (TripletEntry F)) : TripletStore F :=
  { t with entries := entries }.rebuildIndexes.retainIngested

omit [F32 F] in
/-- A second removal makes the first one forgotten. -/
lemma rebuiltWith_twice (t : TripletStore F) {entries entries' : List (TripletEntry F)}
    (h : entries'.Sublist entries) :
    { t.rebuiltWith entries with entries := entries' }.rebuildIndexes.retainIngested =
      t.rebuiltWith entries' := by
  have htimes : (fun id => if ((identity entries').1 id).isSome = true then
      (if ((identity entries).1 id).isSome = true then t.ingestionTimes id else none) else none) =
        fun id => if ((identity entries').1 id).isSome = true then t.ingestionTimes id else none := by
    funext id
    split_ifs with h1 h2
    · rfl
    · exact absurd (isSome_identity.mpr ((h.map _).subset (isSome_identity.mp h1))) h2
    · rfl
  exact congrArg (fun times => { t.rebuiltWith entries' with ingestionTimes := times }) htimes

lemma cleaned_sublist (entries : List (TripletEntry F)) :
    (cleaned entries).Sublist (entries.filter (·.validToMs = 0)) := by
  rw [cleaned, ← map_fst_liveIdx]
  exact List.filter_sublist.map _

/-- What the two passes of the full scan do: where something is removed, the indexes are rebuilt. -/
lemma dedupEntries_purgeInvalidated (t : TripletStore F) :
    t.purgeInvalidated.2 = (t.entries.filter (·.validToMs ≠ 0)).length ∧
      t.purgeInvalidated.1.dedupEntries.2 = (losers t.entries).card ∧
      t.purgeInvalidated.1.dedupEntries.1 =
        if t.purgeInvalidated.2 = 0 ∧ (losers t.entries).card = 0 then t
        else t.rebuiltWith (cleaned t.entries) := by
  have hcount : t.purgeInvalidated.2 = (t.entries.filter (·.validToMs ≠ 0)).length := by
    have h := List.length_eq_length_filter_add (l := t.entries) (fun e => decide (e.validToMs = 0))
    have hnot : (t.entries.filter fun e => !decide (e.validToMs = 0)) =
        t.entries.filter (·.validToMs ≠ 0) := by simp
    rw [hnot] at h
    simp only [purgeInvalidated]
    omega
  have hpurged : t.purgeInvalidated.1.entries = t.entries.filter (·.validToMs = 0) := by
    simp only [purgeInvalidated]
    split_ifs <;> rfl
  have hlosers : (t.purgeInvalidated.1.entries.zipIdx.foldl
      (dedupAt t.purgeInvalidated.1.entries) (fun _ => none, ∅)).2 =
        losers (t.entries.filter (·.validToMs = 0)) := by
    rw [foldl_dedupAt, hpurged, losers]
  have hcard := card_losers_purged t.entries
  refine ⟨hcount, ?_, ?_⟩
  · rw [dedupEntries, hlosers, hcard]
    split_ifs with h
    · exact h.symm
    · rfl
  · rw [dedupEntries, hlosers, hcard]
    by_cases hzero : (losers t.entries).card = 0
    · rw [if_pos hzero]
      simp only [hzero, and_true]
      have hcleaned : cleaned t.entries = t.entries.filter (·.validToMs = 0) := by
        rw [cleaned, Finset.card_eq_zero.mp hzero, ← map_fst_liveIdx]
        simp
      rw [hcleaned]
      by_cases hremoved : t.purgeInvalidated.2 = 0
      · rw [if_pos hremoved]
        have hself : t.entries.filter (·.validToMs = 0) = t.entries := by
          rw [hcount, List.length_eq_zero_iff, List.filter_eq_nil_iff] at hremoved
          exact List.filter_eq_self.mpr fun e he => by simpa using hremoved e he
        simp [purgeInvalidated, hself]
      · rw [if_neg hremoved]
        simp only [purgeInvalidated] at hremoved ⊢
        rw [if_pos (Nat.pos_of_ne_zero hremoved)]
        rfl
    · rw [if_neg hzero, if_neg fun h => hzero h.2, hpurged, dedup_purged]
      by_cases hremoved : t.purgeInvalidated.2 = 0
      · simp only [purgeInvalidated] at hremoved ⊢
        rw [if_neg (by omega)]
        rfl
      · have hfirst : t.purgeInvalidated.1 = t.rebuiltWith (t.entries.filter (·.validToMs = 0)) := by
          simp only [purgeInvalidated] at hremoved ⊢
          rw [if_pos (Nat.pos_of_ne_zero hremoved)]
          rfl
        rw [hfirst]
        exact t.rebuiltWith_twice (cleaned_sublist t.entries)

end TripletStore

/-! ## The cleaning of some subjects -/

namespace Facts

/-- The triplets of a subject with their positions. -/
def subjectIdx (f : Facts F) (subject : String) : List (TripletEntry F × ℕ) :=
  f.entries.zipIdx.filter fun p => p.1.subject = subject

/-- The ids of the triplets of a subject occur once. -/
def Unambiguous (f : Facts F) (subject : String) : Prop :=
  ∀ id ∈ (f.bySubject subject).getD [], id ∉ f.duplicateIds

variable {f : Facts F} {subject : String}

omit [F32 F] in
lemma mem_subjectIdx {p : TripletEntry F × ℕ} :
    p ∈ f.subjectIdx subject ↔ f.entries[p.2]? = some p.1 ∧ p.1.subject = subject := by
  rw [subjectIdx, List.mem_filter, List.mem_zipIdx_iff_getElem?]
  simp

omit [F32 F] in
lemma Aligned.unique (h : f.Aligned) (hs : f.Unambiguous subject) {p : TripletEntry F × ℕ}
    (hp : p ∈ f.subjectIdx subject) : p.1.id ∉ (identity f.entries).2 := by
  obtain ⟨hentry, hsubject⟩ := mem_subjectIdx.mp hp
  refine fun hmem => hs p.1.id ?_ (h.duplicateIds hmem)
  rw [h.bySubject, getD_postings]
  exact List.mem_map_of_mem
    (List.mem_filter.mpr ⟨List.mem_of_getElem? hentry, decide_eq_true hsubject⟩)

omit [F32 F] in
lemma Aligned.positions (h : f.Aligned) (hs : f.Unambiguous subject) :
    f.positions subject = (f.subjectIdx subject).map Prod.snd := by
  have hids : (f.bySubject subject).getD [] = (f.subjectIdx subject).map (·.1.id) := by
    have hfst : f.entries.filter (·.subject = subject) = (f.subjectIdx subject).map Prod.fst := by
      have hmap := List.filter_map (f := Prod.fst) (l := f.entries.zipIdx)
        (p := fun e : TripletEntry F => decide (e.subject = subject))
      rw [List.zipIdx_map_fst] at hmap
      exact hmap
    rw [h.bySubject, getD_postings, hfst, List.map_map]
    rfl
  have hfound : ∀ p ∈ f.subjectIdx subject, f.idToIndex p.1.id = some p.2 := fun p hp => by
    rw [h.idToIndex]
    exact (identity_of_unique (mem_subjectIdx.mp hp).1 (h.unique hs hp)).1
  have hsorted : ((f.subjectIdx subject).map Prod.snd).Pairwise (· ≤ ·) := by
    refine List.Pairwise.sublist (List.filter_sublist.map _) ?_
    rw [List.zipIdx_map_snd]
    exact (List.pairwise_lt_range').imp le_of_lt
  rw [Facts.positions, hids, List.filterMap_map, List.filterMap_congr (g := fun p => some p.2) hfound,
    List.filterMap_eq_map', List.Pairwise.insertionSort_eq hsorted]

/-- A selection among triplets of one subject: the invalidated ones, and the losers of the contests
of the others. -/
structure Selected (subject : String) (acc : Selection) (l : List (TripletEntry F × ℕ))
    (c : (String × String × String → Option ℕ) × Finset ℕ)
    (r : Selection × (String × String → Option ℕ)) : Prop where
  best : ∀ k, r.2 k = c.1 (subject, k)
  removed : ∀ id, id ∈ r.1.removed ↔ id ∈ acc.removed ∨
    ∃ p ∈ l, p.1.id = id ∧ (p.1.validToMs ≠ 0 ∨ p.2 ∈ c.2)
  purged : r.1.purged = acc.purged + (l.filter (·.1.validToMs ≠ 0)).length
  deduped : r.1.deduped = acc.deduped + c.2.card

section Select

variable {acc : Selection} {l : List (TripletEntry F × ℕ)}
  {c : (String × String × String → Option ℕ) × Finset ℕ}
  {r : Selection × (String × String → Option ℕ)} {p : TripletEntry F × ℕ}

/-- One more triplet that is invalidated. -/
lemma Selected.invalid (h : Selected subject acc l c r) (hp : f.entries[p.2]? = some p.1)
    (hinvalid : p.1.validToMs ≠ 0) (hacc : p.1.id ∉ acc.removed) (hnew : ∀ q ∈ l, q.1.id ≠ p.1.id)
    (hlost : p.2 ∉ c.2) : Selected subject acc (l ++ [p]) c (f.selectAt r p.2) := by
  have hfresh : p.1.id ∉ r.1.removed := by
    rw [h.removed]
    rintro (hmem | ⟨q, hq, hid, -⟩)
    · exact hacc hmem
    · exact hnew q hq hid
  have hstep : f.selectAt r p.2 =
      ({ r.1 with removed := insert p.1.id r.1.removed, purged := r.1.purged + 1 }, r.2) := by
    simp [selectAt, hp, hinvalid, hfresh]
  rw [hstep]
  refine ⟨h.best, fun id => ?_, ?_, h.deduped⟩
  · simp only [Finset.mem_insert, h.removed, List.mem_append, List.mem_singleton]
    constructor
    · rintro (rfl | hmem | ⟨q, hq, hrest⟩)
      · exact Or.inr ⟨p, Or.inr rfl, rfl, Or.inl hinvalid⟩
      · exact Or.inl hmem
      · exact Or.inr ⟨q, Or.inl hq, hrest⟩
    · rintro (hmem | ⟨q, hq | rfl, hid, hrest⟩)
      · exact Or.inr (Or.inl hmem)
      · exact Or.inr (Or.inr ⟨q, hq, hid, hrest⟩)
      · exact Or.inl hid.symm
  · simp [List.filter_append, hinvalid, h.purged, Nat.add_assoc]

omit [F32 F] in
/-- One more loser among the triplets. -/
lemma Selected.lost (h : Selected subject acc l c r) {q : TripletEntry F × ℕ} (hq : q ∈ l ++ [p])
    (hpos : ((l ++ [p]).map Prod.snd).Nodup) (hvalid : p.1.validToMs = 0) (hlost : p.2 ∉ c.2)
    (id : ℕ) :
    id ∈ insert q.1.id r.1.removed ↔ id ∈ acc.removed ∨
      ∃ p' ∈ l ++ [p], p'.1.id = id ∧ (p'.1.validToMs ≠ 0 ∨ p'.2 ∈ insert q.2 c.2) := by
  rw [Finset.mem_insert, h.removed]
  constructor
  · rintro (rfl | hmem | ⟨p', hp', hid, hrest⟩)
    · exact Or.inr ⟨q, hq, rfl, Or.inr (Finset.mem_insert_self _ _)⟩
    · exact Or.inl hmem
    · exact Or.inr ⟨p', List.mem_append_left _ hp', hid, hrest.imp_right Finset.mem_insert_of_mem⟩
  · rintro (hmem | ⟨p', hp', hid, hrest⟩)
    · exact Or.inr (Or.inl hmem)
    · by_cases hsame : p'.2 = q.2
      · obtain rfl := List.inj_on_of_nodup_map hpos hp' hq hsame
        exact Or.inl hid.symm
      · have hrest' : p'.1.validToMs ≠ 0 ∨ p'.2 ∈ c.2 :=
          hrest.imp_right fun hmem => (Finset.mem_insert.mp hmem).resolve_left hsame
        rcases List.mem_append.mp hp' with hp' | hp'
        · exact Or.inr (Or.inr ⟨p', hp', hid, hrest'⟩)
        · obtain rfl := List.mem_singleton.mp hp'
          exact absurd hrest' (by simp [hvalid, hlost])

/-- One more valid triplet: it is a contest for its strings. -/
lemma Selected.live (h : Selected subject acc l c r) (hp : f.entries[p.2]? = some p.1)
    (hsubject : p.1.subject = subject) (hvalid : p.1.validToMs = 0)
    (hpos : ((l ++ [p]).map Prod.snd).Nodup) (hlost : p.2 ∉ c.2)
    (hchampion : ∀ k b, c.1 k = some b → b ∉ c.2 ∧ ∃ q ∈ l, q.2 = b ∧ f.entries[b]? = some q.1) :
    Selected subject acc (l ++ [p]) (contest (spoAt f.entries) (heavier f.entries) c p.2)
      (f.selectAt r p.2) := by
  have hkey : spoAt f.entries p.2 = (subject, p.1.predicate, p.1.object) := by
    simp [spoAt, hp, TripletEntry.spo, hsubject]
  have hpurged : ((l ++ [p]).filter (·.1.validToMs ≠ 0)).length =
      (l.filter (·.1.validToMs ≠ 0)).length := by simp [List.filter_append, hvalid]
  have hbestp := h.best (p.1.predicate, p.1.object)
  have hbest : ∀ k, Function.update r.2 (p.1.predicate, p.1.object) (some p.2) k =
      Function.update c.1 (subject, p.1.predicate, p.1.object) (some p.2) (subject, k) := by
    intro k
    by_cases hk : k = (p.1.predicate, p.1.object)
    · subst hk
      simp
    · rw [Function.update_of_ne hk, Function.update_of_ne fun e => hk (Prod.mk.inj e).2, h.best]
  cases hb : c.1 (subject, p.1.predicate, p.1.object) with
  | none =>
    rw [hb] at hbestp
    have hselect : f.selectAt r p.2 =
        (r.1, Function.update r.2 (p.1.predicate, p.1.object) (some p.2)) := by
      simp [selectAt, hp, hvalid, hbestp]
    have hcontest : contest (spoAt f.entries) (heavier f.entries) c p.2 =
        (Function.update c.1 (subject, p.1.predicate, p.1.object) (some p.2), c.2) := by
      simp [contest, hkey, hb]
    rw [hselect, hcontest]
    refine ⟨hbest, fun id => ?_, hpurged ▸ h.purged, h.deduped⟩
    rw [h.removed]
    refine or_congr_right ⟨?_, ?_⟩
    · rintro ⟨q, hq, hrest⟩
      exact ⟨q, List.mem_append_left _ hq, hrest⟩
    · rintro ⟨q, hq, hid, hrest⟩
      rcases List.mem_append.mp hq with hq | hq
      · exact ⟨q, hq, hid, hrest⟩
      · obtain rfl := List.mem_singleton.mp hq
        exact absurd hrest (by simp [hvalid, hlost])
  | some b =>
    obtain ⟨hbnot, q, hq, rfl, hentry⟩ := hchampion _ b hb
    rw [hb] at hbestp
    cases hlt : F32.lt q.1.weight p.1.weight with
    | true =>
      have hselect : f.selectAt r p.2 =
          ({ r.1 with removed := insert q.1.id r.1.removed, deduped := r.1.deduped + 1 },
            Function.update r.2 (p.1.predicate, p.1.object) (some p.2)) := by
        simp [selectAt, hp, hvalid, hbestp, hentry, hlt]
      have hcontest : contest (spoAt f.entries) (heavier f.entries) c p.2 =
          (Function.update c.1 (subject, p.1.predicate, p.1.object) (some p.2),
            insert q.2 c.2) := by
        simp [contest, hkey, hb, heavier, hentry, hp, hlt]
      rw [hselect, hcontest]
      refine ⟨hbest, h.lost (List.mem_append_left _ hq) hpos hvalid hlost, hpurged ▸ h.purged, ?_⟩
      simp [Finset.card_insert_of_notMem hbnot, h.deduped, Nat.add_assoc]
    | false =>
      have hselect : f.selectAt r p.2 =
          ({ r.1 with removed := insert p.1.id r.1.removed, deduped := r.1.deduped + 1 }, r.2) := by
        simp [selectAt, hp, hvalid, hbestp, hentry, hlt]
      have hcontest : contest (spoAt f.entries) (heavier f.entries) c p.2 =
          (c.1, insert p.2 c.2) := by
        simp [contest, hkey, hb, heavier, hentry, hp, hlt]
      rw [hselect, hcontest]
      refine ⟨h.best, h.lost List.mem_concat_self hpos hvalid hlost,
        hpurged ▸ h.purged, ?_⟩
      simp [Finset.card_insert_of_notMem hlost, h.deduped, Nat.add_assoc]

/-- The contests of the valid triplets of a list. -/
def liveContests (f : Facts F) (l : List (TripletEntry F × ℕ)) :
    (String × String × String → Option ℕ) × Finset ℕ :=
  contests (spoAt f.entries) (heavier f.entries) ((l.filter (·.1.validToMs = 0)).map Prod.snd)

/-- The selection among the triplets of one subject. -/
lemma selected_foldl (hl : ∀ p ∈ l, f.entries[p.2]? = some p.1 ∧ p.1.subject = subject)
    (hpos : (l.map Prod.snd).Nodup) (hids : (l.map (·.1.id)).Nodup)
    (hacc : ∀ p ∈ l, p.1.id ∉ acc.removed) :
    Selected subject acc l (f.liveContests l)
      ((l.map Prod.snd).foldl f.selectAt (acc, fun _ => none)) := by
  induction l using List.reverseRecOn with
  | nil => exact ⟨fun _ => rfl, fun _ => by simp, rfl, rfl⟩
  | append_singleton l p ih =>
    have hlast : p ∈ l ++ [p] := List.mem_concat_self
    have hpos' : (l.map Prod.snd).Nodup := hpos.sublist ((List.sublist_append_left l [p]).map _)
    have hlive : ((l.filter (·.1.validToMs = 0)).map Prod.snd).Nodup :=
      hpos'.sublist (List.filter_sublist.map _)
    have hd : Decided (spoAt f.entries) _ (f.liveContests l) := decided_contests hlive
    have hsel := ih (List.forall_mem_append.mp hl).1 hpos'
      (hids.sublist ((List.sublist_append_left l [p]).map _))
      (List.forall_mem_append.mp hacc).1
    have hnew : p.2 ∉ l.map Prod.snd := by
      rw [List.map_append] at hpos
      exact fun hmem => (List.nodup_append.mp hpos).2.2 p.2 hmem p.2 (by simp) rfl
    have hlost : p.2 ∉ (f.liveContests l).2 := fun hmem =>
      hnew ((List.filter_sublist.map _).subset (hd.loser _ hmem).1)
    rw [List.map_append, List.foldl_append]
    obtain ⟨hp, hsubject⟩ := hl p hlast
    by_cases hvalid : p.1.validToMs = 0
    · have hstep : f.liveContests (l ++ [p]) =
          contest (spoAt f.entries) (heavier f.entries) (f.liveContests l) p.2 := by
        rw [liveContests, List.filter_append, List.map_append]
        simp only [List.filter_singleton, hvalid, decide_true, cond_true, List.map_singleton]
        exact contests_concat _ _
      rw [hstep]
      refine hsel.live hp hsubject hvalid hpos hlost fun k b hb => ?_
      obtain ⟨hmem, -, hnot⟩ := hd.champion k b hb
      obtain ⟨q, hq, rfl⟩ := List.mem_map.mp hmem
      have hql := (List.mem_filter.mp hq).1
      exact ⟨hnot, q, hql, rfl, (hl q (List.mem_append_left _ hql)).1⟩
    · have hstep : f.liveContests (l ++ [p]) = f.liveContests l := by
        simp [liveContests, List.filter_append, hvalid]
      rw [hstep]
      refine hsel.invalid hp hvalid (hacc p hlast) (fun q hq heq => ?_) hlost
      rw [List.map_append] at hids
      exact (List.nodup_append.mp hids).2.2 q.1.id (List.mem_map_of_mem hq) p.1.id (by simp) heq

end Select

/-- The losers among the triplets of a subject are those of all that have this subject. -/
lemma losers_subject (f : Facts F) (subject : String) :
    (f.liveContests (f.subjectIdx subject)).2 =
      (losers f.entries).filter fun i => (spoAt f.entries i).1 = subject := by
  have hlist : ((f.subjectIdx subject).filter (·.1.validToMs = 0)).map Prod.snd =
      ((liveIdx f.entries).map Prod.snd).filter
        fun i => decide ((spoAt f.entries i).1 = subject) := by
    rw [List.filter_map, subjectIdx, liveIdx, List.filter_filter, List.filter_filter]
    refine congrArg _ (List.filter_congr fun p hp => ?_)
    have hentry : f.entries[p.2]? = some p.1 := List.mem_zipIdx_iff_getElem?.mp hp
    simp [spoAt, hentry, TripletEntry.spo, Bool.and_comm]
  have h := (contests_filter (spoAt f.entries) (heavier f.entries)
    (fun k => decide (k.1 = subject)) ((liveIdx f.entries).map Prod.snd)).2
  rw [liveContests, hlist, h, losers]
  simp

omit [F32 F] in
/-- A triplet of an unambiguous subject is the only one with its id. -/
lemma Aligned.eq_of_id (h : f.Aligned) (hs : f.Unambiguous subject) {p q : TripletEntry F × ℕ}
    (hp : p ∈ f.subjectIdx subject) (hq : f.entries[q.2]? = some q.1) (hid : q.1.id = p.1.id) :
    q = p := by
  obtain ⟨hentry, -⟩ := mem_subjectIdx.mp hp
  have hpos := (identity_of_unique hentry (h.unique hs hp)).2 q.2 q.1 hq hid
  refine Prod.ext ?_ hpos
  rw [hpos, hentry] at hq
  exact (Option.some.inj hq).symm

/-- What the cleaning of some subjects selects. -/
structure SelectedAll (f : Facts F) (subjects : List String) (r : Selection) : Prop where
  removed : ∀ id, id ∈ r.removed ↔ ∃ p : TripletEntry F × ℕ, f.entries[p.2]? = some p.1 ∧
    p.1.subject ∈ subjects ∧ p.1.id = id ∧ (p.1.validToMs ≠ 0 ∨ p.2 ∈ losers f.entries)
  purged : r.purged = (f.entries.filter fun e => e.validToMs ≠ 0 ∧ e.subject ∈ subjects).length
  deduped : r.deduped = ((losers f.entries).filter fun i => (spoAt f.entries i).1 ∈ subjects).card

/-- The selection, one subject after the other. -/
lemma Aligned.select (h : f.Aligned) {subjects : List String} (hnodup : subjects.Nodup)
    (hs : ∀ s ∈ subjects, f.Unambiguous s) : f.SelectedAll subjects (f.select subjects) := by
  induction subjects using List.reverseRecOn with
  | nil => exact ⟨fun _ => by simp [Facts.select], by simp [Facts.select], by simp [Facts.select]⟩
  | append_singleton l s ih =>
    have hmem : s ∈ l ++ [s] := List.mem_concat_self
    have hnew : s ∉ l := fun hsl => (List.nodup_append.mp hnodup).2.2 s hsl s (by simp) rfl
    obtain ⟨hremoved, hpurged, hdeduped⟩ := ih (List.nodup_append.mp hnodup).1
      (List.forall_mem_append.mp hs).1
    have hunamb := hs s hmem
    have hids : ((f.subjectIdx s).map (·.1.id)).Nodup := by
      have hnd : (f.subjectIdx s).Nodup := by
        refine List.Nodup.of_map Prod.snd (List.Nodup.sublist (List.filter_sublist.map _) ?_)
        rw [List.zipIdx_map_snd]
        exact List.nodup_range'
      exact hnd.map_on fun p hp q hq heq => h.eq_of_id hunamb hq (mem_subjectIdx.mp hp).1 heq
    have hpos : ((f.subjectIdx s).map Prod.snd).Nodup := by
      refine List.Nodup.sublist (List.filter_sublist.map _) ?_
      rw [List.zipIdx_map_snd]
      exact List.nodup_range'
    have hfresh : ∀ p ∈ f.subjectIdx s, p.1.id ∉ (f.select l).removed := by
      intro p hp hmem
      obtain ⟨q, hq, hsubject, hid, -⟩ := (hremoved _).mp hmem
      obtain rfl := h.eq_of_id hunamb hp hq hid
      exact hnew ((mem_subjectIdx.mp hp).2 ▸ hsubject)
    have hsel := selected_foldl (f := f) (fun p hp => mem_subjectIdx.mp hp) hpos hids hfresh
    have hstep : f.select (l ++ [s]) =
        (((f.subjectIdx s).map Prod.snd).foldl f.selectAt (f.select l, fun _ => none)).1 := by
      rw [Facts.select, List.foldl_append]
      simp only [List.foldl_cons, List.foldl_nil, selectSubject, h.positions hunamb]
      rfl
    have hlosers := f.losers_subject s
    rw [hstep]
    refine ⟨fun id => ?_, ?_, ?_⟩
    · rw [hsel.removed, hremoved, hlosers]
      constructor
      · rintro (⟨p, hp, hsubject, hid, hrest⟩ | ⟨p, hp, hid, hrest⟩)
        · exact ⟨p, hp, List.mem_append_left _ hsubject, hid, hrest⟩
        · obtain ⟨hentry, hsubject⟩ := mem_subjectIdx.mp hp
          exact ⟨p, hentry, hsubject ▸ hmem, hid, hrest.imp_right fun hm => (Finset.mem_filter.mp hm).1⟩
      · rintro ⟨p, hp, hsubject, hid, hrest⟩
        rcases List.mem_append.mp hsubject with hsubject | hsubject
        · exact Or.inl ⟨p, hp, hsubject, hid, hrest⟩
        · have heq := List.mem_singleton.mp hsubject
          refine Or.inr ⟨p, mem_subjectIdx.mpr ⟨hp, heq⟩, hid, hrest.imp_right fun hm => ?_⟩
          exact Finset.mem_filter.mpr ⟨hm, by simpa [spoAt, hp, TripletEntry.spo] using heq⟩
    · have hcount : ((f.subjectIdx s).filter (·.1.validToMs ≠ 0)).length =
          (f.entries.filter fun e => e.validToMs ≠ 0 ∧ e.subject = s).length := by
        have hmap := List.filter_map (f := Prod.fst) (l := f.entries.zipIdx)
          (p := fun e : TripletEntry F => decide (e.validToMs ≠ 0 ∧ e.subject = s))
        rw [List.zipIdx_map_fst] at hmap
        rw [hmap, List.length_map, subjectIdx, List.filter_filter]
        simp [Function.comp_def]
      have hor := Lists.length_filter_or f.entries
        (p := fun e => decide (e.validToMs ≠ 0 ∧ e.subject ∈ l))
        (q := fun e => decide (e.validToMs ≠ 0 ∧ e.subject = s)) fun e _ he => by
          simp only [decide_eq_true_eq, decide_eq_false_iff_not] at he ⊢
          exact fun hes => hnew (hes.2 ▸ he.2)
      rw [hsel.purged, hpurged, hcount, ← hor]
      refine congrArg List.length (List.filter_congr fun e _ => ?_)
      simp only [List.mem_append, List.mem_singleton, and_or_left, Bool.decide_or]
    · rw [hsel.deduped, hdeduped, hlosers, ← Finset.card_union_of_disjoint, ← Finset.filter_or]
      · refine congrArg Finset.card (Finset.filter_congr fun i _ => ?_)
        simp only [List.mem_append, List.mem_singleton]
      · exact Finset.disjoint_filter.mpr fun i _ hl hs => hnew (hs ▸ hl)

end Facts

/-! ## Tidy subjects -/

omit [F32 F] in
/-- The triplets of a subject are valid and different. -/
structure TidyAt (entries : List (TripletEntry F)) (subject : String) : Prop where
  valid : ∀ e ∈ entries, e.subject = subject → e.validToMs = 0
  nodup : ((entries.filter (·.subject = subject)).map TripletEntry.spo).Nodup

/-- A tidy subject has no losers. -/
lemma TidyAt.ne_of_mem_losers {subject : String} (h : TidyAt entries subject) {i : ℕ}
    (hi : i ∈ losers entries) : (spoAt entries i).1 ≠ subject := by
  intro heq
  have hmap : ((((liveIdx entries).map Prod.snd).filter
      fun i => decide ((spoAt entries i).1 = subject)).map (spoAt entries)).Nodup := by
    have hspo : ∀ p ∈ liveIdx entries, spoAt entries p.2 = p.1.spo := fun p hp => by
      simp [spoAt, (mem_liveIdx.mp hp).1]
    have hsub : (((liveIdx entries).filter fun p => decide (p.1.subject = subject)).map
        fun p => p.1.spo).Nodup := by
      have hfst : ((liveIdx entries).filter fun p => decide (p.1.subject = subject)).map Prod.fst =
          (entries.filter (·.validToMs = 0)).filter (·.subject = subject) := by
        rw [← map_fst_liveIdx, List.filter_map]
        rfl
      have hle : (((liveIdx entries).filter fun p => decide (p.1.subject = subject)).map
          Prod.fst).Sublist (entries.filter (·.subject = subject)) := by
        rw [hfst]
        exact List.filter_sublist.filter _
      have := h.nodup.sublist (hle.map TripletEntry.spo)
      rwa [List.map_map] at this
    rw [List.filter_map, List.map_map]
    convert hsub using 1
    refine (List.map_congr_left fun p hp => hspo p (List.mem_filter.mp hp).1).trans ?_
    refine congrArg _ (List.filter_congr fun p hp => ?_)
    simp only [Function.comp_apply, hspo p hp, TripletEntry.spo]
  have hfilter := (contests_filter (spoAt entries) (heavier entries)
    (fun k => decide (k.1 = subject)) ((liveIdx entries).map Prod.snd)).2
  rw [losers_of_nodup hmap] at hfilter
  have hmem : i ∈ (∅ : Finset ℕ) := by
    rw [hfilter]
    exact Finset.mem_filter.mpr ⟨hi, decide_eq_true heq⟩
  exact absurd hmem (Finset.notMem_empty i)

/-- Behind a full cleaning all subjects are tidy. -/
lemma tidyAt_cleaned (entries : List (TripletEntry F)) (subject : String) :
    TidyAt (cleaned entries) subject := by
  refine ⟨fun e he _ => ?_, ?_⟩
  · simpa using (List.mem_filter.mp ((TripletStore.cleaned_sublist entries).subset he)).2
  · have hspo : (cleaned entries).map TripletEntry.spo =
        (((liveIdx entries).map Prod.snd).filter (· ∉ losers entries)).map (spoAt entries) := by
      rw [cleaned, List.filter_map, List.map_map, List.map_map]
      refine List.map_congr_left fun p hp => ?_
      simp [spoAt, (mem_liveIdx.mp (List.mem_filter.mp hp).1).1]
    have hnodup : ((cleaned entries).map TripletEntry.spo).Nodup := by
      rw [hspo]
      exact nodup_survivors (nodup_liveIdx entries)
    exact hnodup.sublist (List.filter_sublist.map _)

/-- All triplets that a cleaning removes are of some subjects. -/
def Covered (entries : List (TripletEntry F)) (subjects : Finset String) : Prop :=
  ∀ s ∉ subjects, TidyAt entries s

omit [F32 F] in
lemma Covered.of_invalid {subjects : Finset String} (h : Covered entries subjects)
    {e : TripletEntry F} (he : e ∈ entries) (hinvalid : e.validToMs ≠ 0) : e.subject ∈ subjects := by
  by_contra hs
  exact hinvalid ((h _ hs).valid e he rfl)

lemma Covered.of_loser {subjects : Finset String} (h : Covered entries subjects) {i : ℕ}
    (hi : i ∈ losers entries) : (spoAt entries i).1 ∈ subjects := by
  by_contra hs
  exact (h _ hs).ne_of_mem_losers hi rfl

lemma Covered.subject_mem {subjects : Finset String} (h : Covered entries subjects)
    {p : TripletEntry F × ℕ} (hp : entries[p.2]? = some p.1)
    (hgoes : p.1.validToMs ≠ 0 ∨ p.2 ∈ losers entries) : p.1.subject ∈ subjects := by
  rcases hgoes with hinvalid | hloser
  · exact h.of_invalid (List.mem_of_getElem? hp) hinvalid
  · simpa [spoAt, hp, TripletEntry.spo] using h.of_loser hloser

/-! ## Removal and rebuild -/

variable {removed : Finset ℕ}

section Removal

omit [F32 F]

/-- A position of every id that is there, by the last triplet that has it. -/
lemma foldl_modifyAt_zipIdx (l : List (TripletEntry F)) (m : ℕ → Option ℕ)
    (h : ∀ e ∈ l, (m e.id).isSome = true) (id : ℕ) :
    l.zipIdx.foldl (fun m p => Maps.modifyAt m p.1.id fun _ => p.2) m id =
      if id ∈ l.map (·.id) then (identity l).1 id else m id := by
  induction l using List.reverseRecOn with
  | nil => simp
  | append_singleton l e ih =>
    have hsome := h e List.mem_concat_self
    rw [List.zipIdx_append, List.foldl_append, identity_append]
    simp only [List.zipIdx_cons, List.zipIdx_nil, List.foldl_cons, List.foldl_nil, zero_add,
      List.map_append, List.map_cons, List.map_nil, List.mem_append, List.mem_singleton]
    have ih' := ih (List.forall_mem_append.mp h).1
    by_cases hid : id = e.id
    · subst hid
      have hgot : (l.zipIdx.foldl (fun m p => Maps.modifyAt m p.1.id fun _ => p.2) m e.id).isSome =
          true := by
        rw [ih']
        split_ifs with hmem
        · exact isSome_identity.mpr hmem
        · exact hsome
      obtain ⟨n, hn⟩ := Option.isSome_iff_exists.mp hgot
      rw [Maps.modifyAt_self, hn]
      simp [noteIdentity]
    · rw [Maps.modifyAt_of_ne hid, ih']
      simp [noteIdentity, hid]

/-- An id is noted as repeated if two triplets have it. -/
lemma mem_identity {l : List (TripletEntry F)} {id : ℕ} :
    id ∈ (identity l).2 ↔ 2 ≤ (l.map (·.id)).count id := by
  induction l using List.reverseRecOn with
  | nil => simp [identity]
  | append_singleton l e ih =>
    have hcount : ((identity l).1 e.id).isSome = true ↔ 1 ≤ (l.map (·.id)).count e.id := by
      rw [isSome_identity, Nat.one_le_iff_ne_zero, ← Nat.pos_iff_ne_zero, List.count_pos_iff]
    rw [identity_append, noteIdentity, List.map_append, List.count_append, List.map_singleton]
    by_cases hid : id = e.id
    · subst hid
      rw [List.count_singleton_self]
      split_ifs with hseen
      · have := hcount.mp hseen
        simp only [Finset.mem_insert_self, true_iff]
        omega
      · have hzero : (l.map (·.id)).count e.id = 0 := by
          by_contra hne
          exact hseen (hcount.mpr (Nat.one_le_iff_ne_zero.mpr hne))
        rw [ih]
        omega
    · have hzero : [e.id].count id = 0 := by simp [Ne.symm hid]
      rw [hzero, Nat.add_zero, ← ih]
      split_ifs <;> simp [hid]

/-- The postings that are left are those of the triplets that are left. -/
lemma retainPostings_postings {pick : TripletEntry F → String} {keys : Finset String}
    (h : ∀ e ∈ entries, e.id ∈ removed → pick e ∈ keys) :
    retainPostings (postings pick entries) keys removed =
      postings pick (entries.filter (·.id ∉ removed)) := by
  funext key
  have hfilter : ((entries.filter (pick · = key)).map (·.id)).filter (· ∉ removed) =
      ((entries.filter (·.id ∉ removed)).filter (pick · = key)).map (·.id) := by
    rw [List.filter_map, List.filter_filter, List.filter_filter]
    refine congrArg _ (List.filter_congr fun e _ => ?_)
    simp [Bool.and_comm]
  unfold retainPostings
  rw [postings_apply, postings_apply]
  split_ifs with hkey
  · rw [← hfilter]
    generalize (entries.filter (pick · = key)).map (·.id) = ids
    by_cases hnil : ids = []
    · simp [Option.guard, hnil]
    · simp [Option.guard, Option.filter, hnil]
  · have hsame : (entries.filter (·.id ∉ removed)).filter (pick · = key) =
        entries.filter (pick · = key) := by
      rw [List.filter_filter]
      refine List.filter_congr fun e he => ?_
      by_cases hp : pick e = key
      · have hnot : e.id ∉ removed := fun hmem => hkey (hp ▸ h e he hmem)
        simp [hp, hnot]
      · simp [hp]
    rw [hsame]

/-- Every id that is removed is that of one triplet, and this is of one of the subjects. -/
def Facts.RemovesOne (f : Facts F) (subjects : Finset String) (removed : Finset ℕ) : Prop :=
  ∀ id ∈ removed, ∃ p : TripletEntry F × ℕ, f.entries[p.2]? = some p.1 ∧ p.1.id = id ∧
    p.1.subject ∈ subjects ∧ id ∉ (identity f.entries).2

/-- A removal is a rebuild of the indexes, but for the ids that are noted as repeated. -/
lemma Facts.Aligned.remove {f : Facts F} (h : f.Aligned) {subjects : Finset String}
    (hone : f.RemovesOne subjects removed) : f.remove subjects removed =
      { { f with entries := f.entries.filter (·.id ∉ removed) }.rebuildIndexes with
        duplicateIds := f.duplicateIds } := by
  have hpick : ∀ e ∈ f.entries, e.id ∈ removed → e.subject ∈ subjects ∧ f.entryById e.id = some e := by
    intro e he hmem
    obtain ⟨p, hp, hid, hsubject, hunique⟩ := hone e.id hmem
    rw [← hid] at hunique
    obtain ⟨hidx, hall⟩ := identity_of_unique hp hunique
    obtain ⟨j, hj⟩ := List.mem_iff_getElem?.mp he
    have hpos := hall j e hj hid.symm
    rw [hpos, hp] at hj
    obtain rfl := Option.some.inj hj
    exact ⟨hsubject, by rw [Facts.entryById, h.idToIndex, hidx, Option.bind_some, hp]⟩
  have hgone : ∀ pick : TripletEntry F → String, ∀ e ∈ f.entries, e.id ∈ removed →
      pick e ∈ removed.biUnion fun id => (f.entryById id).elim ∅ fun e => {pick e} := by
    intro pick e he hmem
    refine Finset.mem_biUnion.mpr ⟨e.id, hmem, ?_⟩
    rw [(hpick e he hmem).2]
    exact Finset.mem_singleton_self _
  have hidx : ((f.entries.filter (·.id ∉ removed)).zipIdx.foldl
      (fun m p => Maps.modifyAt m p.1.id fun _ => p.2)
        fun id => if id ∈ removed then none else f.idToIndex id) =
          (identity (f.entries.filter (·.id ∉ removed))).1 := by
    funext id
    rw [foldl_modifyAt_zipIdx]
    · split_ifs with hmem hrem
      · rfl
      · exact (Option.not_isSome_iff_eq_none.mp (isSome_identity.not.mpr hmem)).symm
      · rw [h.idToIndex]
        have hnone : id ∉ f.entries.map (·.id) := by
          intro hid
          obtain ⟨e, he, rfl⟩ := List.mem_map.mp hid
          exact hmem (List.mem_map_of_mem (List.mem_filter.mpr ⟨he, decide_eq_true hrem⟩))
        rw [Option.not_isSome_iff_eq_none.mp (isSome_identity.not.mpr hnone),
          Option.not_isSome_iff_eq_none.mp (isSome_identity.not.mpr hmem)]
    · intro e he
      obtain ⟨hmem, hnot⟩ := List.mem_filter.mp he
      rw [if_neg (of_decide_eq_true hnot), h.idToIndex]
      exact isSome_identity.mpr (List.mem_map_of_mem hmem)
  have hsub := retainPostings_postings fun e he hmem => (hpick e he hmem).1
  have hobj := retainPostings_postings (hgone (·.object))
  have hpred := retainPostings_postings (hgone (·.predicate))
  rw [← h.bySubject] at hsub
  rw [← h.byObject] at hobj
  rw [← h.byPredicate] at hpred
  simp only [Facts.remove, Facts.rebuildIndexes, hidx, hsub, hobj, hpred]

end Removal

/-! ## Both ways to clean -/

/-- The order in which a hash set is walked: every element once. -/
structure SubjectWalk extends SubjectOrder where
  nodup : ∀ subjects, (walk subjects).Nodup

lemma SubjectOrder.mem_walk (order : SubjectOrder) {subjects : Finset String} {s : String} :
    s ∈ order.walk subjects ↔ s ∈ subjects := by
  rw [← List.mem_toFinset, order.complete]

/-- Two cleanings come to the same triplets, indexes, ingestion times and numbers. -/
structure SameCleaning (a b : TripletStore F × ℕ × ℕ) : Prop where
  entries : a.1.entries = b.1.entries
  idToIndex : a.1.idToIndex = b.1.idToIndex
  bySubject : a.1.bySubject = b.1.bySubject
  byObject : a.1.byObject = b.1.byObject
  byPredicate : a.1.byPredicate = b.1.byPredicate
  ingestionTimes : a.1.ingestionTimes = b.1.ingestionTimes
  counts : a.2 = b.2

omit [F32 F] in
lemma SameCleaning.refl (a : TripletStore F × ℕ × ℕ) : SameCleaning a a :=
  ⟨rfl, rfl, rfl, rfl, rfl, rfl, rfl⟩

omit [F32 F] in
lemma SameCleaning.trans {a b c : TripletStore F × ℕ × ℕ} (h : SameCleaning a b)
    (h' : SameCleaning b c) : SameCleaning a c :=
  ⟨h.1.trans h'.1, h.2.trans h'.2, h.3.trans h'.3, h.4.trans h'.4, h.5.trans h'.5, h.6.trans h'.6,
    h.7.trans h'.7⟩

namespace TripletStore

/-- Purge and dedup everything: the full scan. -/
def fullScan (t : TripletStore F) : TripletStore F × ℕ × ℕ :=
  let purged := t.purgeInvalidated
  let deduped := purged.1.dedupEntries
  ({ deduped.1 with clean := true }, purged.2, deduped.2)

variable {t : TripletStore F} {subjects : Finset String}

/-- What is selected when the subjects cover all that a full scan removes. -/
lemma selectedAll_covered (order : SubjectWalk) (h : t.toFacts.Aligned)
    (hs : ∀ s ∈ subjects, t.toFacts.Unambiguous s) (hcov : Covered t.entries subjects) :
    let r := t.toFacts.select (order.walk subjects)
    (∀ id, id ∈ r.removed ↔ ∃ p : TripletEntry F × ℕ, t.entries[p.2]? = some p.1 ∧
        p.1.subject ∈ subjects ∧ p.1.id = id ∧ (p.1.validToMs ≠ 0 ∨ p.2 ∈ losers t.entries)) ∧
      r.purged = (t.entries.filter (·.validToMs ≠ 0)).length ∧
      r.deduped = (losers t.entries).card := by
  have hsel := h.select (order.nodup subjects) fun s hsw => hs s (order.mem_walk.mp hsw)
  refine ⟨fun id => ?_, ?_, ?_⟩
  · rw [hsel.removed]
    simp only [order.mem_walk]
  · rw [hsel.purged]
    refine congrArg List.length (List.filter_congr fun e he => ?_)
    by_cases hinvalid : e.validToMs = 0
    · simp [hinvalid]
    · simp [hinvalid, order.mem_walk, hcov.of_invalid he hinvalid]
  · rw [hsel.deduped, Finset.filter_true_of_mem fun i hi => order.mem_walk.mpr (hcov.of_loser hi)]

/-- The triplets that are left are those that a full scan leaves. -/
lemma filter_removed (h : t.toFacts.Aligned) (hs : ∀ s ∈ subjects, t.toFacts.Unambiguous s)
    (hcov : Covered t.entries subjects)
    (hremoved : ∀ id, id ∈ removed ↔ ∃ p : TripletEntry F × ℕ, t.entries[p.2]? = some p.1 ∧
      p.1.subject ∈ subjects ∧ p.1.id = id ∧ (p.1.validToMs ≠ 0 ∨ p.2 ∈ losers t.entries)) :
    t.entries.filter (·.id ∉ removed) = cleaned t.entries := by
  have hmap := List.filter_map (f := Prod.fst) (l := t.entries.zipIdx)
    (p := fun e : TripletEntry F => decide (e.id ∉ removed))
  rw [List.zipIdx_map_fst] at hmap
  rw [hmap, cleaned, liveIdx, List.filter_filter]
  refine congrArg _ (List.filter_congr fun p hp => ?_)
  have hentry : t.entries[p.2]? = some p.1 := List.mem_zipIdx_iff_getElem?.mp hp
  have hiff : p.1.id ∈ removed ↔ p.1.validToMs ≠ 0 ∨ p.2 ∈ losers t.entries := by
    rw [hremoved]
    constructor
    · rintro ⟨q, hq, hsubject, hid, hrest⟩
      obtain rfl := h.eq_of_id (hs _ hsubject) (Facts.mem_subjectIdx.mpr ⟨hq, rfl⟩) hentry hid.symm
      exact hrest
    · intro hrest
      exact ⟨p, hentry, hcov.subject_mem hentry hrest, rfl, hrest⟩
  simp only [Function.comp_apply, hiff, not_or, not_not, Bool.decide_and, Bool.and_comm]

/-- Every id that is selected is that of one triplet. -/
lemma removesOne_covered (order : SubjectWalk) (h : t.toFacts.Aligned)
    (hs : ∀ s ∈ subjects, t.toFacts.Unambiguous s) (hcov : Covered t.entries subjects) :
    t.toFacts.RemovesOne subjects (t.toFacts.select (order.walk subjects)).removed := by
  intro id hid
  obtain ⟨p, hp, hsubject, rfl, -⟩ := ((selectedAll_covered order h hs hcov).1 id).mp hid
  exact ⟨p, hp, rfl, hsubject, h.unique (hs _ hsubject) (Facts.mem_subjectIdx.mpr ⟨hp, rfl⟩)⟩

/-- Cleaning subjects that cover all that a full scan removes is a full scan. -/
theorem cleanSubjects_eq_fullScan (order : SubjectWalk) (h : t.toFacts.Aligned)
    (hs : ∀ s ∈ subjects, t.toFacts.Unambiguous s) (hcov : Covered t.entries subjects) :
    SameCleaning (cleanSubjects order.toSubjectOrder t subjects) t.fullScan := by
  obtain ⟨hremoved, hpurged, hdeduped⟩ := selectedAll_covered order h hs hcov
  obtain ⟨hcount, hcard, hresult⟩ := t.dedupEntries_purgeInvalidated
  have hcleaned := filter_removed h hs hcov hremoved
  have hone := removesOne_covered order h hs hcov
  have hempty : (t.toFacts.select (order.walk subjects)).removed = ∅ ↔
      t.purgeInvalidated.2 = 0 ∧ (losers t.entries).card = 0 := by
    constructor
    · intro hnone
      have hstays : ∀ p : TripletEntry F × ℕ, t.entries[p.2]? = some p.1 →
          ¬(p.1.validToMs ≠ 0 ∨ p.2 ∈ losers t.entries) := by
        intro p hp hgoes
        have hmem := (hremoved p.1.id).mpr ⟨p, hp, hcov.subject_mem hp hgoes, rfl, hgoes⟩
        rw [hnone] at hmem
        exact absurd hmem (Finset.notMem_empty _)
      constructor
      · rw [hcount, List.length_eq_zero_iff, List.filter_eq_nil_iff]
        intro e he hinvalid
        obtain ⟨j, hj⟩ := List.mem_iff_getElem?.mp he
        exact hstays (e, j) hj (Or.inl (of_decide_eq_true hinvalid))
      · refine Finset.card_eq_zero.mpr (Finset.eq_empty_of_forall_notMem fun i hi => ?_)
        obtain ⟨p, hp, rfl⟩ := List.mem_map.mp (losers_subset hi)
        exact hstays p (mem_liveIdx.mp hp).1 (Or.inr hi)
    · rintro ⟨hvalid, hbest⟩
      refine Finset.eq_empty_of_forall_notMem fun id hid => ?_
      obtain ⟨p, hp, -, -, hinvalid | hloser⟩ := (hremoved id).mp hid
      · rw [hcount, List.length_eq_zero_iff, List.filter_eq_nil_iff] at hvalid
        exact hvalid p.1 (List.mem_of_getElem? hp) (decide_eq_true hinvalid)
      · rw [Finset.card_eq_zero.mp hbest] at hloser
        exact absurd hloser (Finset.notMem_empty _)
  have hcounts : (cleanSubjects order.toSubjectOrder t subjects).2 = t.fullScan.2 :=
    Prod.ext (hpurged.trans hcount.symm) (hdeduped.trans hcard.symm)
  by_cases hnone : (t.toFacts.select (order.walk subjects)).removed = ∅
  · have hleft : (cleanSubjects order.toSubjectOrder t subjects).1 = { t with clean := true } := by
      simp only [cleanSubjects, hnone, if_true]
    have hright : t.fullScan.1 = { t with clean := true } := by
      rw [fullScan, hresult, if_pos (hempty.mp hnone)]
    constructor <;> first | rw [hleft, hright] | exact hcounts
  · have hleft : (cleanSubjects order.toSubjectOrder t subjects).1 =
        { { t with
            toFacts := t.toFacts.remove subjects (t.toFacts.select (order.walk subjects)).removed
            ingestionTimes := fun id =>
              if id ∈ (t.toFacts.select (order.walk subjects)).removed then none
              else t.ingestionTimes id }.retainIngested with clean := true } := by
      simp only [cleanSubjects, hnone, if_false]
    have hright : t.fullScan.1 = { t.rebuiltWith (cleaned t.entries) with clean := true } := by
      rw [fullScan, hresult, if_neg fun hz => hnone (hempty.mpr hz)]
    have htimes : (fun id => if ((identity (cleaned t.entries)).1 id).isSome = true then
        (if id ∈ (t.toFacts.select (order.walk subjects)).removed then none
          else t.ingestionTimes id) else none) =
        fun id => if ((identity (cleaned t.entries)).1 id).isSome = true then t.ingestionTimes id
          else none := by
      funext id
      split_ifs with hsome hid
      · obtain ⟨e, he, rfl⟩ := List.mem_map.mp (isSome_identity.mp hsome)
        rw [← hcleaned] at he
        exact absurd hid (of_decide_eq_true (List.mem_filter.mp he).2)
      · rfl
      · rfl
    rw [h.remove hone, hcleaned] at hleft
    refine ⟨?_, ?_, ?_, ?_, ?_, ?_, hcounts⟩ <;> rw [hleft, hright]
    · rfl
    · rfl
    · rfl
    · rfl
    · rfl
    · exact htimes

end TripletStore

end ChittaField
