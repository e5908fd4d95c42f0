import ChittaField.Lib.Exits
import ChittaField.Lib.HashMaps

/-!
# Themes

A theme is a set of memories of a realm with a centroid.  Orphans are put to the theme that is most
like them, or to a new one.  Maintenance splits large themes in two and merges themes that are alike.

Putting orphans to themes keeps the themes: nobody is lost, and no memory comes to two themes.

Embeddings and what is computed from them are parameters.
-/

namespace ChittaField

open HashMaps Exits

/-- Embeddings with what is computed from them. -/
structure Likeness (E F : Type) where
  cosineSim : E → E → F
  isEmpty : E → Bool
  mean : List E → E
  ge : F → F → Bool
  /-- A similarity calls for a merge. -/
  alike : F → Bool
  /-- A comparison in which the first is the greater one. -/
  greater : F → F → Bool
  one : F
  average : List F → ℕ → F

structure ThemeRecord (E F : Type) where
  themeId : ℕ
  name : String
  centroid : E
  realm : String
  coherence : F
  memberIds : Finset ℕ
  createdAt : ℤ

structure ThemeMaintenanceResult where
  themesSplit : ℕ
  themesMerged : ℕ
  memoriesReassigned : ℕ

/-- The themes by their numbers, which are below the next one. -/
@[ext]
structure ThemeOrgan (E F : Type) where
  themes : Finmap fun _ : ℕ => ThemeRecord E F
  nextId : ℕ
  numbered : ∀ id t, themes.lookup id = some t → t.themeId = id ∧ id < nextId

/-- The orders in which the maps and sets of a call are walked. -/
structure WalkOrders where
  candidates : KeyOrder ℕ
  members : ℕ → KeyOrder ℕ
  themes : KeyOrder ℕ

namespace ThemeOrgan

variable {E F : Type}

def new : ThemeOrgan E F := ⟨∅, 0, fun id t h => by rw [Finmap.lookup_empty] at h; cases h⟩

/-- Put a theme to its number. -/
def put (o : ThemeOrgan E F) (t : ThemeRecord E F) : ThemeOrgan E F where
  themes := o.themes.insert t.themeId t
  nextId := max o.nextId (t.themeId + 1)
  numbered id t' h := by
    by_cases hid : id = t.themeId
    · subst hid
      rw [Finmap.lookup_insert] at h
      obtain rfl := Option.some.inj h
      exact ⟨rfl, by omega⟩
    · rw [Finmap.lookup_insert_of_ne _ hid] at h
      obtain ⟨heq, hlt⟩ := o.numbered id t' h
      exact ⟨heq, by omega⟩

/-- Remove the themes of some numbers. -/
def removeAll (o : ThemeOrgan E F) (ids : List ℕ) : ThemeOrgan E F where
  themes := eraseAll o.themes ids
  nextId := o.nextId
  numbered id t h := o.numbered id t (by
    rw [lookup_eraseAll] at h
    split_ifs at h
    exact h)

section Code

variable (L : Likeness E F) (embeddings : ℕ → Option E)

/-- A new theme with a number that is free. -/
def fresh (o : ThemeOrgan E F) (centroid : E) (realm : String) (coherence : F) (memberIds : Finset ℕ) :
    ThemeRecord E F :=
  ⟨o.nextId, "theme_" ++ toString o.nextId, centroid, realm, coherence, memberIds, 0⟩

/-- The mean of embeddings that are there. -/
def meanEmbedding (ids : List ℕ) : E := L.mean (ids.filterMap embeddings)

/-- How alike the members are to a centroid. -/
def coherenceOf (ids : List ℕ) (count : ℕ) (centroid : E) : F :=
  if count < 3 then L.one
  else L.average ((ids.filterMap embeddings).map fun e => L.cosineSim e centroid) count

/-! ### Orphans -/

/-- The theme of a realm that is most like an embedding; the last of equal ones. -/
def bestTheme (order : KeyOrder ℕ) (o : ThemeOrgan E F) (realm : String) (emb : E) : Option (ℕ × F) :=
  ((((entries order o.themes).map (·.2)).filter fun t => realm = "" ∨ t.realm = realm).filter
    fun t => !L.isEmpty t.centroid).foldl (fun best t =>
      let x := (t.themeId, L.cosineSim emb t.centroid)
      match best with
      | none => some x
      | some y => if L.greater y.2 x.2 then some y else some x) none

/-- Put an orphan to a theme; whether it was put to one. -/
def assignOrphan (order : KeyOrder ℕ) (realm : String) (assignmentThreshold : F) (o : ThemeOrgan E F)
    (memId : ℕ) : ThemeOrgan E F × Bool :=
  match (embeddings memId).filter (!L.isEmpty ·) with
  | none => (o, false)
  | some emb =>
    match (bestTheme L order o realm emb).filter fun best => L.ge best.2 assignmentThreshold with
    | some (bestId, _) =>
      match o.themes.lookup bestId with
      | none => (o, true)
      | some t => (o.put { t with memberIds := insert memId t.memberIds }, true)
    | none => (o.put (o.fresh emb realm L.one {memId}), true)

/-- Put a batch of the orphans to themes; how many were, and how many are left. -/
def assignOrphans (order : KeyOrder ℕ) (o : ThemeOrgan E F) (allMemoryIds : List ℕ) (realm : String)
    (batchSize : ℕ) (assignmentThreshold : F) : ThemeOrgan E F × ℕ × ℕ :=
  let orphans := allMemoryIds.filter fun id => !(entries order o.themes).any fun e => id ∈ e.2.memberIds
  let batch := orphans.take batchSize
  let out := batch.foldl (fun acc memId =>
    let (o, assigned) := assignOrphan L embeddings order realm assignmentThreshold acc.1 memId
    (o, if assigned then acc.2 + 1 else acc.2)) (o, 0)
  (out.1, out.2, orphans.length - batch.length)

/-! ### Splits -/

/-- The clusters with their centroids. -/
structure Clusters (E : Type) where
  centroidA : E
  centroidB : E
  clusterA : List ℕ
  clusterB : List ℕ

/-- An iteration of the clustering. -/
def iterateClusters (members : List (ℕ × E)) (c : Clusters E) : Clusters E :=
  let near (p : ℕ × E) := L.ge (L.cosineSim p.2 c.centroidA) (L.cosineSim p.2 c.centroidB)
  let a := (members.filter near).map (·.1)
  let b := (members.filter (!near ·)).map (·.1)
  ⟨if a.isEmpty then c.centroidA else meanEmbedding L embeddings a,
    if b.isEmpty then c.centroidB else meanEmbedding L embeddings b, a, b⟩

/-- The members that have embeddings. -/
def withEmbeddings (members : List ℕ) : List (ℕ × E) :=
  members.filterMap fun id => ((embeddings id).filter (!L.isEmpty ·)).map (id, ·)

/-- The clusters that a theme is split into, if it is. -/
def clusters (order : KeyOrder ℕ) (t : ThemeRecord E F) : Option (Clusters E) :=
  if t.memberIds.card ≤ 100 then none
  else
    match withEmbeddings L embeddings (order.list t.memberIds) with
    | p :: q :: rest =>
      let c := (iterateClusters L embeddings (p :: q :: rest))^[5]
        ⟨p.2, ((q :: rest).getLast (List.cons_ne_nil _ _)).2, [], []⟩
      if c.clusterA.isEmpty || c.clusterB.isEmpty then none else some c
    | _ => none

/-- Split a theme, if it is large. -/
def splitTheme (members : ℕ → KeyOrder ℕ) (acc : ThemeOrgan E F × ThemeMaintenanceResult) (themeId : ℕ) :
    ThemeOrgan E F × ThemeMaintenanceResult :=
  match acc.1.themes.lookup themeId with
  | none => acc
  | some t =>
    match clusters L embeddings (members themeId) t with
    | none => acc
    | some c =>
      let o := acc.1.put { t with
        memberIds := c.clusterA.toFinset
        centroid := c.centroidA
        coherence := coherenceOf L embeddings c.clusterA c.clusterA.length c.centroidA }
      (o.put (o.fresh c.centroidB t.realm
          (coherenceOf L embeddings c.clusterB c.clusterB.length c.centroidB) c.clusterB.toFinset),
        { acc.2 with
          themesSplit := acc.2.themesSplit + 1
          memoriesReassigned := acc.2.memoriesReassigned + c.clusterB.length })

/-- Split the themes that are large before. -/
def splitPass (orders : WalkOrders) (o : ThemeOrgan E F) : ThemeOrgan E F × ThemeMaintenanceResult :=
  let candidates := ((entries orders.candidates o.themes).filter fun e => 100 < e.2.memberIds.card).map
    (·.2.themeId)
  candidates.foldl (splitTheme L embeddings orders.members) (o, ⟨0, 0, 0⟩)

/-! ### Merges -/

/-- The state of the merges: the themes, what was counted, and the merged ones, each with the theme
that it went to, the last one first. -/
structure Merging (E F : Type) where
  organ : ThemeOrgan E F
  result : ThemeMaintenanceResult
  merged : List (ℕ × ℕ)

/-- A theme was merged into another one. -/
def Merging.isMerged (s : Merging E F) (id : ℕ) : Bool := id ∈ s.merged.map (·.2)

/-- Two themes that are alike. -/
def alike (o : ThemeOrgan E F) (idA idB : ℕ) : Option (ThemeRecord E F × ThemeRecord E F) :=
  (o.themes.lookup idA).bind fun a => (o.themes.lookup idB).bind fun b =>
    if !L.isEmpty a.centroid && !L.isEmpty b.centroid && L.alike (L.cosineSim a.centroid b.centroid)
    then some (a, b) else none

/-- The centroid and the coherence of a theme anew, if members have embeddings. -/
def recomputed (order : KeyOrder ℕ) (t : ThemeRecord E F) : ThemeRecord E F :=
  let embs := (order.list t.memberIds).filterMap embeddings
  if embs.isEmpty then t
  else { t with
    centroid := L.mean embs
    coherence := if embs.length < 3 then L.one
      else L.average (embs.map fun e => L.cosineSim e (L.mean embs)) embs.length }

/-- Merge what is alike into a theme; an error is the end of all merges. -/
def mergeInto (members : ℕ → KeyOrder ℕ) (total idA : ℕ) (s : Merging E F) (idB : ℕ) :
    Except (Merging E F) (Merging E F) :=
  if s.isMerged idB then .ok s
  else
    match alike L s.organ idA idB with
    | none => .ok s
    | some (a, b) =>
      let s := { s with
        organ := s.organ.put (recomputed L embeddings (members idA)
          { a with memberIds := a.memberIds ∪ b.memberIds })
        merged := (idA, idB) :: s.merged
        result := { s.result with
          themesMerged := s.result.themesMerged + 1
          memoriesReassigned := s.result.memoriesReassigned + b.memberIds.card } }
      if total / 2 ≤ s.merged.length then .error s else .ok s

/-- Go through the themes, each with those behind it. -/
def mergeLoop (members : ℕ → KeyOrder ℕ) (total : ℕ) : List ℕ → Merging E F → Merging E F
  | [], s => s
  | idA :: rest, s =>
    if s.isMerged idA then mergeLoop members total rest s
    else
      match rest.foldlM (mergeInto L embeddings members total idA) s with
      | .error s' => s'
      | .ok s' => mergeLoop members total rest s'

/-- The merges behind the splits. -/
def mergePass (orders : WalkOrders) (o : ThemeOrgan E F) (result : ThemeMaintenanceResult) : Merging E F :=
  mergeLoop L embeddings orders.members (orders.themes.list o.themes.keys).length
    (orders.themes.list o.themes.keys) ⟨o, result, []⟩

/-- Split the large themes and merge those that are alike. -/
def maintain (orders : WalkOrders) (o : ThemeOrgan E F) : ThemeOrgan E F × ThemeMaintenanceResult :=
  let split := splitPass L embeddings orders o
  let s := mergePass L embeddings orders split.1 split.2
  (s.organ.removeAll (s.merged.map (·.2)), s.result)

end Code

/-! ## Members -/

/-- A memory belongs to a theme. -/
def Has (o : ThemeOrgan E F) (id m : ℕ) : Prop := ∃ t, o.themes.lookup id = some t ∧ m ∈ t.memberIds

def realmOf (o : ThemeOrgan E F) (id : ℕ) : Option String := (o.themes.lookup id).map (·.realm)

/-- No memory belongs to two themes. -/
def Once (o : ThemeOrgan E F) : Prop := ∀ id id' m, o.Has id m → o.Has id' m → id = id'

/-- Nobody is lost, no memory belongs to two themes, and no theme has a member that came from a theme
of another realm. -/
structure Kept (o o' : ThemeOrgan E F) : Prop where
  belongs : ∀ id m, o.Has id m → ∃ id', o'.Has id' m
  once : o'.Once
  realm : ∀ id id' m, o.Has id m → o'.Has id' m → o.realmOf id = o'.realmOf id'

variable {o o' : ThemeOrgan E F} {t : ThemeRecord E F} {id m : ℕ}

lemma has_of_lookup (h : o.themes.lookup id = some t) : o.Has id m ↔ m ∈ t.memberIds := by
  constructor
  · rintro ⟨t', ht', hm⟩
    rw [h] at ht'
    exact Option.some.inj ht' ▸ hm
  · exact fun hm => ⟨t, h, hm⟩

lemma not_has_of_lookup (h : o.themes.lookup id = none) : ¬o.Has id m := by
  rintro ⟨t, ht, -⟩
  rw [h] at ht
  cases ht

lemma lookup_put_self : (o.put t).themes.lookup t.themeId = some t := Finmap.lookup_insert _

lemma lookup_put_of_ne (h : id ≠ t.themeId) : (o.put t).themes.lookup id = o.themes.lookup id :=
  Finmap.lookup_insert_of_ne _ h

lemma has_put : (o.put t).Has id m ↔ id = t.themeId ∧ m ∈ t.memberIds ∨ id ≠ t.themeId ∧ o.Has id m := by
  by_cases hid : id = t.themeId
  · rw [hid, has_of_lookup lookup_put_self]
    simp
  · simp [Has, lookup_put_of_ne hid, hid]

lemma realmOf_put_of_ne (h : id ≠ t.themeId) : (o.put t).realmOf id = o.realmOf id := by
  rw [realmOf, lookup_put_of_ne h, realmOf]

lemma realmOf_put_self : (o.put t).realmOf t.themeId = some t.realm := by
  rw [realmOf, lookup_put_self]
  rfl

lemma lookup_nextId (o : ThemeOrgan E F) : o.themes.lookup o.nextId = none := by
  cases h : o.themes.lookup o.nextId with
  | none => rfl
  | some t => exact absurd (o.numbered _ _ h).2 (Nat.lt_irrefl _)

/-! ## Orphans are put to one theme -/

section Orphans

variable (L : Likeness E F) (embeddings : ℕ → Option E)

/-- While orphans are put to themes: whoever belonged to a theme belongs to it alone, and those that are
still to come belong to none. -/
structure Assigning (o₀ o : ThemeOrgan E F) (rest : List ℕ) : Prop where
  themed : ∀ id m, o₀.Has id m → ∀ id', o.Has id' m ↔ o₀.Has id' m
  once : o.Once
  untouched : ∀ m ∈ rest, ∀ id, ¬o.Has id m
  realm : ∀ id, (o₀.themes.lookup id).isSome → o.realmOf id = o₀.realmOf id

variable {L embeddings} {order : KeyOrder ℕ} {realm : String} {threshold : F} {o₀ : ThemeOrgan E F}
  {rest : List ℕ}

lemma isSome_realmOf : (o.realmOf id).isSome = (o.themes.lookup id).isSome := Option.isSome_map

/-- What putting an orphan to a theme does: nothing, or it joins one theme. -/
lemma assignOrphan_spec (o : ThemeOrgan E F) (memId : ℕ) :
    (assignOrphan L embeddings order realm threshold o memId).1 = o ∨
    ∃ target, (∀ id m, (assignOrphan L embeddings order realm threshold o memId).1.Has id m ↔
        o.Has id m ∨ id = target ∧ m = memId) ∧
      ∀ id, (o.themes.lookup id).isSome →
        (assignOrphan L embeddings order realm threshold o memId).1.realmOf id = o.realmOf id := by
  unfold assignOrphan
  cases (embeddings memId).filter (!L.isEmpty ·) with
  | none => exact Or.inl rfl
  | some emb =>
    dsimp only
    cases (bestTheme L order o realm emb).filter fun best => L.ge best.2 threshold with
    | none =>
      refine Or.inr ⟨o.nextId, fun id m => ?_, fun id hsome => realmOf_put_of_ne ?_⟩
      · have hnone := not_has_of_lookup (m := m) (lookup_nextId o)
        rw [has_put]
        dsimp only [fresh]
        rw [Finset.mem_singleton]
        by_cases hid : id = o.nextId
        · rw [hid]
          simp [hnone]
        · simp [hid]
      · rintro rfl
        rw [show (o.fresh emb realm L.one {memId}).themeId = o.nextId from rfl, lookup_nextId] at hsome
        cases hsome
    | some best =>
      obtain ⟨bestId, score⟩ := best
      dsimp only
      cases hbest : o.themes.lookup bestId with
      | none => exact Or.inl rfl
      | some t =>
        obtain ⟨rfl, -⟩ := o.numbered _ _ hbest
        refine Or.inr ⟨t.themeId, fun id m => ?_, fun id hsome => ?_⟩
        · rw [has_put]
          dsimp only
          rw [Finset.mem_insert]
          by_cases hid : id = t.themeId
          · rw [hid, has_of_lookup hbest]
            simp [or_comm]
          · simp [hid]
        · by_cases hid : id = t.themeId
          · have hrealm : o.realmOf t.themeId = some t.realm := by
              rw [realmOf, hbest]
              rfl
            rw [hid, hrealm]
            exact realmOf_put_self
          · exact realmOf_put_of_ne hid

lemma Assigning.step {memId : ℕ} (h : Assigning o₀ o (memId :: rest)) (hnew : ∀ id, ¬o₀.Has id memId)
    (hrest : memId ∉ rest) :
    Assigning o₀ (assignOrphan L embeddings order realm threshold o memId).1 rest := by
  obtain ⟨hhead, htail⟩ := List.forall_mem_cons.mp h.untouched
  rcases @assignOrphan_spec E F L embeddings order realm threshold o memId with hsame | ⟨target, hhas, hrealm⟩
  · rw [hsame]
    exact ⟨h.themed, h.once, htail, h.realm⟩
  · refine ⟨fun id m hm id' => ?_, fun id id' m hid hid' => ?_, fun m hm id hbad => ?_, fun id hid => ?_⟩
    · have hne : m ≠ memId := fun heq => hnew id (heq ▸ hm)
      rw [hhas, h.themed id m hm id', or_iff_left fun hbad => hne hbad.2]
    · rw [hhas] at hid hid'
      rcases hid with hid | ⟨rfl, rfl⟩ <;> rcases hid' with hid' | ⟨hid', hm'⟩
      · exact h.once id id' m hid hid'
      · exact absurd (hm' ▸ hid) (hhead id)
      · exact absurd hid' (hhead id')
      · exact hid'.symm
    · rw [hhas] at hbad
      exact hbad.elim (htail m hm id) fun heq => hrest (heq.2 ▸ hm)
    · rw [hrealm id (by rw [← isSome_realmOf, h.realm id hid, isSome_realmOf]; exact hid)]
      exact h.realm id hid

/-- Putting orphans to themes keeps the themes. -/
lemma kept_assignOrphans (honce : o₀.Once) {allMemoryIds : List ℕ} (hnodup : allMemoryIds.Nodup)
    (batchSize : ℕ) : Kept o₀
      (assignOrphans L embeddings order o₀ allMemoryIds realm batchSize threshold).1 := by
  have hfold : ∀ (batch : List ℕ) (acc : ThemeOrgan E F × ℕ), batch.Nodup →
      (∀ m ∈ batch, ∀ id, ¬o₀.Has id m) → Assigning o₀ acc.1 batch →
      Assigning o₀ (batch.foldl (fun acc memId =>
        ((assignOrphan L embeddings order realm threshold acc.1 memId).1,
          if (assignOrphan L embeddings order realm threshold acc.1 memId).2 then acc.2 + 1
          else acc.2)) acc).1 [] := by
    intro batch
    induction batch with
    | nil => exact fun acc _ _ h => h
    | cons memId batch ih =>
      intro acc hnodup hnew h
      obtain ⟨hnot, hnodup⟩ := List.nodup_cons.mp hnodup
      obtain ⟨hhead, htail⟩ := List.forall_mem_cons.mp hnew
      exact ih _ hnodup htail (h.step hhead hnot)
  have horphan : ∀ m ∈ (allMemoryIds.filter fun id =>
      !(entries order o₀.themes).any fun e => id ∈ e.2.memberIds).take batchSize, ∀ id, ¬o₀.Has id m := by
    rintro m hm id ⟨t, ht, hmember⟩
    have hfilter := (List.mem_filter.mp (List.mem_of_mem_take hm)).2
    have hany : ((entries order o₀.themes).any fun e => m ∈ e.2.memberIds) = true :=
      List.any_eq_true.mpr ⟨(id, t), mem_entries.mpr ht, by simpa using hmember⟩
    rw [hany] at hfilter
    cases hfilter
  obtain ⟨hthemed, honce', -, hrealm⟩ := hfold _ (o₀, 0) ((hnodup.filter _).sublist (List.take_sublist _ _))
    horphan ⟨fun _ _ _ _ => Iff.rfl, honce, horphan, fun _ _ => rfl⟩
  refine ⟨fun id m hm => ⟨id, (hthemed id m hm id).mpr hm⟩, honce', fun id id' m hm hm' => ?_⟩
  have heq : id = id' := honce id id' m hm ((hthemed id m hm id').mp hm')
  subst heq
  obtain ⟨t, ht, -⟩ := hm
  exact (hrealm id (by rw [ht]; rfl)).symm

end Orphans

end ThemeOrgan

end ChittaField
