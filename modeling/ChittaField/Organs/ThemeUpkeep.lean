import Mathlib.Algebra.Order.Ring.Nat
import ChittaField.Organs.Themes

/-!
# The upkeep of themes

A split keeps only the members that have embeddings, and themes are merged whatever their realms.
`themes_kept_iff` says that maintenance loses nobody and mixes no realms exactly where neither makes a
difference.
-/

namespace ChittaField

open HashMaps Exits

namespace ThemeOrgan

variable {E F : Type} {o o' : ThemeOrgan E F} {t : ThemeRecord E F} {id m : ℕ}

/-! ## Splits -/

variable {ids : List ℕ}

section Splits

variable (L : Likeness E F) (embeddings : ℕ → Option E) (members : ℕ → KeyOrder ℕ)

/-- A memory has an embedding that is not empty. -/
def Embedded (m : ℕ) : Prop := ((embeddings m).filter (!L.isEmpty ·)).isSome

/-- A member is dropped: its theme is split, and it has no embedding. -/
def Dropped (o : ThemeOrgan E F) (id m : ℕ) : Prop :=
  ∃ t c, o.themes.lookup id = some t ∧ clusters L embeddings (members id) t = some c ∧
    m ∈ t.memberIds ∧ ¬Embedded L embeddings m

variable {L embeddings members}

lemma mem_map_withEmbeddings : m ∈ (withEmbeddings L embeddings ids).map (·.1) ↔
    m ∈ ids ∧ Embedded L embeddings m := by
  unfold withEmbeddings Embedded
  rw [List.mem_map]
  constructor
  · rintro ⟨p, hp, rfl⟩
    obtain ⟨id, hid, hmap⟩ := List.mem_filterMap.mp hp
    obtain ⟨e, he, rfl⟩ := Option.map_eq_some_iff.mp hmap
    exact ⟨hid, by rw [he]; rfl⟩
  · rintro ⟨hid, hsome⟩
    obtain ⟨e, he⟩ := Option.isSome_iff_exists.mp hsome
    exact ⟨(m, e), List.mem_filterMap.mpr ⟨m, hid, by rw [he]; rfl⟩, rfl⟩

lemma nodup_map_withEmbeddings (h : ids.Nodup) :
    ((withEmbeddings L embeddings ids).map (·.1)).Nodup := by
  unfold withEmbeddings
  rw [List.map_filterMap]
  refine h.filterMap fun x y z hx hy => ?_
  simp only [Option.map_map, Option.mem_def, Option.map_eq_some_iff, Function.comp_apply] at hx hy
  obtain ⟨_, -, rfl⟩ := hx
  exact hy.choose_spec.2.symm

/-- The clusters of an iteration part the members. -/
lemma clusters_iterate {l : List (ℕ × E)} (hnodup : (l.map (·.1)).Nodup) (c : Clusters E) :
    (∀ m, m ∈ (iterateClusters L embeddings l c).clusterA ∨
      m ∈ (iterateClusters L embeddings l c).clusterB ↔ m ∈ l.map (·.1)) ∧
    ∀ m ∈ (iterateClusters L embeddings l c).clusterA, m ∉ (iterateClusters L embeddings l c).clusterB := by
  unfold iterateClusters
  dsimp only
  constructor
  · intro m
    simp only [List.mem_map, List.mem_filter]
    constructor
    · rintro (⟨p, ⟨hp, -⟩, rfl⟩ | ⟨p, ⟨hp, -⟩, rfl⟩) <;> exact ⟨p, hp, rfl⟩
    · rintro ⟨p, hp, rfl⟩
      cases hnear : L.ge (L.cosineSim p.2 c.centroidA) (L.cosineSim p.2 c.centroidB)
      · exact Or.inr ⟨p, ⟨hp, by rw [hnear]; rfl⟩, rfl⟩
      · exact Or.inl ⟨p, ⟨hp, hnear⟩, rfl⟩
  · intro m ha hb
    obtain ⟨p, hp, rfl⟩ := List.mem_map.mp ha
    obtain ⟨q, hq, heq⟩ := List.mem_map.mp hb
    obtain ⟨hp, hnear⟩ := List.mem_filter.mp hp
    obtain ⟨hq, hfar⟩ := List.mem_filter.mp hq
    obtain rfl := List.inj_on_of_nodup_map hnodup hq hp heq
    rw [hnear] at hfar
    cases hfar

/-- A theme that is split is parted, but for the members without embeddings. -/
lemma clusters_spec {order : KeyOrder ℕ} {c : Clusters E}
    (h : clusters L embeddings order t = some c) :
    (∀ m, m ∈ c.clusterA ∨ m ∈ c.clusterB ↔ m ∈ t.memberIds ∧ Embedded L embeddings m) ∧
    ∀ m ∈ c.clusterA, m ∉ c.clusterB := by
  unfold clusters at h
  split_ifs at h
  have hmem : ∀ m, m ∈ (withEmbeddings L embeddings (order.list t.memberIds)).map (·.1) ↔
      m ∈ t.memberIds ∧ Embedded L embeddings m := by
    intro m
    rw [mem_map_withEmbeddings, order.mem]
  have hnodup : ((withEmbeddings L embeddings (order.list t.memberIds)).map (·.1)).Nodup :=
    nodup_map_withEmbeddings (order.nodup _)
  cases hlist : withEmbeddings L embeddings (order.list t.memberIds) with
  | nil =>
    rw [hlist] at h
    cases h
  | cons p rest =>
    cases rest with
    | nil =>
      rw [hlist] at h
      cases h
    | cons q rest =>
      rw [hlist] at h hmem hnodup
      dsimp only at h
      split_ifs at h
      obtain rfl := Option.some.inj h
      rw [Function.iterate_succ_apply']
      obtain ⟨hall, hapart⟩ := @clusters_iterate E F L embeddings _ hnodup
        ((iterateClusters L embeddings (p :: q :: rest))^[4]
          ⟨p.2, ((q :: rest).getLast (List.cons_ne_nil _ _)).2, [], []⟩)
      exact ⟨fun m => (hall m).trans (hmem m), hapart⟩

/-- While themes are split: no memory belongs to two themes, members stay in their realms, and only
members of themes that were split are dropped. -/
structure Splitting (L : Likeness E F) (embeddings : ℕ → Option E) (members : ℕ → KeyOrder ℕ)
    (o₀ o : ThemeOrgan E F) (done rest : List ℕ) : Prop where
  once : o.Once
  origin : ∀ id m, o.Has id m → ∃ id₀, o₀.Has id₀ m ∧ o₀.realmOf id₀ = o.realmOf id
  left : ∀ id m, o₀.Has id m →
    ((∃ id', o.Has id' m) ↔ ¬(id ∈ done ∧ Dropped L embeddings members o₀ id m))
  pending : ∀ id ∈ rest, (o₀.themes.lookup id).isSome ∧ o.themes.lookup id = o₀.themes.lookup id

/-- What a split does: the theme keeps one cluster, and the other goes to a new theme of its realm. -/
lemma splitTheme_spec {result : ThemeMaintenanceResult} {themeId : ℕ} {c : Clusters E}
    (ht : o.themes.lookup themeId = some t)
    (hc : clusters L embeddings (members themeId) t = some c) :
    (∀ id m, (splitTheme L embeddings members (o, result) themeId).1.Has id m ↔
      id = themeId ∧ m ∈ c.clusterA ∨ id = o.nextId ∧ m ∈ c.clusterB ∨ id ≠ themeId ∧ o.Has id m) ∧
    (∀ id, id ≠ themeId → id ≠ o.nextId →
      (splitTheme L embeddings members (o, result) themeId).1.themes.lookup id = o.themes.lookup id) ∧
    (splitTheme L embeddings members (o, result) themeId).1.realmOf themeId = some t.realm ∧
    (splitTheme L embeddings members (o, result) themeId).1.realmOf o.nextId = some t.realm := by
  obtain ⟨rfl, hlt⟩ := o.numbered _ _ ht
  unfold splitTheme
  dsimp only
  rw [ht]
  dsimp only
  rw [hc]
  dsimp only
  generalize hsplit : ({ t with
    memberIds := c.clusterA.toFinset
    centroid := c.centroidA
    coherence := coherenceOf L embeddings c.clusterA c.clusterA.length c.centroidA } : ThemeRecord E F) = t'
  have hid : t'.themeId = t.themeId := by rw [← hsplit]
  have hmembers : t'.memberIds = c.clusterA.toFinset := by rw [← hsplit]
  have hrealm : t'.realm = t.realm := by rw [← hsplit]
  generalize hnew : (o.put t').fresh c.centroidB t.realm
    (coherenceOf L embeddings c.clusterB c.clusterB.length c.centroidB) c.clusterB.toFinset = n
  have hnext : n.themeId = o.nextId := by
    rw [← hnew]
    change max o.nextId (t'.themeId + 1) = o.nextId
    omega
  have hmembersN : n.memberIds = c.clusterB.toFinset := by rw [← hnew]; rfl
  have hrealmN : n.realm = t.realm := by rw [← hnew]; rfl
  refine ⟨fun id m => ?_, fun id hne hne' => ?_, ?_, ?_⟩
  · have hnone := not_has_of_lookup (m := m) (lookup_nextId o)
    rw [has_put, has_put, hnext, hid, hmembers, hmembersN, List.mem_toFinset, List.mem_toFinset]
    by_cases hold : id = t.themeId
    · have hne : t.themeId ≠ o.nextId := by omega
      rw [hold]
      simp [hne]
    · by_cases hfresh : id = o.nextId
      · rw [hfresh]
        have hne : o.nextId ≠ t.themeId := by omega
        simp [hne, hnone]
      · simp [hold, hfresh]
  · rw [lookup_put_of_ne (by rw [hnext]; exact hne'), lookup_put_of_ne (by rw [hid]; exact hne)]
  · rw [realmOf_put_of_ne (by rw [hnext]; omega), ← hid, realmOf_put_self, hrealm]
  · rw [← hnext, realmOf_put_self, hrealmN]

/-- A split keeps what is kept. -/
lemma Splitting.step {o₀ : ThemeOrgan E F} {done rest : List ℕ} {themeId : ℕ}
    {result : ThemeMaintenanceResult} (honce : o₀.Once)
    (h : Splitting L embeddings members o₀ o done (themeId :: rest)) (hnot : themeId ∉ rest) :
    Splitting L embeddings members o₀ (splitTheme L embeddings members (o, result) themeId).1
      (themeId :: done) rest := by
  obtain ⟨⟨hsome, hsame⟩, hpending⟩ := List.forall_mem_cons.mp h.pending
  obtain ⟨t, ht₀⟩ := Option.isSome_iff_exists.mp hsome
  have ht : o.themes.lookup themeId = some t := hsame.trans ht₀
  cases hc : clusters L embeddings (members themeId) t with
  | none =>
    have hskip : (splitTheme L embeddings members (o, result) themeId).1 = o := by
      unfold splitTheme
      dsimp only
      rw [ht]
      dsimp only
      rw [hc]
    rw [hskip]
    refine ⟨h.once, h.origin, fun id m hm => ?_, hpending⟩
    rw [h.left id m hm, List.mem_cons, or_and_right]
    have hnever : ¬(id = themeId ∧ Dropped L embeddings members o₀ id m) := by
      rintro ⟨rfl, t', c, ht', hc', -⟩
      rw [ht₀] at ht'
      obtain rfl := Option.some.inj ht'
      rw [hc] at hc'
      cases hc'
    rw [or_iff_right hnever]
  | some c =>
    obtain ⟨hhas, hlookup, hrealm, hrealm'⟩ :=
      @splitTheme_spec E F o t L embeddings members result themeId c ht hc
    obtain ⟨hparted, hapart⟩ := clusters_spec hc
    have hrealmT : o.realmOf themeId = some t.realm := by
      rw [realmOf, ht]
      rfl
    have hrealmT₀ : o₀.realmOf themeId = some t.realm := by
      rw [realmOf, ht₀]
      rfl
    have hclusters : ∀ m, m ∈ c.clusterA ∨ m ∈ c.clusterB → m ∈ t.memberIds := fun m hm =>
      ((hparted m).mp hm).1
    have hnone : ∀ m, ¬o.Has o.nextId m := fun m => not_has_of_lookup (lookup_nextId o)
    generalize (splitTheme L embeddings members (o, result) themeId).1 = o' at *
    have hother : ∀ id m, m ∈ t.memberIds → id ≠ themeId → ¬o.Has id m := fun id m hm hne hbad =>
      hne (h.once id themeId m hbad ((has_of_lookup ht).mpr hm))
    refine ⟨fun id id' m hid hid' => ?_, fun id m hm => ?_, fun id m hm => ?_, fun id hid => ?_⟩
    · rw [hhas] at hid hid'
      rcases hid with ⟨rfl, ha⟩ | ⟨rfl, hb⟩ | ⟨hne, hold⟩ <;>
        rcases hid' with ⟨hid', ha'⟩ | ⟨hid', hb'⟩ | ⟨hne', hold'⟩
      · exact hid'.symm
      · exact absurd hb' (hapart m ha)
      · exact absurd hold' (hother id' m (hclusters m (Or.inl ha)) hne')
      · exact absurd hb (hapart m ha')
      · exact hid'.symm
      · exact absurd hold' (hother id' m (hclusters m (Or.inr hb)) hne')
      · exact absurd hold (hother id m (hclusters m (Or.inl ha')) hne)
      · exact absurd hold (hother id m (hclusters m (Or.inr hb')) hne)
      · exact h.once id id' m hold hold'
    · rcases (hhas id m).mp hm with ⟨rfl, ha⟩ | ⟨rfl, hb⟩ | ⟨hne, hold⟩
      · exact ⟨id, (has_of_lookup ht₀).mpr (hclusters m (Or.inl ha)), hrealmT₀.trans hrealm.symm⟩
      · exact ⟨themeId, (has_of_lookup ht₀).mpr (hclusters m (Or.inr hb)), hrealmT₀.trans hrealm'.symm⟩
      · obtain ⟨id₀, hhas₀, hrealm₀⟩ := h.origin id m hold
        have hne' : id ≠ o.nextId := fun heq => hnone m (heq ▸ hold)
        refine ⟨id₀, hhas₀, hrealm₀.trans ?_⟩
        rw [realmOf, realmOf, hlookup id hne hne']
    · by_cases hmt : m ∈ t.memberIds
      · obtain rfl := honce id themeId m hm ((has_of_lookup ht₀).mpr hmt)
        have hdropped : Dropped L embeddings members o₀ id m ↔ ¬Embedded L embeddings m := by
          constructor
          · rintro ⟨-, -, -, -, -, hbare⟩
            exact hbare
          · exact fun hbare => ⟨t, c, ht₀, hc, hmt, hbare⟩
        rw [hdropped, and_iff_right List.mem_cons_self, not_not]
        constructor
        · rintro ⟨id', hid'⟩
          rcases (hhas id' m).mp hid' with ⟨-, ha⟩ | ⟨-, hb⟩ | ⟨hne, hold⟩
          · exact ((hparted m).mp (Or.inl ha)).2
          · exact ((hparted m).mp (Or.inr hb)).2
          · exact absurd hold (hother id' m hmt hne)
        · intro hemb
          rcases (hparted m).mpr ⟨hmt, hemb⟩ with ha | hb
          · exact ⟨id, (hhas id m).mpr (Or.inl ⟨rfl, ha⟩)⟩
          · exact ⟨o.nextId, (hhas _ m).mpr (Or.inr (Or.inl ⟨rfl, hb⟩))⟩
      · have hne : id ≠ themeId := fun heq => hmt ((has_of_lookup ht₀).mp (heq ▸ hm))
        rw [List.mem_cons, or_iff_right hne, ← h.left id m hm]
        constructor
        · rintro ⟨id', hid'⟩
          rcases (hhas id' m).mp hid' with ⟨-, ha⟩ | ⟨-, hb⟩ | ⟨-, hold⟩
          · exact absurd (hclusters m (Or.inl ha)) hmt
          · exact absurd (hclusters m (Or.inr hb)) hmt
          · exact ⟨id', hold⟩
        · rintro ⟨id', hold⟩
          have hne' : id' ≠ themeId := fun heq => hmt ((has_of_lookup ht).mp (heq ▸ hold))
          exact ⟨id', (hhas id' m).mpr (Or.inr (Or.inr ⟨hne', hold⟩))⟩
    · obtain ⟨hsome', hsame'⟩ := hpending id hid
      have hne : id ≠ themeId := fun heq => hnot (heq ▸ hid)
      have hne' : id ≠ o.nextId := by
        rintro rfl
        rw [← hsame', lookup_nextId] at hsome'
        cases hsome'
      exact ⟨hsome', (hlookup id hne hne').trans hsame'⟩

/-- The themes behind the splits. -/
lemma splitting_splitPass (orders : WalkOrders) (honce : o.Once) :
    (splitPass L embeddings orders o).1.Once ∧
    (∀ id m, (splitPass L embeddings orders o).1.Has id m →
      ∃ id₀, o.Has id₀ m ∧ o.realmOf id₀ = (splitPass L embeddings orders o).1.realmOf id) ∧
    ∀ id m, o.Has id m → ((∃ id', (splitPass L embeddings orders o).1.Has id' m) ↔
      ¬Dropped L embeddings orders.members o id m) := by
  have hfold : ∀ (rest done : List ℕ) (acc : ThemeOrgan E F × ThemeMaintenanceResult), rest.Nodup →
      Splitting L embeddings orders.members o acc.1 done rest →
      Splitting L embeddings orders.members o
        (rest.foldl (splitTheme L embeddings orders.members) acc).1 (rest.reverse ++ done) [] := by
    intro rest
    induction rest with
    | nil => exact fun done acc _ h => h
    | cons id rest ih =>
      intro done acc hnodup h
      obtain ⟨hnot, hnodup⟩ := List.nodup_cons.mp hnodup
      rw [List.reverse_cons, List.append_assoc]
      exact ih (id :: done) _ hnodup (h.step honce hnot)
  have hcandidates : ∀ id t, o.themes.lookup id = some t → 100 < t.memberIds.card →
      id ∈ ((entries orders.candidates o.themes).filter fun e => 100 < e.2.memberIds.card).map
        (·.2.themeId) := by
    intro id t ht hcard
    refine List.mem_map.mpr ⟨(id, t), List.mem_filter.mpr ⟨mem_entries.mpr ht, by simpa using hcard⟩, ?_⟩
    exact (o.numbered id t ht).1
  have hpending : ∀ id ∈ ((entries orders.candidates o.themes).filter
      fun e => 100 < e.2.memberIds.card).map (·.2.themeId), (o.themes.lookup id).isSome := by
    intro id hid
    obtain ⟨e, he, rfl⟩ := List.mem_map.mp hid
    have hlookup := mem_entries.mp (List.mem_filter.mp he).1
    rw [(o.numbered _ _ hlookup).1, hlookup]
    rfl
  have hnodup : (((entries orders.candidates o.themes).filter
      fun e => 100 < e.2.memberIds.card).map (·.2.themeId)).Nodup := by
    have hkeys : ((entries orders.candidates o.themes).map (·.1)).Nodup := by
      rw [map_fst_entries]
      exact orders.candidates.nodup _
    have hsame : ∀ e ∈ (entries orders.candidates o.themes).filter fun e => 100 < e.2.memberIds.card,
        e.2.themeId = e.1 := fun e he =>
      (o.numbered _ _ (mem_entries.mp (List.mem_filter.mp he).1)).1
    rw [List.map_congr_left hsame]
    exact hkeys.sublist (List.filter_sublist.map _)
  obtain ⟨honce', horigin, hleft, -⟩ := hfold _ [] (o, ⟨0, 0, 0⟩) hnodup
    ⟨honce, fun id m hm => ⟨id, hm, rfl⟩, fun id m hm => by simpa using ⟨id, hm⟩,
      fun id hid => ⟨hpending id hid, rfl⟩⟩
  refine ⟨honce', horigin, fun id m hm => (hleft id m hm).trans (not_congr (and_iff_right_of_imp ?_))⟩
  rintro ⟨t, c, ht, hc, -⟩
  have hcard : 100 < t.memberIds.card := by
    unfold clusters at hc
    split_ifs at hc with hsmall
    omega
  rw [List.append_nil, List.mem_reverse]
  exact hcandidates id t ht hcard

end Splits

/-! ## Merges put themes together -/

section Merges

variable {L : Likeness E F} {embeddings : ℕ → Option E} {members : ℕ → KeyOrder ℕ} {total idA idB : ℕ}
  {s : Merging E F} {ahead : List ℕ}

/-- The merges so far: a theme has its members and those of the themes that were merged into it, and no
theme is merged twice or into one that is merged itself.  Nothing was merged into those ahead. -/
structure Merged (o : ThemeOrgan E F) (s : Merging E F) (ahead : List ℕ) : Prop where
  has : ∀ id m, s.organ.Has id m ↔ o.Has id m ∨ ∃ b, (id, b) ∈ s.merged ∧ o.Has b m
  realm : ∀ id, s.organ.realmOf id = o.realmOf id
  nodup : (s.merged.map (·.2)).Nodup
  apart : ∀ p ∈ s.merged, p.1 ∉ s.merged.map (·.2)
  ahead : ∀ p ∈ s.merged, p.1 ∉ ahead

lemma isMerged_eq_false : s.isMerged id = false ↔ id ∉ s.merged.map (·.2) := by
  simp [Merging.isMerged]

lemma recomputed_keeps (order : KeyOrder ℕ) (t : ThemeRecord E F) :
    (recomputed L embeddings order t).themeId = t.themeId ∧
    (recomputed L embeddings order t).memberIds = t.memberIds ∧
    (recomputed L embeddings order t).realm = t.realm := by
  unfold recomputed
  dsimp only
  split_ifs <;> exact ⟨rfl, rfl, rfl⟩

/-- Themes that are alike are there. -/
lemma lookup_of_alike {ta tb : ThemeRecord E F} (h : alike L o idA idB = some (ta, tb)) :
    o.themes.lookup idA = some ta ∧ o.themes.lookup idB = some tb := by
  unfold alike at h
  obtain ⟨a, ha, h⟩ := Option.bind_eq_some_iff.mp h
  obtain ⟨b, hb, h⟩ := Option.bind_eq_some_iff.mp h
  split_ifs at h
  obtain ⟨rfl, rfl⟩ := Prod.mk.inj (Option.some.inj h)
  exact ⟨ha, hb⟩

/-- What a merge does: nothing, or the one theme gets the members of the other one. -/
lemma mergeInto_spec (s : Merging E F) (idB : ℕ) :
    outcome (mergeInto L embeddings members total idA s idB) = s ∨
    idB ∉ s.merged.map (·.2) ∧
    (outcome (mergeInto L embeddings members total idA s idB)).merged = (idA, idB) :: s.merged ∧
    (∀ id m, (outcome (mergeInto L embeddings members total idA s idB)).organ.Has id m ↔
      s.organ.Has id m ∨ id = idA ∧ s.organ.Has idB m) ∧
    ∀ id, (outcome (mergeInto L embeddings members total idA s idB)).organ.realmOf id =
      s.organ.realmOf id := by
  unfold mergeInto
  split_ifs with hmerged
  · exact Or.inl rfl
  · cases halike : alike L s.organ idA idB with
    | none => exact Or.inl rfl
    | some p =>
      obtain ⟨a', b'⟩ := p
      refine Or.inr ⟨isMerged_eq_false.mp (Bool.eq_false_iff.mpr hmerged), ?_⟩
      obtain ⟨ha, hb⟩ := lookup_of_alike halike
      obtain ⟨hid, -⟩ := s.organ.numbered _ _ ha
      dsimp only
      obtain ⟨hid', hmembers, hrealm⟩ := @recomputed_keeps E F L embeddings (members idA)
        { a' with memberIds := a'.memberIds ∪ b'.memberIds }
      generalize recomputed L embeddings (members idA)
        { a' with memberIds := a'.memberIds ∪ b'.memberIds } = t at *
      have hid'' : t.themeId = idA := hid'.trans hid
      have hhas : ∀ id m, (s.organ.put t).Has id m ↔ s.organ.Has id m ∨ id = idA ∧ s.organ.Has idB m := by
        intro id m
        rw [has_put, hid'', hmembers, Finset.mem_union, has_of_lookup hb]
        by_cases hida : id = idA
        · rw [hida, has_of_lookup ha]
          simp
        · simp [hida]
      have hrealms : ∀ id, (s.organ.put t).realmOf id = s.organ.realmOf id := by
        intro id
        by_cases hida : id = t.themeId
        · rw [hida, realmOf_put_self, realmOf, hid'', ha, hrealm]
          rfl
        · exact realmOf_put_of_ne hida
      split_ifs <;> exact ⟨rfl, hhas, hrealms⟩

/-- A merge of a theme that is ahead. -/
lemma Merged.mergeInto (h : Merged o s ahead) (ha : idA ∉ s.merged.map (·.2)) (hna : idA ∉ ahead)
    (hb : idB ∈ ahead) :
    Merged o (outcome (mergeInto L embeddings members total idA s idB)) ahead ∧
    idA ∉ (outcome (ThemeOrgan.mergeInto L embeddings members total idA s idB)).merged.map (·.2) := by
  rcases @mergeInto_spec E F L embeddings members total idA s idB with hsame | ⟨hnot, hmerged, hhas, hrealm⟩
  · rw [hsame]
    exact ⟨h, ha⟩
  generalize outcome (ThemeOrgan.mergeInto L embeddings members total idA s idB) = s' at *
  have hne : idA ≠ idB := fun heq => hna (heq ▸ hb)
  have hnofirst : ∀ p ∈ s.merged, p.1 ≠ idB := fun p hp heq => h.ahead p hp (heq ▸ hb)
  -- Nothing was merged into the theme, so that it has the members that it had.
  have hold : ∀ m, s.organ.Has idB m ↔ o.Has idB m := by
    intro m
    rw [h.has, or_iff_left]
    rintro ⟨b, hmem, -⟩
    exact hnofirst _ hmem rfl
  have hmap : s'.merged.map (·.2) = idB :: s.merged.map (·.2) := by rw [hmerged, List.map_cons]
  have ha' : idA ∉ s'.merged.map (·.2) := by
    rw [hmap, List.mem_cons, not_or]
    exact ⟨hne, ha⟩
  refine ⟨⟨fun id m => ?_, fun id => (hrealm id).trans (h.realm id), ?_, fun p hp => ?_, fun p hp => ?_⟩,
    ha'⟩
  · rw [hhas, h.has, hold, or_assoc, hmerged]
    refine or_congr_right ⟨?_, ?_⟩
    · rintro (⟨b, hmem, hm⟩ | ⟨rfl, hm⟩)
      · exact ⟨b, List.mem_cons_of_mem _ hmem, hm⟩
      · exact ⟨idB, List.mem_cons_self, hm⟩
    · rintro ⟨b, hmem, hm⟩
      rcases List.mem_cons.mp hmem with heq | hmem
      · obtain ⟨rfl, rfl⟩ := Prod.mk.inj heq
        exact Or.inr ⟨rfl, hm⟩
      · exact Or.inl ⟨b, hmem, hm⟩
  · rw [hmap]
    exact List.nodup_cons.mpr ⟨hnot, h.nodup⟩
  · rw [hmerged] at hp
    rcases List.mem_cons.mp hp with rfl | hp
    · exact ha'
    · rw [hmap, List.mem_cons, not_or]
      exact ⟨hnofirst p hp, h.apart p hp⟩
  · rw [hmerged] at hp
    rcases List.mem_cons.mp hp with rfl | hp
    · exact hna
    · exact h.ahead p hp

/-- The merges into a theme, as steps of a loop. -/
lemma Merged.mergeInto_keeps (hna : idA ∉ ahead) : ∀ s, ∀ idB ∈ ahead,
    Merged o s ahead ∧ idA ∉ s.merged.map (·.2) →
      Merged o (outcome (ThemeOrgan.mergeInto L embeddings members total idA s idB)) ahead ∧
      idA ∉ (outcome (ThemeOrgan.mergeInto L embeddings members total idA s idB)).merged.map (·.2) :=
  fun _ _ hb hs => hs.1.mergeInto hs.2 hna hb

/-- What is ahead may be given up. -/
lemma Merged.behind {ids : List ℕ} (h : Merged o s (idA :: ids)) : Merged o s ids :=
  ⟨h.has, h.realm, h.nodup, h.apart, fun p hp hbad => h.ahead p hp (List.mem_cons_of_mem _ hbad)⟩

/-- The merges of a whole pass. -/
lemma Merged.mergeLoop (h : Merged o s ids) (hnodup : ids.Nodup) :
    Merged o (mergeLoop L embeddings members total ids s) [] := by
  induction ids generalizing s with
  | nil => exact h
  | cons idA rest ih =>
    obtain ⟨hna, hnodup⟩ := List.nodup_cons.mp hnodup
    have hrest : Merged o s rest := h.behind
    rw [ThemeOrgan.mergeLoop]
    split_ifs with hmerged
    · exact ih hrest hnodup
    · have hloop := outcome_foldlM
        (@Merged.mergeInto_keeps E F o L embeddings members total idA rest hna)
        ⟨hrest, isMerged_eq_false.mp (Bool.eq_false_iff.mpr hmerged)⟩
      cases hout : rest.foldlM (ThemeOrgan.mergeInto L embeddings members total idA) s with
      | error s' =>
        rw [hout] at hloop
        exact ⟨hloop.1.has, hloop.1.realm, hloop.1.nodup, hloop.1.apart, fun _ _ => List.not_mem_nil⟩
      | ok s' =>
        rw [hout] at hloop
        exact ih hloop.1 hnodup

/-- The merges come to two themes in a state. -/
inductive ComesTo (L : Likeness E F) (embeddings : ℕ → Option E) (members : ℕ → KeyOrder ℕ)
    (total : ℕ) : List ℕ → Merging E F → ℕ → ℕ → Merging E F → Prop where
  | skip {idA a b : ℕ} {rest : List ℕ} {s s' : Merging E F} (hskip : s.isMerged idA = true)
      (h : ComesTo L embeddings members total rest s a b s') :
      ComesTo L embeddings members total (idA :: rest) s a b s'
  | inner {idA b : ℕ} {rest : List ℕ} {s s' : Merging E F} (hopen : s.isMerged idA = false)
      (h : Comes (mergeInto L embeddings members total idA) rest s b s') :
      ComesTo L embeddings members total (idA :: rest) s idA b s'
  | outer {idA a b : ℕ} {rest : List ℕ} {s s₁ s' : Merging E F} (hopen : s.isMerged idA = false)
      (hrest : rest.foldlM (mergeInto L embeddings members total idA) s = .ok s₁)
      (h : ComesTo L embeddings members total rest s₁ a b s') :
      ComesTo L embeddings members total (idA :: rest) s a b s'

/-- The state that the merges come to two themes in is one of `Merged`, and the second theme is ahead. -/
lemma Merged.comesTo {a b : ℕ} {s' : Merging E F} (h : Merged o s ids) (hnodup : ids.Nodup)
    (hcomes : ComesTo L embeddings members total ids s a b s') :
    ∃ ahead, Merged o s' ahead ∧ b ∈ ahead := by
  induction hcomes with
  | skip _ _ ih => exact ih (h.behind) (List.nodup_cons.mp hnodup).2
  | inner hopen hcomes =>
    obtain ⟨⟨h', -⟩, hb⟩ := hcomes.keeps (Merged.mergeInto_keeps (List.nodup_cons.mp hnodup).1)
      ⟨h.behind, isMerged_eq_false.mp hopen⟩
    exact ⟨_, h', hb⟩
  | @outer idA _ _ rest s _ _ hopen hrest _ ih =>
    have hloop := outcome_foldlM
      (@Merged.mergeInto_keeps E F o L embeddings members total idA rest (List.nodup_cons.mp hnodup).1)
      ⟨h.behind, isMerged_eq_false.mp hopen⟩
    rw [hrest] at hloop
    exact ih hloop.1 (List.nodup_cons.mp hnodup).2

/-- What a merge merges. -/
lemma mem_merged_mergeInto {p : ℕ × ℕ} :
    p ∈ (outcome (mergeInto L embeddings members total idA s idB)).merged ↔ p ∈ s.merged ∨
      p = (idA, idB) ∧ s.isMerged idB = false ∧ (alike L s.organ idA idB).isSome := by
  unfold mergeInto
  split_ifs with hmerged
  · simp [outcome, hmerged]
  · cases halike : alike L s.organ idA idB with
    | none => simp [outcome]
    | some q =>
      dsimp only
      split_ifs <;> simp [outcome, hmerged, or_comm]

/-- What is merged in the end: the themes that the merges find alike. -/
lemma mem_merged_mergeLoop {a b : ℕ} :
    (a, b) ∈ (mergeLoop L embeddings members total ids s).merged ↔ (a, b) ∈ s.merged ∨
      ∃ s', ComesTo L embeddings members total ids s a b s' ∧ s'.isMerged b = false ∧
        (alike L s'.organ a b).isSome := by
  induction ids generalizing s with
  | nil => exact ⟨Or.inl, fun h => h.resolve_right (by rintro ⟨_, ⟨⟩, -⟩)⟩
  | cons idA rest ih =>
    rw [ThemeOrgan.mergeLoop]
    split_ifs with hmerged
    · refine ih.trans (or_congr_right ⟨?_, ?_⟩)
      · rintro ⟨s', h, halike⟩
        exact ⟨s', .skip hmerged h, halike⟩
      · rintro ⟨s', ⟨-, h⟩ | ⟨hopen, -⟩ | ⟨hopen, -, -⟩, halike⟩
        · exact ⟨s', h, halike⟩
        · exact absurd (hmerged.symm.trans hopen) (by decide)
        · exact absurd (hmerged.symm.trans hopen) (by decide)
    · have hopen := Bool.eq_false_iff.mpr hmerged
      have hinner : (a, b) ∈ (outcome (rest.foldlM
          (ThemeOrgan.mergeInto L embeddings members total idA) s)).merged ↔ (a, b) ∈ s.merged ∨
            ∃ y s', Comes (ThemeOrgan.mergeInto L embeddings members total idA) rest s y s' ∧
              (a, b) = (idA, y) ∧ s'.isMerged y = false ∧ (alike L s'.organ idA y).isSome :=
        @outcome_foldlM_iff _ _ (fun s : Merging E F => (a, b) ∈ s.merged) _ _
          (fun _ _ => mem_merged_mergeInto) rest s
      cases hout : rest.foldlM (ThemeOrgan.mergeInto L embeddings members total idA) s with
      | error s₁ =>
        rw [hout] at hinner
        refine hinner.trans (or_congr_right ⟨?_, ?_⟩)
        · rintro ⟨y, s', h, heq, halike⟩
          obtain ⟨rfl, rfl⟩ := Prod.mk.inj heq
          exact ⟨s', .inner hopen h, halike⟩
        · rintro ⟨s', ⟨hskip, -⟩ | ⟨-, h⟩ | ⟨-, hok, -⟩, halike⟩
          · exact absurd hskip hmerged
          · exact ⟨b, s', h, rfl, halike⟩
          · exact absurd (hout.symm.trans hok) nofun
      | ok s₁ =>
        rw [hout] at hinner
        refine ih.trans ((or_congr_left hinner).trans (or_assoc.trans (or_congr_right ⟨?_, ?_⟩)))
        · rintro (⟨y, s', h, heq, halike⟩ | ⟨s', h, halike⟩)
          · obtain ⟨rfl, rfl⟩ := Prod.mk.inj heq
            exact ⟨s', .inner hopen h, halike⟩
          · exact ⟨s', .outer hopen hout h, halike⟩
        · rintro ⟨s', ⟨hskip, -⟩ | ⟨-, h⟩ | ⟨-, hok, h⟩, halike⟩
          · exact absurd hskip hmerged
          · exact Or.inl ⟨b, s', h, rfl, halike⟩
          · obtain rfl := Except.ok.inj (hout.symm.trans hok)
            exact Or.inr ⟨s', h, halike⟩

/-- In the beginning nothing is merged. -/
lemma merged_start (result : ThemeMaintenanceResult) : Merged o ⟨o, result, []⟩ ids where
  has := by simp
  realm _ := rfl
  nodup := List.nodup_nil
  apart := List.forall_mem_nil _
  ahead := List.forall_mem_nil _

lemma merged_mergePass (orders : WalkOrders) (result : ThemeMaintenanceResult) :
    Merged o (mergePass L embeddings orders o result) [] :=
  (merged_start result).mergeLoop (orders.themes.nodup _)

end Merges

/-! ## What maintenance keeps -/

section Maintenance

variable (L : Likeness E F) (embeddings : ℕ → Option E)

/-- A member is mixed with others: the merges come to its theme and one of another realm in a state in
which its theme is still there and the two are alike. -/
def Mixed (orders : WalkOrders) (o : ThemeOrgan E F) (id m : ℕ) : Prop :=
  ∃ a s ta tb,
    ComesTo L embeddings orders.members
      (orders.themes.list (splitPass L embeddings orders o).1.themes.keys).length
      (orders.themes.list (splitPass L embeddings orders o).1.themes.keys)
      ⟨(splitPass L embeddings orders o).1, (splitPass L embeddings orders o).2, []⟩ a id s ∧
    s.isMerged id = false ∧ alike L s.organ a id = some (ta, tb) ∧ ta.realm ≠ tb.realm ∧
    m ∈ tb.memberIds

variable {L embeddings} {orders : WalkOrders}

/-- The mixed members, by what is merged in the end. -/
lemma mixed_iff : Mixed L embeddings orders o id m ↔
    ∃ a, (a, id) ∈ (mergePass L embeddings orders (splitPass L embeddings orders o).1
        (splitPass L embeddings orders o).2).merged ∧
      (splitPass L embeddings orders o).1.realmOf a ≠ (splitPass L embeddings orders o).1.realmOf id ∧
      (splitPass L embeddings orders o).1.Has id m := by
  unfold Mixed mergePass
  generalize (splitPass L embeddings orders o).1 = o₁
  generalize (splitPass L embeddings orders o).2 = result
  -- In the state before the merge, the second theme has the members that it had in the beginning.
  have hthere : ∀ a s ta tb, ComesTo L embeddings orders.members
      (orders.themes.list o₁.themes.keys).length (orders.themes.list o₁.themes.keys)
      ⟨o₁, result, []⟩ a id s → alike L s.organ a id = some (ta, tb) →
      o₁.realmOf a = some ta.realm ∧ o₁.realmOf id = some tb.realm ∧ (o₁.Has id m ↔ m ∈ tb.memberIds) := by
    intro a s ta tb hcomes halike
    obtain ⟨ahead, hs, hahead⟩ := (merged_start result).comesTo (orders.themes.nodup _) hcomes
    obtain ⟨ha, hb⟩ := lookup_of_alike halike
    rw [← hs.realm a, ← hs.realm id, realmOf, realmOf, ha, hb, ← has_of_lookup hb, hs.has]
    refine ⟨rfl, rfl, (or_iff_left ?_).symm⟩
    rintro ⟨b, hmem, -⟩
    exact hs.ahead _ hmem hahead
  simp only [mem_merged_mergeLoop, List.not_mem_nil, false_or]
  constructor
  · rintro ⟨a, s, ta, tb, hcomes, hopen, halike, hne, hm⟩
    obtain ⟨hra, hrb, hhas⟩ := hthere a s ta tb hcomes halike
    refine ⟨a, ⟨s, hcomes, hopen, by rw [halike]; rfl⟩, fun heq => hne ?_, hhas.mpr hm⟩
    rw [hra, hrb] at heq
    exact Option.some.inj heq
  · rintro ⟨a, ⟨s, hcomes, hopen, hsome⟩, hne, hm⟩
    obtain ⟨⟨ta, tb⟩, halike⟩ := Option.isSome_iff_exists.mp hsome
    obtain ⟨hra, hrb, hhas⟩ := hthere a s ta tb hcomes halike
    rw [hra, hrb] at hne
    exact ⟨a, s, ta, tb, hcomes, hopen, halike, fun heq => hne (congrArg some heq), hhas.mp hm⟩

lemma has_removeAll : (o.removeAll ids).Has id m ↔ id ∉ ids ∧ o.Has id m := by
  unfold Has removeAll
  rw [lookup_eraseAll]
  by_cases hid : id ∈ ids
  · simp [hid]
  · simp [hid]

lemma realmOf_removeAll (h : id ∉ ids) : (o.removeAll ids).realmOf id = o.realmOf id := by
  unfold realmOf removeAll
  rw [lookup_eraseAll, if_neg h]

/-- Members come from the theme itself or from one that was merged into it. -/
lemma Merged.has_removeAll {s : Merging E F} (h : Merged o s []) :
    (s.organ.removeAll (s.merged.map (·.2))).Has id m ↔
      id ∉ s.merged.map (·.2) ∧ (o.Has id m ∨ ∃ b, (id, b) ∈ s.merged ∧ o.Has b m) := by
  rw [ThemeOrgan.has_removeAll, h.has]

/-- Whoever belongs to a theme before the merges does behind them. -/
lemma Merged.belongs {s : Merging E F} (h : Merged o s []) (hm : o.Has id m) :
    ∃ id', (s.organ.removeAll (s.merged.map (·.2))).Has id' m := by
  by_cases hid : id ∈ s.merged.map (·.2)
  · obtain ⟨⟨a, b⟩, hmem, rfl⟩ := List.mem_map.mp hid
    exact ⟨a, h.has_removeAll.mpr ⟨h.apart _ hmem, Or.inr ⟨b, hmem, hm⟩⟩⟩
  · exact ⟨id, h.has_removeAll.mpr ⟨hid, Or.inl hm⟩⟩

/-- Merges put no memory to two themes. -/
lemma Merged.once {s : Merging E F} (h : Merged o s []) (honce : o.Once) :
    (s.organ.removeAll (s.merged.map (·.2))).Once := by
  intro id id' m hm hm'
  obtain ⟨hid, hm⟩ := h.has_removeAll.mp hm
  obtain ⟨hid', hm'⟩ := h.has_removeAll.mp hm'
  rcases hm with hm | ⟨b, hmem, hm⟩ <;> rcases hm' with hm' | ⟨b', hmem', hm'⟩
  · exact honce id id' m hm hm'
  · obtain rfl := honce id b' m hm hm'
    exact absurd (List.mem_map_of_mem hmem') hid
  · obtain rfl := honce id' b m hm' hm
    exact absurd (List.mem_map_of_mem hmem) hid'
  · obtain rfl := honce b b' m hm hm'
    exact congrArg Prod.fst (List.inj_on_of_nodup_map h.nodup hmem hmem' rfl)

/-- Maintenance keeps the themes exactly if no theme that is split has a member without an embedding,
and two themes that are alike when the merges come to them have one realm or the second one has no
members.  Putting orphans to themes always keeps them. -/
theorem themes_kept_iff (L : Likeness E F) (embeddings : ℕ → Option E) (orders : WalkOrders)
    (o : ThemeOrgan E F) (honce : o.Once) :
    (Kept o (maintain L embeddings orders o).1 ↔
      ∀ id m, ¬Dropped L embeddings orders.members o id m ∧ ¬Mixed L embeddings orders o id m) ∧
    ∀ order allMemoryIds realm batchSize threshold, allMemoryIds.Nodup →
      Kept o (assignOrphans L embeddings order o allMemoryIds realm batchSize threshold).1 := by
  refine ⟨?_, fun order ids realm batchSize threshold hnodup => kept_assignOrphans honce hnodup batchSize⟩
  obtain ⟨honce₁, horigin, hleft⟩ := @splitting_splitPass E F o L embeddings orders honce
  have hmerged := @merged_mergePass E F (splitPass L embeddings orders o).1 L embeddings orders
    (splitPass L embeddings orders o).2
  simp only [mixed_iff]
  unfold maintain
  dsimp only
  generalize (splitPass L embeddings orders o).1 = o₁ at *
  generalize mergePass L embeddings orders o₁ (splitPass L embeddings orders o).2 = s at *
  constructor
  · intro hkept id m
    refine ⟨fun hdropped => ?_, fun ⟨a, hmem, hne, hm⟩ => ?_⟩
    · have hhas : o.Has id m := by
        obtain ⟨t, -, ht, -, hm, -⟩ := hdropped
        exact ⟨t, ht, hm⟩
      obtain ⟨id', hid'⟩ := hkept.belongs id m hhas
      refine (hleft id m hhas).mp ?_ hdropped
      rcases (hmerged.has_removeAll.mp hid').2 with hm | ⟨b, -, hm⟩
      · exact ⟨id', hm⟩
      · exact ⟨b, hm⟩
    · obtain ⟨id₀, hhas, hrealm⟩ := horigin id m hm
      have ha : a ∉ s.merged.map (·.2) := hmerged.apart _ hmem
      have hsame := hkept.realm id₀ a m hhas (hmerged.has_removeAll.mpr ⟨ha, Or.inr ⟨id, hmem, hm⟩⟩)
      rw [realmOf_removeAll ha, hmerged.realm] at hsame
      exact hne (hsame.symm.trans hrealm)
  · intro hnone
    refine ⟨fun id m hm => ?_, hmerged.once honce₁, fun id id' m hm hm' => ?_⟩
    · obtain ⟨id', hid'⟩ := (hleft id m hm).mpr (hnone id m).1
      exact hmerged.belongs hid'
    · obtain ⟨hid', hm'⟩ := hmerged.has_removeAll.mp hm'
      rw [realmOf_removeAll hid', hmerged.realm]
      rcases hm' with hm' | ⟨b, hmem, hm'⟩
      · obtain ⟨id₀, hhas, hrealm⟩ := horigin id' m hm'
        rw [honce id id₀ m hm hhas, hrealm]
      · obtain ⟨id₀, hhas, hrealm⟩ := horigin b m hm'
        rw [honce id id₀ m hm hhas, hrealm]
        by_contra hne
        exact (hnone b m).2 ⟨id', hmem, Ne.symm hne, hm'⟩

/-- Embeddings that are alike if they are the same. -/
def sameness : Likeness ℕ ℕ where
  cosineSim e e' := if e = e' then 1 else 0
  isEmpty _ := false
  mean es := es.headD 0
  ge x y := decide (y ≤ x)
  alike x := x == 1
  greater x y := decide (y < x)
  one := 1
  average xs count := xs.sum / count

def upwardsOrders : WalkOrders := ⟨upwards, fun _ => upwards, upwards⟩

/-- Two themes of a memory each, which are alike. -/
def twoThemes (realm realm' : String) : ThemeOrgan ℕ ℕ :=
  (new.put ⟨0, "theme_0", 7, realm, 1, {1}, 0⟩).put ⟨1, "theme_1", 7, realm', 1, {2}, 0⟩

lemma has_twoThemes {realm realm' : String} :
    (twoThemes realm realm').Has id m ↔ id = 0 ∧ m = 1 ∨ id = 1 ∧ m = 2 := by
  have hnew : ¬(new : ThemeOrgan ℕ ℕ).Has id m := not_has_of_lookup (Finmap.lookup_empty id)
  unfold twoThemes
  rw [has_put, has_put]
  simp only [hnew, Finset.mem_singleton, and_false, or_false]
  by_cases hid : id = 1
  · simp [hid]
  · simp [hid]

lemma once_twoThemes (realm realm' : String) : (twoThemes realm realm').Once := by
  intro id id' m hm hm'
  rw [has_twoThemes] at hm hm'
  omega

/-- Two themes of one realm that are merged. -/
theorem themes_kept_one_realm :
    (twoThemes "a" "a").Once ∧
    Kept (twoThemes "a" "a") (maintain sameness (fun _ => some 7) upwardsOrders (twoThemes "a" "a")).1 ∧
    Kept (twoThemes "a" "a") (assignOrphans sameness (fun _ => some 7) upwards (twoThemes "a" "a")
      [1, 2, 3] "a" 8 1).1 := by
  have honce := once_twoThemes "a" "a"
  obtain ⟨hiff, horphans⟩ := themes_kept_iff sameness (fun _ => some 7) upwardsOrders _ honce
  refine ⟨honce, hiff.mpr fun id m => ⟨?_, ?_⟩, horphans upwards [1, 2, 3] "a" 8 1 (by decide)⟩
  · rintro ⟨t, c, -, -, -, hbare⟩
    exact hbare rfl
  · intro hmixed
    obtain ⟨a, hmem, hne, -⟩ := mixed_iff.mp hmixed
    have hmerged : (mergePass sameness (fun _ => some 7) upwardsOrders
        (splitPass sameness (fun _ => some 7) upwardsOrders (twoThemes "a" "a")).1
        (splitPass sameness (fun _ => some 7) upwardsOrders (twoThemes "a" "a")).2).merged = [(0, 1)] := by
      decide +kernel
    rw [hmerged] at hmem
    obtain ⟨rfl, rfl⟩ := Prod.mk.inj (List.mem_singleton.mp hmem)
    exact hne (by decide +kernel)

/-- Two themes of different realms are merged. -/
theorem themes_kept_two_realms :
    (twoThemes "a" "b").Once ∧
    ¬Kept (twoThemes "a" "b") (maintain sameness (fun _ => some 7) upwardsOrders (twoThemes "a" "b")).1 := by
  refine ⟨once_twoThemes "a" "b", fun hkept => ?_⟩
  have hmember : (maintain sameness (fun _ => some 7) upwardsOrders (twoThemes "a" "b")).1.Has 0 2 := by
    have hlookup : ((maintain sameness (fun _ => some 7) upwardsOrders (twoThemes "a" "b")).1.themes.lookup
        0).map (·.memberIds) = some {1, 2} := by decide +kernel
    obtain ⟨t, ht, hmembers⟩ := Option.map_eq_some_iff.mp hlookup
    exact ⟨t, ht, by rw [hmembers]; decide⟩
  have hrealm := hkept.realm 1 0 2 (has_twoThemes.mpr (Or.inr ⟨rfl, rfl⟩)) hmember
  revert hrealm
  decide +kernel
end Maintenance

end ThemeOrgan

end ChittaField
