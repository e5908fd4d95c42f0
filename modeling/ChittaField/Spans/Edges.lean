import ChittaField.Spans.Store

/-!
# Edges between memories and spans

Which spans a memory has is noted twice: every span has the memories that refer to it, and every
memory has the positions of its spans.  `edges_exact` says that the two agree behind every run, that
every span that is not a tombstone is referred to or was seen, that tombstones are never returned, and
that a memory whose text was ingested has the atoms of that text.

The text is told from the one before by its hash: a text with the hash of another one that the memory
was linked for is skipped, as `same_hash_is_skipped` shows.
-/

namespace ChittaField.Spans

variable {u : Unicode} {hash : ℕ → Text → ℕ}

/-! ## Spans without the tables -/

/-- Spans that are not tombstones were seen or are referred to, tombstones are not referred to, and
only known memories refer to spans. -/
structure SpansOk (spans : List SpanEntry) (known : ℕ → Prop) : Prop where
  held : ∀ (i : ℕ) (e : SpanEntry), spans[i]? = some e → e.text ≠ [] → e.locators ≠ [] ∨ e.memRefs ≠ []
  bare : ∀ (i : ℕ) (e : SpanEntry), spans[i]? = some e → e.text = [] → e.memRefs = []
  known : ∀ (i : ℕ) (e : SpanEntry), spans[i]? = some e → ∀ m ∈ e.memRefs, known m

/-- A memory has an atom. -/
def Links (spans : List SpanEntry) (m : ℕ) (a : Atom) : Prop :=
  ∃ (i : ℕ) (e : SpanEntry), spans[i]? = some e ∧ m ∈ e.memRefs ∧ e.atom = a

/-- The positions that are noted for memories are those of the spans that they refer to. -/
def Adjacent (spans : List SpanEntry) (adj : ℕ → Option (List ℕ)) : Prop :=
  ∀ m i, i ∈ (adj m).getD [] ↔ ∃ e, spans[i]? = some e ∧ m ∈ e.memRefs

section Lists

variable {spans : List SpanEntry} {i j : ℕ} {e e' x : SpanEntry} {known : ℕ → Prop}

lemma getElem?_set_some (hi : spans[i]? = some e) :
    (spans.set i e')[j]? = if i = j then some e' else spans[j]? := by
  rw [List.getElem?_set, if_pos (List.getElem?_eq_some_iff.mp hi).1]

lemma getElem?_concat : (spans ++ [e])[j]? = if j = spans.length then some e else spans[j]? := by
  rw [List.getElem?_append]
  split_ifs with hlt heq heq
  · omega
  · rfl
  · simp [heq]
  · have hout : spans[j]? = none := List.getElem?_eq_none_iff.mpr (by omega)
    rw [hout]
    exact List.getElem?_eq_none_iff.mpr (by simp; omega)

/-- A span is replaced. -/
lemma SpansOk.set (h : SpansOk spans known) (hi : spans[i]? = some e)
    (hheld : e'.text ≠ [] → e'.locators ≠ [] ∨ e'.memRefs ≠ []) (hbare : e'.text = [] → e'.memRefs = [])
    (hknown : ∀ m ∈ e'.memRefs, known m) : SpansOk (spans.set i e') known := by
  refine ⟨fun j x hx => ?_, fun j x hx => ?_, fun j x hx => ?_⟩
  all_goals
    rw [getElem?_set_some hi] at hx
    split_ifs at hx
  · exact Option.some.inj hx ▸ hheld
  · exact h.held j x hx
  · exact Option.some.inj hx ▸ hbare
  · exact h.bare j x hx
  · exact Option.some.inj hx ▸ hknown
  · exact h.known j x hx

/-- A span is added. -/
lemma SpansOk.concat (h : SpansOk spans known) (htext : e.text ≠ [])
    (hheld : e.locators ≠ [] ∨ e.memRefs ≠ []) (hknown : ∀ m ∈ e.memRefs, known m) :
    SpansOk (spans ++ [e]) known := by
  refine ⟨fun j x hx => ?_, fun j x hx => ?_, fun j x hx => ?_⟩
  all_goals
    rw [getElem?_concat] at hx
    split_ifs at hx
  · exact Option.some.inj hx ▸ fun _ => hheld
  · exact h.held j x hx
  · exact Option.some.inj hx ▸ fun hnil => absurd hnil htext
  · exact h.bare j x hx
  · exact Option.some.inj hx ▸ hknown
  · exact h.known j x hx

lemma SpansOk.mono {known' : ℕ → Prop} (h : SpansOk spans known) (hsub : ∀ m, known m → known' m) :
    SpansOk spans known' :=
  ⟨h.held, h.bare, fun i e he m hm => hsub m (h.known i e he m hm)⟩

lemma SpansOk.filter (h : SpansOk spans known) (p : SpanEntry → Bool) :
    SpansOk (spans.filter p) known := by
  have hfrom : ∀ i e, (spans.filter p)[i]? = some e → ∃ j, spans[j]? = some e := fun i e he =>
    List.mem_iff_getElem?.mp (List.mem_of_mem_filter (List.mem_of_getElem? he))
  refine ⟨fun i e he => ?_, fun i e he => ?_, fun i e he => ?_⟩
  · obtain ⟨j, hj⟩ := hfrom i e he
    exact h.held j e hj
  · obtain ⟨j, hj⟩ := hfrom i e he
    exact h.bare j e hj
  · obtain ⟨j, hj⟩ := hfrom i e he
    exact h.known j e hj

/-- The links when a span is replaced. -/
lemma links_set {m : ℕ} {a : Atom} (hi : spans[i]? = some e) : Links (spans.set i e') m a ↔
    (m ∈ e'.memRefs ∧ e'.atom = a) ∨ ∃ j x, j ≠ i ∧ spans[j]? = some x ∧ m ∈ x.memRefs ∧ x.atom = a := by
  constructor
  · rintro ⟨j, x, hx, hm, ha⟩
    rw [getElem?_set_some hi] at hx
    split_ifs at hx with hij
    · obtain rfl := Option.some.inj hx
      exact Or.inl ⟨hm, ha⟩
    · exact Or.inr ⟨j, x, fun h => hij h.symm, hx, hm, ha⟩
  · rintro (⟨hm, ha⟩ | ⟨j, x, hji, hx, hm, ha⟩)
    · exact ⟨i, e', by rw [getElem?_set_some hi, if_pos rfl], hm, ha⟩
    · exact ⟨j, x, by rwa [getElem?_set_some hi, if_neg hji.symm], hm, ha⟩

/-- Where a span changes, a memory keeps its atoms if it refers to the span as before. -/
lemma links_set_iff {m : ℕ} {a : Atom} (hi : spans[i]? = some e)
    (hsame : m ∈ e'.memRefs ∧ e'.atom = a ↔ m ∈ e.memRefs ∧ e.atom = a) :
    Links (spans.set i e') m a ↔ Links spans m a := by
  rw [links_set hi, hsame]
  constructor
  · rintro (h | ⟨j, x, -, hx, h⟩)
    · exact ⟨i, e, hi, h⟩
    · exact ⟨j, x, hx, h⟩
  · rintro ⟨j, x, hx, h⟩
    by_cases hji : j = i
    · subst hji
      obtain rfl := Option.some.inj (hi.symm.trans hx)
      exact Or.inl h
    · exact Or.inr ⟨j, x, hji, hx, h⟩

/-- The links when a span is added. -/
lemma links_concat {m : ℕ} {a : Atom} :
    Links (spans ++ [e]) m a ↔ Links spans m a ∨ (m ∈ e.memRefs ∧ e.atom = a) := by
  constructor
  · rintro ⟨j, x, hx, hm, ha⟩
    rw [getElem?_concat] at hx
    split_ifs at hx
    · obtain rfl := Option.some.inj hx
      exact Or.inr ⟨hm, ha⟩
    · exact Or.inl ⟨j, x, hx, hm, ha⟩
  · rintro (⟨j, x, hx, hm, ha⟩ | ⟨hm, ha⟩)
    · have hlt := (List.getElem?_eq_some_iff.mp hx).1
      exact ⟨j, x, by rw [getElem?_concat, if_neg (by omega), hx], hm, ha⟩
    · exact ⟨spans.length, e, by rw [getElem?_concat, if_pos rfl], hm, ha⟩

end Lists

/-! ## Rebuilding the tables -/

lemma mem_foldl_adjacency (refs : List ℕ) (adj : ℕ → Option (List ℕ)) (j m i : ℕ) :
    i ∈ ((refs.foldl (fun adj mid =>
        Function.update adj mid (some ((adj mid).getD [] ++ [j]))) adj) m).getD [] ↔
      i ∈ (adj m).getD [] ∨ (i = j ∧ m ∈ refs) := by
  induction refs generalizing adj with
  | nil => simp
  | cons mid refs ih =>
    rw [List.foldl_cons, ih]
    by_cases hm : m = mid
    · subst hm
      simp [Function.update_self]
      tauto
    · simp [hm]

/-- The tables of spans hold the spans that were indexed. -/
lemma mem_foldl_index (ps : List (SpanEntry × ℕ)) (s : SpanStore) (m i : ℕ) :
    i ∈ ((ps.foldl (SpanStore.index hash) s).memAdjacency m).getD [] ↔
      i ∈ (s.memAdjacency m).getD [] ∨ ∃ e, (e, i) ∈ ps ∧ e.text ≠ [] ∧ m ∈ e.memRefs := by
  induction ps generalizing s with
  | nil => simp
  | cons p ps ih =>
    rw [List.foldl_cons, ih]
    obtain ⟨e, j⟩ := p
    by_cases htext : e.text = []
    · rw [SpanStore.index, if_pos htext]
      constructor
      · rintro (h | ⟨x, hx, hne, hm⟩)
        · exact Or.inl h
        · exact Or.inr ⟨x, List.mem_cons_of_mem _ hx, hne, hm⟩
      · rintro (h | ⟨x, hx, hne, hm⟩)
        · exact Or.inl h
        · rcases List.mem_cons.mp hx with heq | hx
          · obtain ⟨rfl, rfl⟩ := Prod.mk.inj heq
            exact absurd htext hne
          · exact Or.inr ⟨x, hx, hne, hm⟩
    · rw [SpanStore.index, if_neg htext]
      simp only [mem_foldl_adjacency]
      constructor
      · rintro ((h | ⟨rfl, hm⟩) | ⟨x, hx, hne, hm⟩)
        · exact Or.inl h
        · exact Or.inr ⟨e, List.mem_cons_self, htext, hm⟩
        · exact Or.inr ⟨x, List.mem_cons_of_mem _ hx, hne, hm⟩
      · rintro (h | ⟨x, hx, hne, hm⟩)
        · exact Or.inl (Or.inl h)
        · rcases List.mem_cons.mp hx with heq | hx
          · obtain ⟨rfl, rfl⟩ := Prod.mk.inj heq
            exact Or.inl (Or.inr ⟨rfl, hm⟩)
          · exact Or.inr ⟨x, hx, hne, hm⟩

/-- Indexing leaves the spans alone. -/
lemma spans_foldl_index (ps : List (SpanEntry × ℕ)) (s : SpanStore) :
    (ps.foldl (SpanStore.index hash) s).spans = s.spans ∧
      (ps.foldl (SpanStore.index hash) s).memWatermarks = s.memWatermarks := by
  induction ps generalizing s with
  | nil => exact ⟨rfl, rfl⟩
  | cons p ps ih =>
    rw [List.foldl_cons, (ih _).1, (ih _).2, SpanStore.index]
    split_ifs <;> exact ⟨rfl, rfl⟩

lemma spans_reindex (s : SpanStore) : (s.reindex hash).spans = s.spans := (spans_foldl_index ..).1

lemma memWatermarks_reindex (s : SpanStore) : (s.reindex hash).memWatermarks = s.memWatermarks :=
  (spans_foldl_index ..).2

/-- Behind a rebuild the positions are those of the spans, if no memory refers to a tombstone. -/
lemma adjacent_reindex {s : SpanStore} {known : ℕ → Prop} (h : SpansOk s.spans known) :
    Adjacent (s.reindex hash).spans (s.reindex hash).memAdjacency := by
  intro m i
  have hmem : i ∈ ((s.reindex hash).memAdjacency m).getD [] ↔
      i ∈ ([] : List ℕ) ∨ ∃ e, (e, i) ∈ s.spans.zipIdx ∧ e.text ≠ [] ∧ m ∈ e.memRefs :=
    mem_foldl_index ..
  rw [hmem, spans_reindex]
  constructor
  · rintro (h | ⟨e, he, -, hm⟩)
    · exact absurd h List.not_mem_nil
    · exact ⟨e, List.mk_mem_zipIdx_iff_getElem?.mp he, hm⟩
  · rintro ⟨e, he, hm⟩
    refine Or.inr ⟨e, List.mk_mem_zipIdx_iff_getElem?.mpr he, fun htext => ?_, hm⟩
    rw [h.bare i e he htext] at hm
    exact absurd hm List.not_mem_nil

/-! ## Inserting atoms -/

section Adjacency

variable {spans : List SpanEntry} {adj : ℕ → Option (List ℕ)} {i m : ℕ} {e e' : SpanEntry}

/-- A span changes, and not its memories. -/
lemma Adjacent.set (h : Adjacent spans adj) (hi : spans[i]? = some e)
    (hrefs : e'.memRefs = e.memRefs) : Adjacent (spans.set i e') adj := by
  intro m j
  rw [h m j]
  by_cases hij : i = j
  · subst hij
    simp [getElem?_set_some hi, hi, hrefs]
  · simp [getElem?_set_some hi, hij]

/-- A span gets a memory. -/
lemma Adjacent.set_link (h : Adjacent spans adj) (hi : spans[i]? = some e)
    (hrefs : e'.memRefs = e.memRefs ++ [m]) :
    Adjacent (spans.set i e') (Function.update adj m (some ((adj m).getD [] ++ [i]))) := by
  intro m' j
  by_cases hm : m' = m
  · subst hm
    rw [Function.update_self, Option.getD_some, List.mem_append, h m' j, List.mem_singleton]
    by_cases hij : i = j
    · subst hij
      simp [getElem?_set_some hi, hrefs]
    · have hji : j ≠ i := fun hji => hij hji.symm
      simp [getElem?_set_some hi, hij, hji]
  · rw [Function.update_of_ne hm, h m' j]
    by_cases hij : i = j
    · subst hij
      simp [getElem?_set_some hi, hi, hrefs, hm]
    · simp [getElem?_set_some hi, hij]

/-- A span without memories is added. -/
lemma Adjacent.concat (h : Adjacent spans adj) (hrefs : e.memRefs = []) :
    Adjacent (spans ++ [e]) adj := by
  intro m j
  rw [h m j]
  by_cases hj : j = spans.length
  · subst hj
    simp [hrefs]
  · simp [getElem?_concat, hj]

lemma Adjacent.concat_link (h : Adjacent spans adj) (hrefs : e.memRefs = [m]) :
    Adjacent (spans ++ [e])
      (Function.update adj m (some ((adj m).getD [] ++ [spans.length]))) := by
  intro m' j
  by_cases hm : m' = m
  · subst hm
    rw [Function.update_self, Option.getD_some, List.mem_append, h m' j, List.mem_singleton]
    by_cases hj : j = spans.length
    · subst hj
      simp [hrefs]
    · simp [getElem?_concat, hj]
  · rw [Function.update_of_ne hm, h m' j]
    by_cases hj : j = spans.length
    · subst hj
      simp [hrefs, hm]
    · simp [getElem?_concat, hj]

end Adjacency

variable {e : SpanEntry}

/-- What is found by its hash is the atom itself. -/
lemma lookup_eq_some {s : SpanStore} {a : Atom} {i : ℕ} (h : s.lookup hash a = some (i, e)) :
    s.byHash (atomHash hash a) = some i ∧ s.spans[i]? = some e ∧ e.atom = a := by
  unfold SpanStore.lookup at h
  split at h
  · rename_i j hj
    split at h
    · rename_i x hx
      split_ifs at h with hatom
      obtain ⟨rfl, rfl⟩ := Prod.mk.inj (Option.some.inj h)
      exact ⟨hj, hx, Prod.ext hatom.1 hatom.2⟩
    · cases h
  · cases h

lemma addLocator_ne_nil (locs : List Locator) (l : Locator) : addLocator locs l ≠ [] := by
  unfold addLocator
  split_ifs with hany hlen
  · intro hnil
    simp [hnil] at hany
  · simp
  · intro hnil
    have hlength := congrArg List.length hnil
    simp only [List.length_eraseIdx, List.length_mergeSort, List.length_append, List.length_singleton,
      List.length_nil] at hlength
    split_ifs at hlength
    omega

/-- What holds of the spans and of the positions that are noted for memories. -/
structure Linked (known : ℕ → Prop) (s : SpanStore) : Prop where
  ok : SpansOk s.spans known
  adjacent : Adjacent s.spans s.memAdjacency

section Inserting

variable {known : ℕ → Prop} {s : SpanStore} {a : Atom}

variable (hash) in
/-- A sighting in a file links no memory. -/
lemma Linked.insertSpan (h : Linked known s) (ha : a.2 ≠ []) (l : Locator) :
    Linked known (s.insertSpan hash a l).1 := by
  unfold SpanStore.insertSpan
  cases hlookup : s.lookup hash a with
  | none =>
    exact ⟨h.ok.concat ha (Or.inl (by simp)) (by simp), h.adjacent.concat rfl⟩
  | some p =>
    obtain ⟨i, e⟩ := p
    obtain ⟨-, hi, -⟩ := lookup_eq_some hlookup
    exact ⟨h.ok.set hi (fun _ => Or.inl (addLocator_ne_nil _ _)) (h.ok.bare i e hi)
      (h.ok.known i e hi), h.adjacent.set hi rfl⟩

lemma links_insertSpan (s : SpanStore) (a : Atom) (l : Locator) (m : ℕ) (b : Atom) :
    Links (s.insertSpan hash a l).1.spans m b ↔ Links s.spans m b := by
  unfold SpanStore.insertSpan
  cases hlookup : s.lookup hash a with
  | none => exact links_concat.trans (by simp)
  | some p =>
    obtain ⟨i, e⟩ := p
    obtain ⟨-, hi, -⟩ := lookup_eq_some hlookup
    exact links_set_iff hi Iff.rfl

variable (hash) in
/-- A sighting in a memory links it. -/
lemma Linked.insertSpanMem {m : ℕ} (h : Linked known s) (ha : a.2 ≠ []) (hm : known m)
    (realmId : ℕ) : Linked known (s.insertSpanMem hash a realmId m).1 := by
  unfold SpanStore.insertSpanMem
  cases hlookup : s.lookup hash a with
  | none =>
    exact ⟨h.ok.concat ha (Or.inr (by simp)) (by simp [hm]), h.adjacent.concat_link rfl⟩
  | some p =>
    obtain ⟨i, e⟩ := p
    obtain ⟨-, hi, rfl⟩ := lookup_eq_some hlookup
    dsimp only
    split_ifs with hmem
    · exact ⟨h.ok.set hi (h.ok.held i e hi) (h.ok.bare i e hi) (h.ok.known i e hi),
        h.adjacent.set hi rfl⟩
    · exact ⟨h.ok.set hi (fun _ => Or.inr (by simp)) (fun hnil => absurd hnil ha)
        (List.forall_mem_append.mpr ⟨h.ok.known i e hi, List.forall_mem_singleton.mpr hm⟩), h.adjacent.set_link hi rfl⟩

/-- A memory has an atom that was inserted for it, and nothing else changes. -/
lemma links_insertSpanMem (s : SpanStore) (a : Atom) (realmId m m' : ℕ) (b : Atom) :
    Links (s.insertSpanMem hash a realmId m).1.spans m' b ↔
      Links s.spans m' b ∨ (m' = m ∧ b = a) := by
  unfold SpanStore.insertSpanMem
  cases hlookup : s.lookup hash a with
  | none =>
    refine links_concat.trans (or_congr_right ?_)
    rw [List.mem_singleton]
    exact and_congr_right fun _ => eq_comm
  | some p =>
    obtain ⟨i, e⟩ := p
    obtain ⟨-, hi, rfl⟩ := lookup_eq_some hlookup
    dsimp only
    split_ifs with hmem
    · have hsame : Links (s.spans.set i { e with realms := addOcc realmId e.realms }) m' b ↔
          Links s.spans m' b := links_set_iff hi Iff.rfl
      refine hsame.trans ⟨Or.inl, fun h => h.elim id ?_⟩
      rintro ⟨rfl, rfl⟩
      exact ⟨i, e, hi, hmem, rfl⟩
    · by_cases hnew : m' = m ∧ b = e.atom
      · obtain ⟨rfl, rfl⟩ := hnew
        refine ⟨fun _ => Or.inr ⟨rfl, rfl⟩, fun _ => (links_set hi).mpr (Or.inl ⟨?_, rfl⟩)⟩
        exact List.mem_concat_self
      · refine (links_set_iff hi ?_).trans ⟨Or.inl, fun h => h.resolve_right hnew⟩
        constructor
        · rintro ⟨hm', rfl⟩
          rcases List.mem_append.mp hm' with hm' | hm'
          · exact ⟨hm', rfl⟩
          · exact absurd ⟨List.mem_singleton.mp hm', rfl⟩ hnew
        · rintro ⟨hm', rfl⟩
          exact ⟨List.mem_append_left _ hm', rfl⟩

end Inserting

/-! ## Unlinking a memory -/

/-- A span without the reference of a memory. -/
def SpanEntry.unref (m : ℕ) (e : SpanEntry) : SpanEntry :=
  { e with memRefs := e.memRefs.filter (· ≠ m) }

/-- A span without the reference of a memory: a tombstone, if nothing else points at it. -/
def SpanEntry.without (m : ℕ) (e : SpanEntry) : SpanEntry :=
  if (e.unref m).isDead ∧ (e.unref m).text ≠ [] then
    { e.unref m with text := [], realms := [], locators := [], memRefs := [] }
  else e.unref m

lemma isDead_iff (htext : e.text ≠ []) : e.isDead = true ↔ e.locators = [] ∧ e.memRefs = [] := by
  simp [SpanEntry.isDead, htext]

lemma spans_dropRef (s : SpanStore) (m i : ℕ) :
    (s.dropRef hash m i).spans = s.spans.modify i (SpanEntry.without m) := by
  refine List.ext_getElem? fun j => ?_
  rw [List.getElem?_modify]
  cases hi : s.spans[i]? with
  | none =>
    simp only [SpanStore.dropRef, hi]
    by_cases hij : i = j
    · subst hij
      simp [hi]
    · simp [hij]
  | some e =>
    have hspans : (s.dropRef hash m i).spans = s.spans.set i (e.without m) := by
      simp only [SpanStore.dropRef, hi]
      by_cases hdead : (e.unref m).isDead ∧ (e.unref m).text ≠ []
      · rw [SpanEntry.without, if_pos hdead]
        exact congrArg SpanStore.spans (if_pos hdead)
      · rw [SpanEntry.without, if_neg hdead]
        exact congrArg SpanStore.spans (if_neg hdead)
    rw [hspans, getElem?_set_some hi]
    by_cases hij : i = j
    · subst hij
      simp [hi]
    · simp [hij]

/-- A function that does no more the second time, at some positions. -/
lemma getElem?_foldl_modify {f : SpanEntry → SpanEntry} (hf : ∀ e, f (f e) = f e) (is : List ℕ)
    (spans : List SpanEntry) (j : ℕ) :
    (is.foldl (fun spans i => spans.modify i f) spans)[j]? =
      if j ∈ is then spans[j]?.map f else spans[j]? := by
  induction is generalizing spans with
  | nil => simp
  | cons i is ih =>
    rw [List.foldl_cons, ih, List.getElem?_modify]
    by_cases hij : i = j
    · subst hij
      cases spans[i]? <;> simp [hf]
    · have hji : j ≠ i := fun h => hij h.symm
      simp [hij, hji]

lemma memRefs_without (m : ℕ) (e : SpanEntry) :
    (e.without m).memRefs = e.memRefs.filter (· ≠ m) := by
  unfold SpanEntry.without
  split_ifs with hdead
  · exact ((isDead_iff hdead.2).mp hdead.1).2.symm
  · rfl

/-- The other memories stay. -/
lemma mem_memRefs_without {m m' : ℕ} : m' ∈ (e.without m).memRefs ↔ m' ≠ m ∧ m' ∈ e.memRefs := by
  rw [memRefs_without, List.mem_filter, decide_eq_true_eq, and_comm]

/-- A span that is no tombstone keeps its atom and the places where it was seen. -/
lemma without_of_text_ne {m : ℕ} (h : (e.without m).text ≠ []) :
    e.without m = e.unref m ∧ ((e.without m).locators ≠ [] ∨ (e.without m).memRefs ≠ []) := by
  unfold SpanEntry.without at h ⊢
  split_ifs at h ⊢ with hdead
  · exact absurd rfl h
  · refine ⟨rfl, ?_⟩
    by_contra hnone
    obtain ⟨hlocators, hrefs⟩ := not_or.mp hnone
    exact hdead ⟨(isDead_iff h).mpr ⟨not_not.mp hlocators, not_not.mp hrefs⟩, h⟩

lemma atom_without {m m' : ℕ} (h : m' ∈ (e.without m).memRefs) : (e.without m).atom = e.atom := by
  unfold SpanEntry.without at h ⊢
  split_ifs at h ⊢
  · exact absurd h List.not_mem_nil
  · rfl

/-- Where a memory does not refer to a span, the span stays as it is, unless it is dead. -/
lemma without_of_notMem {m : ℕ} (hm : m ∉ e.memRefs)
    (hheld : e.text ≠ [] → e.locators ≠ [] ∨ e.memRefs ≠ []) : e.without m = e := by
  have hrefs : e.memRefs.filter (· ≠ m) = e.memRefs :=
    List.filter_eq_self.mpr fun m' hm' => decide_eq_true fun h => hm (h ▸ hm')
  have hsame : e.unref m = e := by
    rw [SpanEntry.unref, hrefs]
  unfold SpanEntry.without
  rw [hsame]
  split_ifs with hdead
  · obtain ⟨hlocators, hnil⟩ := (isDead_iff hdead.2).mp hdead.1
    rcases hheld hdead.2 with h | h
    · exact absurd hlocators h
    · exact absurd hnil h
  · rfl

lemma without_without (m : ℕ) (e : SpanEntry) : (e.without m).without m = e.without m := by
  exact without_of_notMem (fun h => (mem_memRefs_without.mp h).1 rfl)
    fun h => (without_of_text_ne h).2

/-- What dropping references leaves of the rest of the store. -/
lemma foldl_dropRef (m : ℕ) (is : List ℕ) (s : SpanStore) :
    (is.foldl (SpanStore.dropRef hash m) s).spans =
        is.foldl (fun spans i => spans.modify i (SpanEntry.without m)) s.spans ∧
      (is.foldl (SpanStore.dropRef hash m) s).memAdjacency = s.memAdjacency ∧
      (is.foldl (SpanStore.dropRef hash m) s).memWatermarks = s.memWatermarks := by
  induction is generalizing s with
  | nil => exact ⟨rfl, rfl, rfl⟩
  | cons i is ih =>
    obtain ⟨hspans, hadj, hmarks⟩ := ih (s.dropRef hash m i)
    have hrest : (s.dropRef hash m i).memAdjacency = s.memAdjacency ∧
        (s.dropRef hash m i).memWatermarks = s.memWatermarks := by
      unfold SpanStore.dropRef
      split
      · exact ⟨rfl, rfl⟩
      · dsimp only
        split_ifs <;> exact ⟨rfl, rfl⟩
    rw [List.foldl_cons, List.foldl_cons, hspans, hadj, hmarks, spans_dropRef, hrest.1, hrest.2]
    exact ⟨rfl, rfl, rfl⟩

/-- Unlinking a memory drops its references from all spans. -/
theorem spans_unlinkMemory {known : ℕ → Prop} {s : SpanStore} (h : Linked known s) (m : ℕ) :
    (s.unlinkMemory hash m).1.spans = s.spans.map (SpanEntry.without m) := by
  have hmap : ∀ is : List ℕ, (∀ i e, s.spans[i]? = some e → m ∈ e.memRefs → i ∈ is) →
      is.foldl (fun spans i => spans.modify i (SpanEntry.without m)) s.spans =
        s.spans.map (SpanEntry.without m) := by
    intro is his
    refine List.ext_getElem? fun j => ?_
    rw [getElem?_foldl_modify (without_without m), List.getElem?_map]
    split_ifs with hj
    · rfl
    · cases he : s.spans[j]? with
      | none => rfl
      | some e =>
        have hm : m ∉ e.memRefs := fun hm => hj (his j e he hm)
        rw [Option.map_some, without_of_notMem hm (h.ok.held j e he)]
  unfold SpanStore.unlinkMemory
  cases hadj : s.memAdjacency m with
  | none =>
    refine hmap [] fun i e he hm => ?_
    have hmem := (h.adjacent m i).mpr ⟨e, he, hm⟩
    rwa [hadj] at hmem
  | some indices =>
    dsimp only
    rw [(foldl_dropRef m indices _).1]
    refine hmap indices fun i e he hm => ?_
    have hmem := (h.adjacent m i).mpr ⟨e, he, hm⟩
    rwa [hadj] at hmem

lemma memAdjacency_unlinkMemory (s : SpanStore) (m : ℕ) :
    (s.unlinkMemory hash m).1.memAdjacency = Function.update s.memAdjacency m none := by
  unfold SpanStore.unlinkMemory
  cases hadj : s.memAdjacency m with
  | none => exact (Function.update_eq_self_iff.mpr hadj.symm).symm
  | some indices => exact (foldl_dropRef m indices _).2.1

lemma memWatermarks_unlinkMemory (s : SpanStore) (m : ℕ) :
    (s.unlinkMemory hash m).1.memWatermarks = Function.update s.memWatermarks m none := by
  unfold SpanStore.unlinkMemory
  cases hadj : s.memAdjacency m with
  | none => rfl
  | some indices =>
    dsimp only
    rw [(foldl_dropRef m indices _).2.2]

variable (hash) in
/-- A memory that is unlinked is not known any more. -/
lemma Linked.unlinkMemory {known : ℕ → Prop} {s : SpanStore} (h : Linked known s) (m : ℕ) :
    Linked (fun m' => m' ≠ m ∧ known m') (s.unlinkMemory hash m).1 := by
  have hspan : ∀ (i : ℕ) (x : SpanEntry), (s.unlinkMemory hash m).1.spans[i]? = some x ↔
      ∃ e, s.spans[i]? = some e ∧ SpanEntry.without m e = x := by
    intro i x
    rw [spans_unlinkMemory h, List.getElem?_map, Option.map_eq_some_iff]
  refine ⟨⟨fun i x hx => ?_, fun i x hx htext => ?_, fun i x hx m' hm' => ?_⟩, fun m' i => ?_⟩
  · obtain ⟨e, -, rfl⟩ := (hspan i x).mp hx
    exact fun htext => (without_of_text_ne htext).2
  · obtain ⟨e, he, rfl⟩ := (hspan i x).mp hx
    by_cases hnil : e.text = []
    · rw [memRefs_without, h.ok.bare i e he hnil]
      rfl
    · by_contra hne
      obtain ⟨m', hm'⟩ := List.exists_mem_of_ne_nil _ hne
      have hatom := congrArg Prod.snd (atom_without hm')
      exact hnil (hatom.symm.trans htext)
  · obtain ⟨e, he, rfl⟩ := (hspan i x).mp hx
    obtain ⟨hne, hmem⟩ := mem_memRefs_without.mp hm'
    exact ⟨hne, h.ok.known i e he m' hmem⟩
  · rw [memAdjacency_unlinkMemory]
    by_cases hm : m' = m
    · subst hm
      rw [Function.update_self]
      refine ⟨fun hnil => absurd hnil List.not_mem_nil, ?_⟩
      rintro ⟨x, hx, hmem⟩
      obtain ⟨e, -, rfl⟩ := (hspan i x).mp hx
      exact absurd rfl (mem_memRefs_without.mp hmem).1
    · rw [Function.update_of_ne hm, h.adjacent m' i]
      constructor
      · rintro ⟨e, he, hmem⟩
        exact ⟨_, (hspan i _).mpr ⟨e, he, rfl⟩, mem_memRefs_without.mpr ⟨hm, hmem⟩⟩
      · rintro ⟨x, hx, hmem⟩
        obtain ⟨e, he, rfl⟩ := (hspan i x).mp hx
        exact ⟨e, he, (mem_memRefs_without.mp hmem).2⟩

/-- Its links go, and no others. -/
lemma links_unlinkMemory {known : ℕ → Prop} {s : SpanStore} (h : Linked known s) (m m' : ℕ)
    (a : Atom) : Links (s.unlinkMemory hash m).1.spans m' a ↔ m' ≠ m ∧ Links s.spans m' a := by
  rw [spans_unlinkMemory h]
  constructor
  · rintro ⟨i, x, hx, hmem, rfl⟩
    rw [List.getElem?_map] at hx
    obtain ⟨e, he, rfl⟩ := Option.map_eq_some_iff.mp hx
    obtain ⟨hne, hmem'⟩ := mem_memRefs_without.mp hmem
    exact ⟨hne, i, e, he, hmem', (atom_without hmem).symm⟩
  · rintro ⟨hne, i, e, he, hmem, rfl⟩
    have hmem' := mem_memRefs_without.mpr ⟨hne, hmem⟩
    exact ⟨i, _, by rw [List.getElem?_map, he]; rfl, hmem', atom_without hmem'⟩

/-! ## Texts of memories -/

/-- The spans and marks of memories that were last linked for some texts. -/
structure Traces (u : Unicode) (hash : ℕ → Text → ℕ) (spans : List SpanEntry)
    (marks : ℕ → Option ℕ) (texts : ℕ → Option Text) : Prop where
  ok : SpansOk spans fun m => (texts m).isSome
  marks_eq : ∀ m, marks m = (texts m).map (hash 0)
  atoms : ∀ m a, Links spans m a ↔ ∃ t, texts m = some t ∧ a ∈ SpanStore.storedAtoms u t

/-- A store and its file, with the texts that memories were last linked for, now and in the file. -/
structure Traced where
  disk : SpanDisk
  texts : ℕ → Option Text
  savedTexts : ℕ → Option Text

namespace Traced

variable (u : Unicode) (hash : ℕ → Text → ℕ)

def new : Traced := ⟨.new hash, fun _ => none, fun _ => none⟩

/-- One step.  A text is linked unless the memory is marked with its hash. -/
def live (t : Traced) (step : SpanStep) : Traced × List Unit :=
  ({ disk := (t.disk.live u hash step).1
     texts :=
      match step with
      | .ingestMemory m text _ =>
        if t.disk.store.memWatermarks m = some (hash 0 text) then t.texts
        else Function.update t.texts m (some text)
      | .unlinkMemory m => Function.update t.texts m none
      | .reload => t.savedTexts
      | .ingestTranscript .. | .save _ | .query _ => t.texts
     savedTexts :=
      match step with
      | .save true => t.texts
      | _ => t.savedTexts }, [])

end Traced

/-- What holds behind every run. -/
structure TracedOk (u : Unicode) (hash : ℕ → Text → ℕ) (t : Traced) : Prop where
  traces : Traces u hash t.disk.store.spans t.disk.store.memWatermarks t.texts
  adjacent : Adjacent t.disk.store.spans t.disk.store.memAdjacency
  file : ∀ f ∈ t.disk.file, Traces u hash f.spans f.memWatermarks t.savedTexts
  no_file : t.disk.file = none → t.savedTexts = fun _ => none

lemma traces_nil : Traces u hash [] (fun _ => none) fun _ => none := by
  refine ⟨⟨fun i e he => ?_, fun i e he => ?_, fun i e he => ?_⟩, fun _ => rfl, fun m a => ?_⟩
  · simp at he
  · simp at he
  · simp at he
  · refine ⟨?_, ?_⟩
    · rintro ⟨i, e, he, -⟩
      simp at he
    · rintro ⟨t, ht, -⟩
      cases ht

variable {spans : List SpanEntry}

/-- Dropping tombstones changes nothing for memories. -/
lemma Traces.filter {marks : ℕ → Option ℕ} {texts : ℕ → Option Text}
    (h : Traces u hash spans marks texts) :
    Traces u hash (spans.filter (·.text ≠ [])) marks texts := by
  refine ⟨h.ok.filter _, h.marks_eq, fun m a => ?_⟩
  rw [← h.atoms]
  constructor
  · rintro ⟨i, e, he, hm, ha⟩
    obtain ⟨j, hj⟩ := List.mem_iff_getElem?.mp (List.mem_of_mem_filter (List.mem_of_getElem? he))
    exact ⟨j, e, hj, hm, ha⟩
  · rintro ⟨i, e, he, hm, ha⟩
    have htext : e.text ≠ [] := by
      intro hnil
      rw [h.ok.bare i e he hnil] at hm
      exact absurd hm List.not_mem_nil
    have hmem : e ∈ spans.filter (·.text ≠ []) :=
      List.mem_filter.mpr ⟨List.mem_of_getElem? he, decide_eq_true htext⟩
    obtain ⟨j, hj⟩ := List.mem_iff_getElem?.mp hmem
    exact ⟨j, e, hj, hm, ha⟩

lemma internRealm_snd (s : SpanStore) (realm : Text) : (s.internRealm realm).2.spans = s.spans ∧
    (s.internRealm realm).2.memAdjacency = s.memAdjacency ∧
    (s.internRealm realm).2.memWatermarks = s.memWatermarks := by
  unfold SpanStore.internRealm
  split <;> exact ⟨rfl, rfl, rfl⟩

lemma internSession_snd (s : SpanStore) (session : Text) :
    (s.internSession session).2.spans = s.spans ∧
      (s.internSession session).2.memAdjacency = s.memAdjacency ∧
      (s.internSession session).2.memWatermarks = s.memWatermarks := by
  unfold SpanStore.internSession
  split <;> exact ⟨rfl, rfl, rfl⟩

lemma memWatermarks_insertSpan (s : SpanStore) (a : Atom) (l : Locator) :
    (s.insertSpan hash a l).1.memWatermarks = s.memWatermarks := by
  unfold SpanStore.insertSpan
  split <;> rfl

lemma memWatermarks_insertSpanMem (s : SpanStore) (a : Atom) (realmId m : ℕ) :
    (s.insertSpanMem hash a realmId m).1.memWatermarks = s.memWatermarks := by
  unfold SpanStore.insertSpanMem
  split
  · split_ifs <;> rfl
  · rfl

/-- Transcripts change nothing for memories. -/
lemma keeps_traces (marks : ℕ → Option ℕ) (texts : ℕ → Option Text) :
    Keeps u hash (·.2 ≠ []) fun s =>
      Traces u hash s.spans marks texts ∧ Adjacent s.spans s.memAdjacency ∧ s.memWatermarks = marks where
  realm s realm h := by
    obtain ⟨hspans, hadj, hmarks⟩ := internRealm_snd s realm
    rw [hspans, hadj, hmarks]
    exact h
  session s session h := by
    obtain ⟨hspans, hadj, hmarks⟩ := internSession_snd s session
    rw [hspans, hadj, hmarks]
    exact h
  insert s a l ha h := by
    obtain ⟨htraces, hadjacent, hmarks⟩ := h
    have hlinked := Linked.insertSpan hash ⟨htraces.ok, hadjacent⟩ ha l
    exact ⟨⟨hlinked.ok, htraces.marks_eq, fun m b => (links_insertSpan ..).trans (htraces.atoms m b)⟩,
      hlinked.adjacent, (memWatermarks_insertSpan ..).trans hmarks⟩
  marks s _ _ h := h

variable (hash) in
/-- Atoms that are inserted for a memory are what it has more. -/
lemma foldl_insertSpanMem {known : ℕ → Prop} {m : ℕ} (hm : known m) (realmId : ℕ)
    {atoms : List Atom} (hatoms : ∀ a ∈ atoms, a.2 ≠ []) {s : SpanStore} (h : Linked known s) :
    let s' := atoms.foldl (fun s a => (s.insertSpanMem hash a realmId m).1) s
    Linked known s' ∧ s'.memWatermarks = s.memWatermarks ∧
      ∀ m' b, Links s'.spans m' b ↔ Links s.spans m' b ∨ (m' = m ∧ b ∈ atoms) := by
  induction atoms generalizing s with
  | nil => exact ⟨h, rfl, fun m' b => by simp⟩
  | cons a atoms ih =>
    obtain ⟨ha, hatoms⟩ := List.forall_mem_cons.mp hatoms
    obtain ⟨hlinked, hmarks, hlinks⟩ := ih hatoms (h.insertSpanMem hash ha hm realmId)
    refine ⟨hlinked, hmarks.trans (memWatermarks_insertSpanMem ..), fun m' b => ?_⟩
    refine (hlinks m' b).trans ?_
    rw [links_insertSpanMem, or_assoc, ← and_or_left, List.mem_cons]

section Memories

variable {s : SpanStore} {texts : ℕ → Option Text}

/-- It leaves no trace. -/
lemma Traces.unlinkMemory (h : Traces u hash s.spans s.memWatermarks texts)
    (hadjacent : Adjacent s.spans s.memAdjacency) (m : ℕ) :
    Traces u hash (s.unlinkMemory hash m).1.spans (s.unlinkMemory hash m).1.memWatermarks
        (Function.update texts m none) ∧
      Adjacent (s.unlinkMemory hash m).1.spans (s.unlinkMemory hash m).1.memAdjacency := by
  have hbefore : Linked (fun m' => (texts m').isSome) s := ⟨h.ok, hadjacent⟩
  have hlinked := hbefore.unlinkMemory hash m
  refine ⟨⟨hlinked.ok.mono fun m' hm' => ?_, fun m' => ?_, fun m' a => ?_⟩, hlinked.adjacent⟩
  · rw [Function.update_of_ne hm'.1]
    exact hm'.2
  · rw [memWatermarks_unlinkMemory]
    by_cases hm : m' = m
    · subst hm
      simp
    · rw [Function.update_of_ne hm, Function.update_of_ne hm, h.marks_eq]
  · rw [links_unlinkMemory hbefore, h.atoms]
    by_cases hm : m' = m
    · subst hm
      simp
    · simp [hm]

/-- A memory whose text is ingested is linked for it, unless it is marked with the hash of it. -/
lemma Traces.ingestMemory (h : Traces u hash s.spans s.memWatermarks texts)
    (hadjacent : Adjacent s.spans s.memAdjacency) (m : ℕ) (text realm : Text) :
    Traces u hash (s.ingestMemory u hash m text realm).1.spans
        (s.ingestMemory u hash m text realm).1.memWatermarks
        (if s.memWatermarks m = some (hash 0 text) then texts
          else Function.update texts m (some text)) ∧
      Adjacent (s.ingestMemory u hash m text realm).1.spans
        (s.ingestMemory u hash m text realm).1.memAdjacency := by
  unfold SpanStore.ingestMemory
  dsimp only
  by_cases hsame : s.memWatermarks m = some (hash 0 text)
  · rw [if_pos hsame, if_pos hsame]
    exact ⟨h, hadjacent⟩
  rw [if_neg hsame, if_neg hsame]
  set s₁ := if (s.memWatermarks m).isSome = true then (s.unlinkMemory hash m).1 else s with hs₁
  -- before the new atoms come the memory has none
  have hcleared : Traces u hash s₁.spans s₁.memWatermarks (Function.update texts m none) ∧
      Adjacent s₁.spans s₁.memAdjacency := by
    by_cases hmarked : (s.memWatermarks m).isSome = true
    · rw [hs₁, if_pos hmarked]
      exact h.unlinkMemory hadjacent m
    · have hnone : texts m = none := by
        have hmarks := h.marks_eq m
        rw [Option.not_isSome_iff_eq_none.mp hmarked] at hmarks
        exact Option.map_eq_none_iff.mp hmarks.symm
      rw [hs₁, if_neg hmarked, Function.update_eq_self_iff.mpr hnone.symm]
      exact ⟨h, hadjacent⟩
  obtain ⟨hspans, hadj, hmarks⟩ := internRealm_snd s₁ realm
  have hlinked : Linked (fun m' => (Function.update texts m (some text) m').isSome)
      (s₁.internRealm realm).2 := by
    refine ⟨?_, ?_⟩
    · rw [hspans]
      refine hcleared.1.ok.mono fun m' hm' => ?_
      by_cases hm : m' = m
      · subst hm
        simp
      · rwa [Function.update_of_ne hm] at hm' ⊢
    · rw [hspans, hadj]
      exact hcleared.2
  obtain ⟨hlinked', hmarks', hlinks⟩ := foldl_insertSpanMem hash (m := m) (by simp)
    (s₁.internRealm realm).1 (fun a (ha : a ∈ SpanStore.storedAtoms u text) =>
      ne_nil_of_mem_storedAtoms ha) hlinked
  rw [foldl_ingestMemoryAtom]
  refine ⟨⟨hlinked'.ok, fun m' => ?_, fun m' a => ?_⟩, hlinked'.adjacent⟩
  · dsimp only
    by_cases hm : m' = m
    · subst hm
      simp
    · have hmark : s₁.memWatermarks m' = (texts m').map (hash 0) := by
        rw [hcleared.1.marks_eq, Function.update_of_ne hm]
      rw [Function.update_of_ne hm, Function.update_of_ne hm, ← hmark, ← hmarks]
      exact congrFun hmarks' m'
  · refine (hlinks m' a).trans ?_
    rw [hspans, hcleared.1.atoms]
    by_cases hm : m' = m
    · subst hm
      simp
    · simp [hm]

end Memories

/-! ## Runs -/

lemma ne_nil_of_mem_transcriptAtoms {s : SpanStore} {path : Text}
    {file : Option SpanStore.TranscriptFile} {a : Atom} (h : a ∈ s.transcriptAtoms u path file) :
    a.2 ≠ [] := by
  cases file with
  | none => exact absurd h List.not_mem_nil
  | some f =>
    obtain ⟨line, -, ha⟩ := List.mem_flatMap.mp h
    exact ne_nil_of_mem_storedAtoms (List.mem_of_mem_take ha)

/-- Compaction drops dead spans only. -/
lemma Traces.maybeCompact {s : SpanStore} {texts : ℕ → Option Text}
    (h : Traces u hash s.spans s.memWatermarks texts)
    (hadjacent : Adjacent s.spans s.memAdjacency) :
    Traces u hash (s.maybeCompact hash).spans (s.maybeCompact hash).memWatermarks texts ∧
      Adjacent (s.maybeCompact hash).spans (s.maybeCompact hash).memAdjacency := by
  unfold SpanStore.maybeCompact
  dsimp only
  split_ifs
  · exact ⟨h, hadjacent⟩
  · refine ⟨?_, adjacent_reindex (h.ok.filter _)⟩
    rw [spans_reindex, memWatermarks_reindex]
    exact h.filter

/-- A load has the traces of the file. -/
lemma Traces.load {file : Option SavedSpans} {texts : ℕ → Option Text}
    (h : ∀ f ∈ file, Traces u hash f.spans f.memWatermarks texts)
    (hnone : file = none → texts = fun _ => none) :
    Traces u hash (SpanStore.load hash file).spans (SpanStore.load hash file).memWatermarks texts ∧
      Adjacent (SpanStore.load hash file).spans (SpanStore.load hash file).memAdjacency := by
  have hf : Traces u hash (file.getD ⟨[], [], [], fun _ => none, fun _ => none⟩).spans
      (file.getD ⟨[], [], [], fun _ => none, fun _ => none⟩).memWatermarks texts := by
    cases file with
    | none => exact hnone rfl ▸ traces_nil
    | some f => exact h f rfl
  refine ⟨?_, adjacent_reindex hf.ok⟩
  rw [SpanStore.load, spans_reindex, memWatermarks_reindex]
  exact hf

lemma ensureTrigram_eq (s : SpanStore) : (s.ensureTrigram u).spans = s.spans ∧
    (s.ensureTrigram u).memAdjacency = s.memAdjacency ∧
    (s.ensureTrigram u).memWatermarks = s.memWatermarks := by
  unfold SpanStore.ensureTrigram
  dsimp only
  split_ifs <;> exact ⟨rfl, rfl, rfl⟩

lemma tracedOk_new : TracedOk u hash (Traced.new hash) := by
  have hload : Traces u hash (SpanStore.load hash none).spans
        (SpanStore.load hash none).memWatermarks (fun _ => none) ∧
      Adjacent (SpanStore.load hash none).spans (SpanStore.load hash none).memAdjacency :=
    Traces.load (by simp) fun _ => rfl
  exact ⟨hload.1, hload.2, by simp [Traced.new, SpanDisk.new], fun _ => rfl⟩

/-- A step keeps the traces right. -/
lemma TracedOk.live {t : Traced} (h : TracedOk u hash t) (step : SpanStep) :
    TracedOk u hash (t.live u hash step).1 := by
  cases step with
  | ingestMemory m text realm =>
    obtain ⟨htraces, hadjacent⟩ := h.traces.ingestMemory h.adjacent m text realm
    exact ⟨htraces, hadjacent, h.file, h.no_file⟩
  | unlinkMemory m =>
    obtain ⟨htraces, hadjacent⟩ := h.traces.unlinkMemory h.adjacent m
    exact ⟨htraces, hadjacent, h.file, h.no_file⟩
  | ingestTranscript path file =>
    obtain ⟨htraces, hadjacent, hmarks⟩ := (keeps_traces _ _).ingestTranscript
      ⟨h.traces, h.adjacent, rfl⟩ path file fun a ha => ne_nil_of_mem_transcriptAtoms ha
    exact ⟨hmarks ▸ htraces, hadjacent, h.file, h.no_file⟩
  | save written =>
    obtain ⟨htraces, hadjacent⟩ := h.traces.maybeCompact h.adjacent
    cases written with
    | false => exact ⟨htraces, hadjacent, h.file, h.no_file⟩
    | true =>
      refine ⟨htraces, hadjacent, fun f hf => ?_, fun hnone => by cases hnone⟩
      obtain rfl := Option.some.inj hf
      exact htraces
  | reload =>
    obtain ⟨htraces, hadjacent⟩ := Traces.load h.file h.no_file
    exact ⟨htraces, hadjacent, h.file, h.no_file⟩
  | query q =>
    have hquery : Traces u hash (t.live u hash (.query q)).1.disk.store.spans
          (t.live u hash (.query q)).1.disk.store.memWatermarks t.texts ∧
        Adjacent (t.live u hash (.query q)).1.disk.store.spans
          (t.live u hash (.query q)).1.disk.store.memAdjacency := by
      obtain ⟨hspans, hadj, hmarks⟩ := ensureTrigram_eq (u := u) t.disk.store
      simp only [Traced.live, SpanDisk.live]
      split_ifs
      · exact ⟨h.traces, h.adjacent⟩
      · rw [hspans, hadj, hmarks]
        exact ⟨h.traces, h.adjacent⟩
    exact ⟨hquery.1, hquery.2, h.file, h.no_file⟩

/-! ## Hits -/

section Hits

variable {F : Type*} {scoring : SpanStore.Scoring F} {now : ℤ} {s : SpanStore}

variable {h : SpanStore.SpanHit F}

lemma mem_best {hits : List (SpanStore.SpanHit F)} {k : ℕ} (hmem : h ∈ SpanStore.best scoring hits k) :
    h ∈ hits :=
  List.mem_mergeSort.mp (List.mem_of_mem_take hmem)

/-- A hit is of a span that is no tombstone. -/
lemma exists_of_mem_search {q : Text} {realm : Option Text} {k : ℕ}
    {candidates : SpanStore → Text → List ℕ} (hmem : h ∈ s.search u scoring now q realm k candidates) :
    ∃ e ∈ s.spans, e.text ≠ [] ∧ h.text = e.text ∧ h.cls = e.cls ∧ h.memoryIds = e.memRefs := by
  unfold SpanStore.search at hmem
  dsimp only at hmem
  split_ifs at hmem
  · exact absurd hmem List.not_mem_nil
  · exact absurd hmem List.not_mem_nil
  · obtain ⟨i, -, hi⟩ := List.mem_filterMap.mp (mem_best hmem)
    obtain ⟨e, he, hhit⟩ := Option.bind_eq_some_iff.mp hi
    unfold SpanStore.hit at hhit
    dsimp only at hhit
    split_ifs at hhit with htext
    obtain rfl := Option.some.inj hhit
    exact ⟨e, List.mem_of_getElem? he, htext, rfl, rfl, rfl⟩

/-- A hit is a span of the store. -/
lemma exists_of_mem_query {q : Text} {realm : Option Text} {k : ℕ}
    (hmem : h ∈ (s.query u scoring now q realm k).1) :
    ∃ e ∈ s.spans, e.text ≠ [] ∧ h.text = e.text ∧ h.cls = e.cls ∧ h.memoryIds = e.memRefs := by
  unfold SpanStore.query at hmem
  dsimp only at hmem
  split_ifs at hmem
  · exact absurd hmem List.not_mem_nil
  · have hspans := (ensureTrigram_eq (u := u) s).1
    exact hspans ▸ exists_of_mem_search hmem

/-- So is a hit of a memory, and the memory refers to the span. -/
lemma exists_of_mem_spansForMemory {m k : ℕ} (hadjacent : Adjacent s.spans s.memAdjacency)
    (hmem : h ∈ s.spansForMemory scoring m k) :
    ∃ e ∈ s.spans, e.text ≠ [] ∧ m ∈ e.memRefs ∧ h.text = e.text ∧ h.cls = e.cls := by
  obtain ⟨i, hi, hhit⟩ := List.mem_filterMap.mp (mem_best hmem)
  obtain ⟨e, he, rfl⟩ := Option.map_eq_some_iff.mp hhit
  obtain ⟨he, htext⟩ := Option.filter_eq_some_iff.mp he
  obtain ⟨e', he', hm⟩ := (hadjacent m i).mp hi
  obtain rfl := Option.some.inj (he.symm.trans he')
  exact ⟨e, List.mem_of_getElem? he, of_decide_eq_true htext, hm, rfl, rfl⟩

end Hits

/-! ## Spans of one atom -/

/-- The atoms of spans are of a kind, and no two spans have one hash. -/
structure Separate (hash : ℕ → Text → ℕ) (kind : Atom → Prop) (spans : List SpanEntry) : Prop where
  within : ∀ (i : ℕ) (e : SpanEntry), spans[i]? = some e → e.text ≠ [] → kind e.atom
  apart : spans.Pairwise fun e e' =>
    e.text ≠ [] → e'.text ≠ [] → atomHash hash e.atom ≠ atomHash hash e'.atom

/-- The atoms of spans are of a kind, and every span is found by its hash. -/
structure Hashed (hash : ℕ → Text → ℕ) (kind : Atom → Prop) (s : SpanStore) : Prop where
  within : ∀ (i : ℕ) (e : SpanEntry), s.spans[i]? = some e → e.text ≠ [] → kind e.atom
  found : ∀ (i : ℕ) (e : SpanEntry), s.spans[i]? = some e → e.text ≠ [] →
    s.byHash (atomHash hash e.atom) = some i

section Hashing

variable {kind : Atom → Prop} {s : SpanStore}

lemma Hashed.separate (h : Hashed hash kind s) : Separate hash kind s.spans := by
  refine ⟨h.within, List.pairwise_iff_getElem.mpr fun i j hi hj hij htext htext' hhash => ?_⟩
  have hfound := h.found i _ (List.getElem?_eq_getElem hi) htext
  rw [hhash, h.found j _ (List.getElem?_eq_getElem hj) htext'] at hfound
  exact absurd (Option.some.inj hfound) (by omega)

/-- Spans that have one hash are one span. -/
lemma Separate.eq_of_hash (h : Separate hash kind spans) {i j : ℕ} {e e' : SpanEntry}
    (he : spans[i]? = some e) (he' : spans[j]? = some e') (htext : e.text ≠ [])
    (htext' : e'.text ≠ []) (hhash : atomHash hash e.atom = atomHash hash e'.atom) : i = j := by
  obtain ⟨hi, rfl⟩ := List.getElem?_eq_some_iff.mp he
  obtain ⟨hj, rfl⟩ := List.getElem?_eq_some_iff.mp he'
  have hpairs := List.pairwise_iff_getElem.mp h.apart
  rcases Nat.lt_trichotomy i j with hij | hij | hij
  · exact absurd hhash (hpairs i j hi hj hij htext htext')
  · exact hij
  · exact absurd hhash.symm (hpairs j i hj hi hij htext' htext)

lemma Separate.filter (h : Separate hash kind spans) :
    Separate hash kind (spans.filter (·.text ≠ [])) := by
  refine ⟨fun i e he => ?_, h.apart.filter _⟩
  obtain ⟨j, hj⟩ := List.mem_iff_getElem?.mp (List.mem_of_mem_filter (List.mem_of_getElem? he))
  exact h.within j e hj

/-- What indexing spans leaves for a hash that the spans with it have one position for. -/
lemma byHash_foldl_index (ps : List (SpanEntry × ℕ)) (s : SpanStore) {x i : ℕ}
    (hone : ∀ p ∈ ps, p.1.text ≠ [] → atomHash hash p.1.atom = x → p.2 = i)
    (hsome : s.byHash x = some i ∨ ∃ p ∈ ps, p.1.text ≠ [] ∧ atomHash hash p.1.atom = x) :
    (ps.foldl (SpanStore.index hash) s).byHash x = some i := by
  induction ps generalizing s with
  | nil => exact hsome.resolve_right (by simp)
  | cons p ps ih =>
    obtain ⟨hp, hps⟩ := List.forall_mem_cons.mp hone
    refine ih (s.index hash p) hps ?_
    rw [SpanStore.index]
    by_cases htext : p.1.text = []
    · rw [if_pos htext]
      refine hsome.imp_right ?_
      rintro ⟨p', hp', htext', hx⟩
      rcases List.mem_cons.mp hp' with rfl | hp'
      · exact absurd htext htext'
      · exact ⟨p', hp', htext', hx⟩
    · rw [if_neg htext]
      by_cases hx : atomHash hash p.1.atom = x
      · left
        rw [← hp htext hx, ← hx]
        exact Function.update_self ..
      · dsimp only
        rw [Function.update_of_ne (Ne.symm hx)]
        refine hsome.imp_right ?_
        rintro ⟨p', hp', htext', hx'⟩
        rcases List.mem_cons.mp hp' with rfl | hp'
        · exact absurd hx' hx
        · exact ⟨p', hp', htext', hx'⟩

/-- Spans that are apart have hashes of their own. -/
lemma Separate.reindex (h : Separate hash kind s.spans) : Hashed hash kind (s.reindex hash) := by
  refine ⟨fun i e he => ?_, fun i e he htext => ?_⟩
  · rw [spans_reindex] at he
    exact h.within i e he
  · rw [spans_reindex] at he
    refine byHash_foldl_index _ _ ?_ (Or.inr ⟨(e, i), List.mk_mem_zipIdx_iff_getElem?.mpr he, htext, rfl⟩)
    rintro ⟨e', j⟩ hp htext' hhash
    exact h.eq_of_hash (List.mk_mem_zipIdx_iff_getElem?.mp hp) he htext' htext hhash

lemma lookup_of_found {a : Atom} {i : ℕ} (hfound : s.byHash (atomHash hash a) = some i)
    (he : s.spans[i]? = some e) (ha : e.atom = a) : s.lookup hash a = some (i, e) := by
  unfold SpanStore.lookup
  rw [hfound]
  dsimp only
  rw [he]
  exact if_pos ⟨congrArg Prod.fst ha, congrArg Prod.snd ha⟩

lemma Hashed.set (h : Hashed hash kind s) {i : ℕ} {e e' : SpanEntry} (hi : s.spans[i]? = some e)
    (hatom : e'.atom = e.atom) {adj : ℕ → Option (List ℕ)} :
    Hashed hash kind { s with spans := s.spans.set i e', memAdjacency := adj } := by
  have htext : e'.text = e.text := congrArg Prod.snd hatom
  refine ⟨fun j x hx => ?_, fun j x hx => ?_⟩
  all_goals
    dsimp only at hx
    rw [getElem?_set_some hi] at hx
    split_ifs at hx with hij
  · obtain rfl := Option.some.inj hx
    rw [hatom, htext]
    exact h.within i e hi
  · exact h.within j x hx
  · obtain rfl := Option.some.inj hx
    rw [hatom, htext, ← hij]
    exact h.found i e hi
  · exact h.found j x hx

/-- A new atom gets its hash. -/
lemma Hashed.push (hinj : ∀ a b, kind a → kind b → atomHash hash a = atomHash hash b → a = b)
    (h : Hashed hash kind s) (hkind : kind e.atom) (hnone : s.lookup hash e.atom = none)
    {adj : ℕ → Option (List ℕ)} : Hashed hash kind { s.push hash e with memAdjacency := adj } := by
  refine ⟨fun j x hx htext => ?_, fun j x hx htext => ?_⟩
  all_goals
    dsimp only [SpanStore.push] at hx ⊢
    rw [getElem?_concat] at hx
    split_ifs at hx with hj
  · exact Option.some.inj hx ▸ hkind
  · exact h.within j x hx htext
  · obtain rfl := Option.some.inj hx
    rw [hj, Function.update_self]
  · have hne : atomHash hash x.atom ≠ atomHash hash e.atom := by
      intro hhash
      have hatom := hinj _ _ (h.within j x hx htext) hkind hhash
      have hfound := h.found j x hx htext
      rw [hatom] at hfound
      rw [lookup_of_found hfound hx hatom] at hnone
      cases hnone
    rw [Function.update_of_ne hne]
    exact h.found j x hx htext

lemma Hashed.dropRef (h : Hashed hash kind s) (m i : ℕ) : Hashed hash kind (s.dropRef hash m i) := by
  unfold SpanStore.dropRef
  cases hi : s.spans[i]? with
  | none => exact h
  | some e =>
    dsimp only
    split_ifs with hdead
    · refine ⟨fun j x hx htext => ?_, fun j x hx htext => ?_⟩
      all_goals
        dsimp only at hx ⊢
        rw [getElem?_set_some hi] at hx
        split_ifs at hx with hij
      · exact absurd (congrArg SpanEntry.text (Option.some.inj hx)).symm htext
      · exact h.within j x hx htext
      · exact absurd (congrArg SpanEntry.text (Option.some.inj hx)).symm htext
      · have hne : atomHash hash x.atom ≠ atomHash hash e.atom := by
          intro hhash
          have hfound := h.found j x hx htext
          rw [hhash, h.found i e hi hdead.2] at hfound
          exact hij (Option.some.inj hfound)
        exact (Function.update_of_ne hne ..).trans (h.found j x hx htext)
    · refine h.set hi ?_
      rfl

/-- Where hashes of atoms of a kind differ, everything that is ingested or unlinked keeps the spans
found by their hashes. -/
lemma keepsAll_hashed (hinj : ∀ a b, kind a → kind b → atomHash hash a = atomHash hash b → a = b) :
    KeepsAll u hash kind (Hashed hash kind) where
  realm s realm h := by
    unfold SpanStore.internRealm
    split <;> exact ⟨h.within, h.found⟩
  session s session h := by
    unfold SpanStore.internSession
    split <;> exact ⟨h.within, h.found⟩
  insert s a l ha h := by
    unfold SpanStore.insertSpan
    cases hlookup : s.lookup hash a with
    | none =>
      refine h.push hinj ?_ ?_
      · exact ha
      · exact hlookup
    | some p =>
      obtain ⟨i, e⟩ := p
      refine h.set (lookup_eq_some hlookup).2.1 ?_
      rfl
  marks s _ _ h := ⟨h.within, h.found⟩
  insertMem s a realmId m ha h := by
    unfold SpanStore.insertSpanMem
    cases hlookup : s.lookup hash a with
    | none =>
      refine h.push hinj ?_ ?_
      · exact ha
      · exact hlookup
    | some p =>
      obtain ⟨i, e⟩ := p
      have hi := (lookup_eq_some hlookup).2.1
      dsimp only
      split_ifs
      · refine h.set hi ?_
        rfl
      · refine h.set hi ?_
        rfl
  drop s m i h := h.dropRef m i
  adjacency s _ h := ⟨h.within, h.found⟩
  memMarks s _ _ h := ⟨h.within, h.found⟩

end Hashing

/-- The atoms that a step stores. -/
def Traced.stepAtoms (u : Unicode) (t : Traced) : SpanStep → List Atom
  | .ingestMemory _ text _ => SpanStore.storedAtoms u text
  | .ingestTranscript path file => t.disk.store.transcriptAtoms u path file
  | .unlinkMemory _ | .save _ | .reload | .query _ => []

/-- The spans of a store are found by their hashes, and those of its file are separate. -/
structure HashedDisk (hash : ℕ → Text → ℕ) (kind : Atom → Prop) (d : SpanDisk) : Prop where
  store : Hashed hash kind d.store
  file : ∀ f ∈ d.file, Separate hash kind f.spans

lemma hashedDisk_new {kind : Atom → Prop} : HashedDisk hash kind (SpanDisk.new hash) := by
  have hnil : Separate hash kind [] := ⟨fun i e he => by simp at he, List.Pairwise.nil⟩
  exact ⟨Separate.reindex hnil, by simp [SpanDisk.new]⟩

/-- A step, of atoms whose hashes do not collide. -/
lemma HashedDisk.live {kind : Atom → Prop}
    (hinj : ∀ a b, kind a → kind b → atomHash hash a = atomHash hash b → a = b) {t : Traced}
    (h : HashedDisk hash kind t.disk) (step : SpanStep) (hkind : ∀ a ∈ t.stepAtoms u step, kind a) :
    HashedDisk hash kind (t.live u hash step).1.disk := by
  have hkeeps := keepsAll_hashed (u := u) hinj
  cases step with
  | ingestMemory m text realm => exact ⟨hkeeps.ingestMemory h.store m text realm hkind, h.file⟩
  | unlinkMemory m => exact ⟨hkeeps.unlinkMemory h.store m, h.file⟩
  | ingestTranscript path file => exact ⟨hkeeps.ingestTranscript h.store path file hkind, h.file⟩
  | save written =>
    have hcompact : Hashed hash kind (t.disk.store.maybeCompact hash) := by
      unfold SpanStore.maybeCompact
      dsimp only
      split_ifs
      · exact h.store
      · exact h.store.separate.filter.reindex
    cases written with
    | false => exact ⟨hcompact, h.file⟩
    | true =>
      refine ⟨⟨hcompact.within, hcompact.found⟩, fun f hf => ?_⟩
      obtain rfl := Option.some.inj hf
      exact hcompact.separate
  | reload =>
    refine ⟨Separate.reindex ?_, h.file⟩
    cases hfile : t.disk.file with
    | none => exact ⟨fun i e he => by simp at he, List.Pairwise.nil⟩
    | some f => exact h.file f hfile
  | query q =>
    refine ⟨?_, h.file⟩
    simp only [Traced.live, SpanDisk.live, SpanStore.ensureTrigram]
    split_ifs <;> exact ⟨h.store.within, h.store.found⟩

/-! ## Edges are exact -/

/-- What holds of the edges, whatever the hash. -/
structure EdgesExact (u : Unicode) (hash : ℕ → Text → ℕ) (t : Traced) : Prop where
  /-- A position is noted for a memory iff the memory is noted for the span there. -/
  both_ways : ∀ m i, i ∈ (t.disk.store.memAdjacency m).getD [] ↔
    ∃ e, t.disk.store.spans[i]? = some e ∧ m ∈ e.memRefs
  /-- A span that is no tombstone was seen or is referred to. -/
  held : ∀ e ∈ t.disk.store.spans, e.text ≠ [] → e.locators ≠ [] ∨ e.memRefs ≠ []
  /-- Tombstones are not returned. -/
  query_live : ∀ (F : Type) (scoring : SpanStore.Scoring F) now q realm k,
    ∀ h ∈ (t.disk.store.query u scoring now q realm k).1,
      ∃ e ∈ t.disk.store.spans, e.text ≠ [] ∧ h.text = e.text ∧ h.cls = e.cls
  memory_live : ∀ (F : Type) (scoring : SpanStore.Scoring F) m k,
    ∀ h ∈ t.disk.store.spansForMemory scoring m k,
      ∃ e ∈ t.disk.store.spans, e.text ≠ [] ∧ m ∈ e.memRefs ∧ h.text = e.text ∧ h.cls = e.cls
  /-- A memory whose text is ingested has the atoms of the text, unless it was last linked for
  another text with the same hash. -/
  ingested : ∀ m text realm, (∀ t', t.texts m = some t' → hash 0 t' = hash 0 text → t' = text) →
    ∀ a, Links (t.disk.store.ingestMemory u hash m text realm).1.spans m a ↔
      a ∈ SpanStore.storedAtoms u text

lemma TracedOk.edgesExact {t : Traced} (h : TracedOk u hash t) : EdgesExact u hash t := by
  refine ⟨h.adjacent, fun e he => ?_, fun F scoring now q realm k hit hhit => ?_,
    fun F scoring m k hit hhit => exists_of_mem_spansForMemory h.adjacent hhit,
    fun m text realm hsame a => ?_⟩
  · obtain ⟨i, hi⟩ := List.mem_iff_getElem?.mp he
    exact h.traces.ok.held i e hi
  · obtain ⟨e, he, htext, heq, hcls, -⟩ := exists_of_mem_query hhit
    exact ⟨e, he, htext, heq, hcls⟩
  · rw [(h.traces.ingestMemory h.adjacent m text realm).1.atoms]
    split_ifs with hskip
    · have hmark := h.traces.marks_eq m
      rw [hskip] at hmark
      obtain ⟨t', ht', hhash⟩ := Option.map_eq_some_iff.mp hmark.symm
      rw [ht', hsame t' ht' hhash]
      simp
    · simp

/-- Behind every run, with any hash, the edges are exact; and where the hash tells the atoms apart
that were stored, no two spans that are no tombstones have the same class and text. -/
theorem edges_exact (u : Unicode) (hash : ℕ → Text → ℕ) (steps : List SpanStep) :
    EdgesExact u hash (Replayed.run (Traced.live u hash) (Traced.new hash) steps).1 ∧
      ∀ kind : Atom → Prop,
        Replayed.All (Traced.live u hash) (fun t step => ∀ a ∈ t.stepAtoms u step, kind a)
          (Traced.new hash) steps →
        (∀ a b, kind a → kind b → atomHash hash a = atomHash hash b → a = b) →
        (Replayed.run (Traced.live u hash) (Traced.new hash) steps).1.disk.store.spans.Pairwise
          fun e e' => e.text ≠ [] → e'.text ≠ [] → e.atom ≠ e'.atom := by
  refine ⟨?_, fun kind hall hinj => ?_⟩
  · exact (Replayed.invariant_always (TracedOk u hash) (fun _ step h => h.live step) tracedOk_new
      steps).edgesExact
  · have hdisk := Replayed.invariant_run (fun t : Traced => HashedDisk hash kind t.disk)
      (fun _ step h hkind => h.live hinj step hkind) hashedDisk_new hall
    refine hdisk.store.separate.apart.imp fun h htext htext' hatom => ?_
    exact h htext htext' (congrArg (atomHash hash) hatom)

/-- A hash of class and text. -/
def spelled (seed : ℕ) (text : Text) : ℕ := text.foldl (fun n c => n * 256 + c.toNat) (seed + 1)

/-- Two memories share a path; one is unlinked from it, and the store is saved and read again. -/
theorem edges_exact_two :
    let t := (Replayed.run (Traced.live Unicode.ascii spelled) (Traced.new spelled)
      [.ingestMemory 1 "/a/b/a /c/d/c".toList [], .ingestMemory 2 "/c/d/c".toList [], .unlinkMemory 1,
        .save true, .reload, .ingestMemory 1 "/a/b/a".toList []]).1
    t.disk.store.spans.map (fun e => (String.ofList e.text, e.memRefs)) =
        [("/c/d/c", [2]), ("/a/b/a", [1])] ∧
      t.disk.store.spans.Pairwise fun e e' => e.text ≠ [] → e'.text ≠ [] → e.atom ≠ e'.atom := by
  refine ⟨by decide +kernel, (edges_exact Unicode.ascii spelled _).2
    (fun a => a ∈ [(.path, "/a/b/a".toList), (.path, "/c/d/c".toList)]) (by decide +kernel) ?_⟩
  have hinj : ∀ a ∈ [(SpanClass.path, "/a/b/a".toList), (.path, "/c/d/c".toList)],
      ∀ b ∈ [(SpanClass.path, "/a/b/a".toList), (.path, "/c/d/c".toList)],
      atomHash spelled a = atomHash spelled b → a = b := by decide +kernel
  exact fun a b ha hb => hinj a ha b hb

/-- With a hash that does not tell texts apart, a memory keeps the atom of its first text. -/
theorem same_hash_is_skipped :
    let text (c : Char) : Text := ['/', c, '/', c, '/', c]
    let t := (Replayed.run (Traced.live Unicode.ascii fun _ _ => 0) (Traced.new fun _ _ => 0)
      [.ingestMemory 1 (text 'a') [], .ingestMemory 1 (text 'x') []]).1
    t.disk.store.spans.map (fun e => (e.atom, e.memRefs)) = [((.path, text 'a'), [1])] ∧
      SpanStore.storedAtoms Unicode.ascii (text 'x') = [(.path, text 'x')] := by
  decide +kernel

end ChittaField.Spans
