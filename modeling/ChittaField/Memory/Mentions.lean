import ChittaField.Memory.Indexes

/-!
# Where the indexes mention a memory

For every index, what it means that it does not mention a memory, and which of its operations bring a
memory in and which take it out.  A removal is complete only because an index that has no entry of a
memory in the one map has none in the other; this is what the consistent indexes are.
-/

namespace ChittaField

variable {F : Type}

/-! ## Words -/

namespace KeywordIndex

variable {T : Casing} {k : KeywordIndex} {id m : MemoryId}

/-- The index does not mention a memory. -/
structure Lacks (k : KeywordIndex) (m : MemoryId) : Prop where
  postings : ∀ term, ∀ p ∈ k.postings term, p.memoryId ≠ m
  docLengths : k.docLengths m = none
  docTerms : k.docTerms m = none

/-- A memory without a length is not mentioned, and its terms are all those that mention it. -/
structure Consistent (k : KeywordIndex) : Prop where
  lacks : ∀ m, k.docLengths m = none → k.Lacks m
  terms : ∀ m terms, k.docTerms m = some terms →
    ∀ term, ∀ p ∈ k.postings term, p.memoryId = m → term ∈ terms

lemma lacks_new (m : MemoryId) : new.Lacks m := ⟨fun _ _ h => (nomatch h), rfl, rfl⟩

lemma consistent_new : new.Consistent :=
  ⟨fun m _ => lacks_new m, fun _ _ h => (nomatch h)⟩

/-- A removal leaves no posting that was not there. -/
lemma mem_postings_remove {term : String} {p : Posting} (h : p ∈ (k.remove id).postings term) :
    p ∈ k.postings term := by
  unfold KeywordIndex.remove at h
  split at h
  · exact h
  · dsimp only at h
    split at h
    · exact List.mem_of_mem_filter h
    · exact h

lemma docLengths_remove : (k.remove id).docLengths = Function.update k.docLengths id none := by
  unfold KeywordIndex.remove
  split
  · rename_i h
    exact (Function.update_eq_self_iff.mpr h.symm).symm
  · rfl

lemma docTerms_remove_of_ne (h : m ≠ id) : (k.remove id).docTerms m = k.docTerms m := by
  unfold KeywordIndex.remove
  split
  · rfl
  · exact Function.update_of_ne h ..

/-- A removal is complete. -/
lemma Consistent.lacks_remove (h : k.Consistent) (id : MemoryId) : (k.remove id).Lacks id := by
  unfold KeywordIndex.remove
  split
  · rename_i hnone
    exact h.lacks id hnone
  · refine ⟨fun term p hp => ?_, Function.update_self .., Function.update_self ..⟩
    dsimp only at hp
    split at hp
    · exact of_decide_eq_true (List.mem_filter.mp hp).2
    · rename_i hall
      rw [Option.all_eq_true] at hall
      push Not at hall
      obtain ⟨terms, hterms, hterm⟩ := hall
      rintro rfl
      exact hterm (decide_eq_true (h.terms _ terms hterms term p hp rfl))

/-- To remove a memory mentions no other. -/
lemma Lacks.remove (h : k.Lacks m) (id : MemoryId) : (k.remove id).Lacks m := by
  refine ⟨fun term p hp => h.postings term p (mem_postings_remove hp), ?_, ?_⟩
  · rw [docLengths_remove]
    by_cases hm : m = id
    · rw [hm, Function.update_self]
    · rw [Function.update_of_ne hm, h.docLengths]
  · by_cases hm : m = id
    · subst hm
      unfold KeywordIndex.remove
      rw [h.docLengths]
      exact h.docTerms
    · rw [docTerms_remove_of_ne hm, h.docTerms]

/-- A removal keeps both sides in step. -/
lemma Consistent.remove (h : k.Consistent) (id : MemoryId) : (k.remove id).Consistent := by
  refine ⟨fun m hm => ?_, fun m terms hterms term p hp hpm => ?_⟩
  · by_cases hid : m = id
    · rw [hid]
      exact h.lacks_remove id
    · rw [docLengths_remove, Function.update_of_ne hid] at hm
      exact (h.lacks m hm).remove id
  · by_cases hid : m = id
    · rw [hid, (h.lacks_remove id).docTerms] at hterms
      cases hterms
    · rw [docTerms_remove_of_ne hid] at hterms
      exact h.terms m terms hterms term p (mem_postings_remove hp) hpm

/-- A text without words removes the memory. -/
lemma index_of_wordless {content : String} (h : tokenize T content = []) :
    k.index T id content = k.remove id := by
  unfold KeywordIndex.index
  rw [h]
  rfl

lemma tokenize_empty : tokenize T "" = [] := by
  have hsplit : ("".toList.splitOnP fun c => !T.isAlphanumeric c) = [[]] :=
    List.splitOnP_nil
  have hnil : T.toLowercase (String.ofList []) = "" := T.toLowercase_empty
  rw [tokenize, hsplit, List.map_singleton, hnil]
  rfl

/-- A posting is new only where the memory that is indexed has the word. -/
lemma mem_postings_index {content term : String} {p : Posting}
    (h : p ∈ (k.index T id content).postings term) :
    p ∈ (k.remove id).postings term ∨ p.memoryId = id ∧ term ∈ tokenize T content := by
  unfold KeywordIndex.index at h
  dsimp only at h
  split at h
  · exact .inl h
  · dsimp only at h
    split at h
    · rename_i hterm
      rcases List.mem_append.mp h with hold | hnew
      · exact .inl hold
      · exact .inr ⟨by rw [List.mem_singleton.mp hnew], hterm⟩
    · exact .inl h

lemma docLengths_index_of_ne {content : String} (h : m ≠ id) :
    (k.index T id content).docLengths m = k.docLengths m := by
  unfold KeywordIndex.index
  dsimp only
  split
  · rw [docLengths_remove, Function.update_of_ne h]
  · dsimp only
    rw [Function.update_of_ne h, docLengths_remove, Function.update_of_ne h]

lemma docTerms_index_of_ne {content : String} (h : m ≠ id) :
    (k.index T id content).docTerms m = k.docTerms m := by
  unfold KeywordIndex.index
  dsimp only
  split
  · exact docTerms_remove_of_ne h
  · exact (Function.update_of_ne h ..).trans (docTerms_remove_of_ne h)

/-- To index a memory mentions no other. -/
lemma Lacks.index (h : k.Lacks m) (hm : m ≠ id) (content : String) :
    (k.index T id content).Lacks m := by
  refine ⟨fun term p hp => ?_, ?_, ?_⟩
  · rcases mem_postings_index hp with hold | ⟨hid, -⟩
    · exact h.postings term p (mem_postings_remove hold)
    · rw [hid]
      exact hm.symm
  · rw [docLengths_index_of_ne hm, h.docLengths]
  · rw [docTerms_index_of_ne hm, h.docTerms]

lemma Consistent.index (h : k.Consistent) (id : MemoryId) (content : String) :
    (k.index T id content).Consistent := by
  by_cases hwords : tokenize T content = []
  · rw [index_of_wordless hwords]
    exact h.remove id
  · have hlen : (tokenize T content).length ≠ 0 := fun hlen => hwords (List.length_eq_zero_iff.mp hlen)
    refine ⟨fun m hm => ?_, fun m terms hterms term p hp hpm => ?_⟩
    · by_cases hid : m = id
      · subst hid
        unfold KeywordIndex.index at hm
        dsimp only at hm
        rw [if_neg hlen] at hm
        exact absurd ((Function.update_self ..).symm.trans hm) (Option.some_ne_none _)
      · rw [docLengths_index_of_ne hid] at hm
        exact (h.lacks m hm).index hid content
    · rcases mem_postings_index hp with hold | ⟨hpid, hterm⟩
      · by_cases hid : m = id
        · subst hid
          exact absurd hpm ((h.lacks_remove _).postings term p hold)
        · rw [docTerms_index_of_ne hid] at hterms
          exact h.terms m terms hterms term p (mem_postings_remove hold) hpm
      · rw [hpid] at hpm
        subst hpm
        unfold KeywordIndex.index at hterms
        dsimp only at hterms
        rw [if_neg hlen] at hterms
        dsimp only at hterms
        rw [Function.update_self, Option.some.injEq] at hterms
        rw [← hterms]
        exact List.mem_dedup.mpr hterm

end KeywordIndex

/-! ## Artifacts -/

namespace ArtifactIndex

variable {a : ArtifactIndex F} {id m : MemoryId}

/-- The index does not mention a memory. -/
structure Lacks (a : ArtifactIndex F) (m : MemoryId) : Prop where
  byPath : ∀ path, ∀ e ∈ a.byPath path, e.memoryId ≠ m
  byMemory : a.byMemory m = none

/-- The paths of a memory are all those that mention it. -/
def Consistent (a : ArtifactIndex F) : Prop :=
  ∀ path, ∀ e ∈ a.byPath path, ∃ paths, a.byMemory e.memoryId = some paths ∧ path ∈ paths

lemma consistent_new : (new : ArtifactIndex F).Consistent := fun _ _ h => (nomatch h)

/-- An entry that is put replaces its like. -/
lemma mem_putEntry {entry e : ArtifactEntry F} {es : List (ArtifactEntry F)}
    (h : e ∈ putEntry entry es) : e = entry ∨ e ∈ es := by
  induction es with
  | nil => exact .inl (List.mem_singleton.mp h)
  | cons x es ih =>
    rw [putEntry] at h
    split at h
    · rcases List.mem_cons.mp h with rfl | h
      · exact .inl rfl
      · exact .inr (List.mem_cons_of_mem _ h)
    · rcases List.mem_cons.mp h with rfl | h
      · exact .inr List.mem_cons_self
      · exact (ih h).imp_right (List.mem_cons_of_mem _)

/-- An association mentions its memory only. -/
lemma Lacks.associate (h : a.Lacks m) (hm : m ≠ id) (artifactId : ArtifactId) (path : String)
    (strength : F) : (a.associate id artifactId path strength).Lacks m := by
  refine ⟨fun path' e he => ?_, ?_⟩
  · unfold ArtifactIndex.associate at he
    dsimp only at he
    by_cases hpath : path' = path
    · subst hpath
      rw [Function.update_self] at he
      rcases mem_putEntry he with rfl | hold
      · exact hm.symm
      · exact h.byPath path' e hold
    · rw [Function.update_of_ne hpath] at he
      exact h.byPath path' e he
  · unfold ArtifactIndex.associate Maps.push
    dsimp only
    rw [Function.update_of_ne hm, h.byMemory]

/-- An association is made on both sides. -/
lemma Consistent.associate (h : a.Consistent) (id : MemoryId) (artifactId : ArtifactId)
    (path : String) (strength : F) : (a.associate id artifactId path strength).Consistent := by
  intro path' e he
  have hgrows : ∀ x paths, a.byMemory x = some paths → path' ∈ paths →
      ∃ paths', (a.associate id artifactId path strength).byMemory x = some paths' ∧
        path' ∈ paths' := by
    intro x paths hx hmem
    unfold ArtifactIndex.associate Maps.push
    dsimp only
    by_cases hxid : x = id
    · subst hxid
      rw [Function.update_self, hx]
      exact ⟨_, rfl, List.mem_append_left _ hmem⟩
    · rw [Function.update_of_ne hxid]
      exact ⟨paths, hx, hmem⟩
  have hold : e ∈ a.byPath path' → ∃ paths',
      (a.associate id artifactId path strength).byMemory e.memoryId = some paths' ∧
        path' ∈ paths' := by
    intro hmem
    obtain ⟨paths, hpaths, hpath⟩ := h path' e hmem
    exact hgrows _ paths hpaths hpath
  by_cases hpath : path' = path
  · subst hpath
    change e ∈ Function.update a.byPath path' _ path' at he
    rw [Function.update_self] at he
    rcases mem_putEntry he with rfl | hmem
    · refine ⟨(a.byMemory id).getD [] ++ [path'], Function.update_self .., ?_⟩
      exact List.mem_append_right _ (List.mem_singleton.mpr rfl)
    · exact hold hmem
  · change e ∈ Function.update a.byPath path _ path' at he
    rw [Function.update_of_ne hpath] at he
    exact hold he

/-- A removal is complete. -/
lemma Consistent.lacks_removeMemory (h : a.Consistent) (id : MemoryId) :
    (a.removeMemory id).Lacks id := by
  unfold ArtifactIndex.removeMemory
  split
  · rename_i hnone
    refine ⟨fun path e he heq => ?_, hnone⟩
    obtain ⟨paths, hpaths, -⟩ := h path e he
    rw [heq, hnone] at hpaths
    cases hpaths
  · rename_i paths hsome
    refine ⟨fun path e he => ?_, Function.update_self ..⟩
    dsimp only at he
    split at he
    · exact of_decide_eq_true (List.mem_filter.mp he).2
    · rename_i hpath
      rintro rfl
      obtain ⟨paths', hpaths', hmem⟩ := h path e he
      rw [hsome, Option.some.injEq] at hpaths'
      rw [← hpaths'] at hmem
      exact hpath hmem

lemma mem_byPath_removeMemory {path : String} {e : ArtifactEntry F}
    (h : e ∈ (a.removeMemory id).byPath path) : e ∈ a.byPath path := by
  unfold ArtifactIndex.removeMemory at h
  split at h
  · exact h
  · dsimp only at h
    split at h
    · exact List.mem_of_mem_filter h
    · exact h

lemma byMemory_removeMemory : (a.removeMemory id).byMemory = Function.update a.byMemory id none := by
  unfold ArtifactIndex.removeMemory
  split
  · rename_i h
    exact (Function.update_eq_self_iff.mpr h.symm).symm
  · rfl

lemma Lacks.removeMemory (h : a.Lacks m) (id : MemoryId) : (a.removeMemory id).Lacks m := by
  refine ⟨fun path e he => h.byPath path e (mem_byPath_removeMemory he), ?_⟩
  rw [byMemory_removeMemory]
  by_cases hm : m = id
  · rw [hm, Function.update_self]
  · rw [Function.update_of_ne hm, h.byMemory]

lemma Consistent.removeMemory (h : a.Consistent) (id : MemoryId) :
    (a.removeMemory id).Consistent := by
  intro path e he
  have hne : e.memoryId ≠ id := (h.lacks_removeMemory id).byPath path e he
  rw [byMemory_removeMemory, Function.update_of_ne hne]
  exact h path e (mem_byPath_removeMemory he)

end ArtifactIndex

/-! ## Members -/

namespace Members

variable {ms : Members} {key key' : String} {id m : MemoryId}

/-- The keys that a memory is a member of. -/
def keysOf (ms : Members) (m : MemoryId) : Set String := {key | m ∈ (ms key).getD ∅}

lemma getD_insert : (ms.insert key id key').getD ∅ =
    if key' = key then Insert.insert id ((ms key').getD ∅) else (ms key').getD ∅ := by
  unfold Members.insert
  split
  · rename_i h
    rw [h, Function.update_self, Option.getD_some]
  · rename_i h
    rw [Function.update_of_ne h]

lemma getD_remove : (ms.remove key id key').getD ∅ =
    if key' = key then ((ms key').getD ∅).erase id else (ms key').getD ∅ := by
  unfold Members.remove
  by_cases h : key' = key
  · subst h
    rw [if_pos rfl]
    cases hids : ms key' with
    | none =>
      change (ms key').getD ∅ = _
      rw [hids, Option.getD_none, Finset.erase_eq_of_notMem (Finset.notMem_empty id)]
    | some ids =>
      dsimp only
      rw [Function.update_self, Option.getD_some]
      split
      · rename_i hempty
        rw [hempty, Option.getD_none]
      · rw [Option.getD_some]
  · rw [if_neg h]
    cases hids : ms key with
    | none => rfl
    | some ids =>
      dsimp only
      rw [Function.update_of_ne h]

/-- A memory that is listed gets a key, and the others keep theirs. -/
lemma keysOf_insert (ms : Members) (key : String) (id m : MemoryId) :
    (ms.insert key id).keysOf m =
      if id = m then Insert.insert key (ms.keysOf m) else ms.keysOf m := by
  ext key'
  split
  · rename_i h
    subst h
    by_cases hkey : key' = key <;> simp [keysOf, getD_insert, hkey]
  · rename_i h
    by_cases hkey : key' = key <;> simp [keysOf, getD_insert, hkey, Ne.symm h]

/-- It loses the key again. -/
lemma keysOf_remove (ms : Members) (key : String) (id m : MemoryId) :
    (ms.remove key id).keysOf m =
      if id = m then {key' ∈ ms.keysOf m | key' ≠ key} else ms.keysOf m := by
  ext key'
  split
  · rename_i h
    subst h
    by_cases hkey : key' = key <;> simp [keysOf, getD_remove, hkey]
  · rename_i h
    by_cases hkey : key' = key <;> simp [keysOf, getD_remove, hkey, Ne.symm h]

end Members

/-! ## Edges -/

/-- An edge of a memory leads to another. -/
def Points (edges : AssocEdges F) (src m : MemoryId) : Prop :=
  ∃ es, edges src = some es ∧ ∃ e ∈ es, e.dst = m

/-- A new edge points to its end. -/
lemma points_addEdge {edges : AssocEdges F} {src src' m : MemoryId} (e : AssocEdge F) :
    Points (Function.update edges src (some ((edges src).getD [] ++ [e]))) src' m ↔
      Points edges src' m ∨ src' = src ∧ e.dst = m := by
  unfold Points
  by_cases h : src' = src
  · subst h
    cases hes : edges src' <;> simp [or_and_right, exists_or]
  · simp [h]

/-- The edges from a memory go with it. -/
lemma points_removeEdges {edges : AssocEdges F} {id src m : MemoryId} (h : m ≠ id) :
    Points (removeEdges edges id) src m ↔ src ≠ id ∧ Points edges src m := by
  unfold Points removeEdges
  by_cases hsrc : src = id
  · simp [hsrc]
  · simp only [if_neg hsrc, Option.map_eq_some_iff]
    constructor
    · rintro ⟨_, ⟨es, hes, rfl⟩, e, he, rfl⟩
      exact ⟨hsrc, es, hes, e, List.mem_of_mem_filter he, rfl⟩
    · rintro ⟨-, es, hes, e, he, rfl⟩
      exact ⟨_, ⟨es, hes, rfl⟩, e, List.mem_filter.mpr ⟨he, decide_eq_true h⟩, rfl⟩

variable [F32 F]

/-- Strengthening finds an edge, or makes one. -/
lemma exists_strengthenEdges {dst m : MemoryId} (edgeType : EdgeType) (delta : F)
    (es : List (AssocEdge F)) :
    (∃ e ∈ strengthenEdges dst edgeType delta es, e.dst = m) ↔ (∃ e ∈ es, e.dst = m) ∨ dst = m := by
  induction es with
  | nil => simp [strengthenEdges]
  | cons e es ih =>
    rw [strengthenEdges]
    split
    · rename_i h
      simp only [List.exists_mem_cons_iff, ← h.1]
      exact (or_iff_left_of_imp Or.inl).symm
    · rw [List.exists_mem_cons_iff, ih, List.exists_mem_cons_iff, or_assoc]

/-- Strengthening makes two memories point to each other, and no others. -/
lemma points_strengthen {edges : AssocEdges F} {src dst x m : MemoryId} (edgeType : EdgeType)
    (delta : F) (hsrc : src ≠ m) (hdst : dst ≠ m) :
    Points (strengthenAssocEdgeMap edges src dst edgeType delta) x m ↔ Points edges x m := by
  have hone : ∀ (edges : AssocEdges F) (y z : MemoryId), z ≠ m →
      (Points (Function.update edges y
        (some (strengthenEdges z edgeType delta ((edges y).getD [])))) x m ↔ Points edges x m) := by
    intro edges y z hz
    unfold Points
    by_cases hx : x = y
    · subst hx
      simp only [Function.update_self, Option.some.injEq, exists_eq_left', exists_strengthenEdges,
        or_iff_left hz]
      cases edges x <;> simp
    · rw [Function.update_of_ne hx]
  unfold strengthenAssocEdgeMap
  exact (hone _ dst src hsrc).trans (hone edges src dst hdst)

end ChittaField
