import ChittaField.Vectors.Batches

/-!
# Searching the graph

A tier is a map from the memories to the vectors that they were given last, and a search of its graph
answers from this map, whatever writers and batches did: `search_of_batches`.
-/

namespace ChittaField.Vectors

def efSearch : ℕ := 64

variable {E F : Type*} (fl : Floats E F)

/-- Hits come by their scores, and those with one score by their ids. -/
def precedes (a b : ℕ × F) : Bool := !fl.le a.2 b.2 || (fl.le b.2 a.2 && a.1 ≤ b.1)

/-- The best hits, among the memories that are allowed. -/
def HnswGraph.search (g : HnswGraph) (query : E) (k : ℕ) (allowed : Option (Finset ℕ))
    (deleted : Finset ℕ) (embs : ℕ → Option E) : List (ℕ × F) :=
  match g.entryPoint with
  | none => []
  | some (ep, _) =>
    let epSet := g.descend fl query 0 ep embs
    let candidates := g.searchLayer fl query epSet (max efSearch k) 0 embs
    let kept := (candidates.filter (· ∉ deleted)).filter fun id => allowed.all (id ∈ ·)
    let scored := kept.filterMap fun id => (embs id).map fun e => (id, fl.dot query e)
    (scored.insertionSort fun a b => precedes fl a b = true).take k

/-- What a step does to the vectors of the memories. -/
def TierStep.write (vectors : ℕ → Option E) : TierStep E → ℕ → Option E
  | .upsert id embedding _ _ => Function.update vectors id (some embedding)
  | .remove id _ => Function.update vectors id none
  | .plan _ _ | .apply _ => vectors

/-- At most `k` hits, best first, each with a vector of its own. -/
structure Hits (vectors : ℕ → Option E) (query : E) (k : ℕ) (allowed : Option (Finset ℕ))
    (hits : List (ℕ × F)) : Prop where
  bounded : hits.length ≤ k
  once : (hits.map (·.1)).Nodup
  sorted : hits.Pairwise fun a b => precedes fl a b = true
  sound : ∀ h ∈ hits, allowed.all (h.1 ∈ ·) = true ∧ (vectors h.1).map (fl.dot query) = some h.2

variable {s : Tier E}

/-- A tier has the vectors that were written, and none for what is deleted. -/
lemma Tier.vectors_run (steps : List (TierStep E)) (h : ∀ x ∈ s.deleted, s.embeddings x = none) :
    (Replayed.run (Tier.live fl) s steps).1.embeddings = steps.foldl TierStep.write s.embeddings ∧
      ∀ x ∈ (Replayed.run (Tier.live fl) s steps).1.deleted,
        (Replayed.run (Tier.live fl) s steps).1.embeddings x = none := by
  induction steps generalizing s with
  | nil => exact ⟨rfl, h⟩
  | cons step steps ih =>
    suffices hstep : (s.live fl step).1.embeddings = step.write s.embeddings ∧
        ∀ x ∈ (s.live fl step).1.deleted, (s.live fl step).1.embeddings x = none by
      rw [Replayed.run, List.foldl_cons, ← hstep.1]
      exact ih hstep.2
    cases step with
    | upsert id embedding deferred order =>
      have hmeta : (s.upsertMeta id embedding order).embeddings =
          Function.update s.embeddings id (some embedding) := Function.update_idem ..
      have hdeleted : ∀ x ∈ (s.upsertMeta id embedding order).deleted,
          (s.upsertMeta id embedding order).embeddings x = none := by
        intro x hx
        obtain ⟨hne, hx⟩ := Finset.mem_erase.mp hx
        rw [hmeta, Function.update_of_ne hne]
        exact h x (Finset.mem_of_mem_insert_of_ne hx hne)
      cases deferred <;> exact ⟨hmeta, hdeleted⟩
    | remove id order =>
      refine ⟨rfl, fun x hx => ?_⟩
      by_cases hid : x = id
      · simp [Tier.live, Tier.remove, hid]
      · simpa [Tier.live, Tier.remove, hid] using h x (Finset.mem_of_mem_insert_of_ne hx hid)
    | plan => exact ⟨rfl, h⟩
    | apply n =>
      unfold Tier.live
      dsimp only
      split <;> exact ⟨rfl, h⟩

lemma precedes_total (htotal : ∀ a b, fl.le a b = true ∨ fl.le b a = true) (a b : ℕ × F) :
    precedes fl a b = true ∨ precedes fl b a = true := by
  have := htotal a.2 b.2
  grind [precedes]

lemma precedes_trans (htotal : ∀ a b, fl.le a b = true ∨ fl.le b a = true)
    (htrans : ∀ a b c, fl.le a b = true → fl.le b c = true → fl.le a c = true) {a b c : ℕ × F}
    (hab : precedes fl a b = true) (hbc : precedes fl b c = true) : precedes fl a c = true := by
  grind [precedes]

/-- In every interleaving of writers with batches, a search returns hits of the vectors that were written
last.  Where the beam has room for all nodes that can be reached, a node is only left out for `k` hits
before it. -/
theorem search_of_batches {E F : Type*} (fl : Floats E F)
    (htotal : ∀ a b, fl.le a b = true ∨ fl.le b a = true)
    (htrans : ∀ a b c, fl.le a b = true → fl.le b c = true → fl.le a c = true)
    (steps : List (TierStep E)) (query : E) (k : ℕ) (allowed : Option (Finset ℕ)) :
    let s := (Replayed.run (Tier.live fl) Tier.new steps).1
    let vectors := steps.foldl TierStep.write fun _ => none
    let hits := s.graph.search fl query k allowed s.deleted s.embeddings
    Hits fl vectors query k allowed hits ∧
      ∀ ep level (nodes : Finset ℕ), s.graph.entryPoint = some (ep, level) →
        (∀ x, x ∈ nodes ↔ BestFirst.Reached (fun x => (vectors x).map (fl.dot query)) (s.graph.links 0)
          (s.graph.descend fl query 0 ep vectors) x) →
        nodes.card ≤ max efSearch k →
        ∀ x ∈ nodes, allowed.all (x ∈ ·) = true → ∀ score, (vectors x).map (fl.dot query) = some score →
          (x, score) ∈ hits ∨ hits.length = k ∧ ∀ h ∈ hits, precedes fl h (x, score) = true := by
  intro s vectors
  obtain ⟨hvectors, hdeleted⟩ := Tier.vectors_run fl (s := Tier.new) steps fun _ _ => rfl
  have hkeep : s.embeddings = vectors := hvectors
  have hgone : ∀ x ∈ s.deleted, vectors x = none := fun x hx => hkeep ▸ hdeleted x hx
  clear_value s vectors
  rw [hkeep]
  unfold HnswGraph.search
  cases hentry : s.graph.entryPoint with
  | none =>
    refine ⟨⟨Nat.zero_le k, List.nodup_nil, List.Pairwise.nil, List.forall_mem_nil _⟩, ?_⟩
    rintro _ _ _ ⟨⟩
  | some start =>
    obtain ⟨ep, level⟩ := start
    dsimp only
    generalize hscored : List.filterMap _ _ = scored
    -- a hit is a node that was found, is allowed and has a vector
    have hmem : ∀ id score, (id, score) ∈ scored ↔
        id ∈ s.graph.searchLayer fl query (s.graph.descend fl query 0 ep vectors) (max efSearch k) 0 vectors ∧
          allowed.all (id ∈ ·) = true ∧ (vectors id).map (fl.dot query) = some score := by
      intro id score
      rw [← hscored]
      simp only [List.mem_filterMap, List.mem_filter, decide_eq_true_eq, Option.map_eq_some_iff,
        Prod.mk.injEq]
      constructor
      · rintro ⟨x, ⟨⟨hx, -⟩, hallowed⟩, e, he, rfl, hscore⟩
        exact ⟨hx, hallowed, e, he, hscore⟩
      · rintro ⟨hx, hallowed, e, he, hscore⟩
        exact ⟨id, ⟨⟨hx, fun hid => by simp [hgone id hid] at he⟩, hallowed⟩, e, he, rfl, hscore⟩
    have hstart : (s.graph.descend fl query 0 ep vectors).Nodup :=
      (HnswGraph.mem_descend fl query 0 vectors (fun _ _ (_ : True) _ _ => trivial) trivial).2
    have honce : (scored.map (·.1)).Nodup := by
      rw [← hscored, List.map_filterMap]
      refine (((HnswGraph.nodup_searchLayer hstart).filter _).filter _).filterMap fun x y z hx hy => ?_
      simp only [Option.map_map, Option.mem_def, Option.map_eq_some_iff, Function.comp_apply] at hx hy
      obtain ⟨_, -, rfl⟩ := hx
      exact hy.choose_spec.2.symm
    have hperm := scored.perm_insertionSort fun a b => precedes fl a b = true
    have hsorted : (scored.insertionSort fun a b => precedes fl a b = true).Pairwise fun a b =>
        precedes fl a b = true := by
      have : Std.Total fun a b => precedes fl a b = true := ⟨precedes_total fl htotal⟩
      have : IsTrans _ fun a b => precedes fl a b = true := ⟨fun _ _ _ => precedes_trans fl htotal htrans⟩
      exact List.pairwise_insertionSort _ scored
    refine ⟨⟨List.length_take_le _ _, ?_, hsorted.take, fun h hh => ?_⟩, ?_⟩
    · exact ((hperm.map _).nodup_iff.mpr honce).sublist ((List.take_sublist _ _).map _)
    · exact ((hmem h.1 h.2).mp (hperm.mem_iff.mp (List.mem_of_mem_take hh))).2
    · rintro _ _ nodes ⟨⟩ hnodes hroom x hx hallowed score hscore
      have hfound := (BestFirst.mem_search_iff hstart hnodes hroom
        (HnswGraph.searchLayer_ends query _ _ 0 vectors) x).mpr hx
      have hin := hperm.mem_iff.mpr ((hmem x score).mpr ⟨hfound, hallowed, hscore⟩)
      rw [← List.take_append_drop k (scored.insertionSort _), List.mem_append] at hin
      refine hin.imp_right fun hlate => ⟨?_, fun h hh => ?_⟩
      · have := List.length_pos_of_mem hlate
        rw [List.length_drop] at this
        rw [List.length_take]
        omega
      · rw [← List.take_append_drop k (scored.insertionSort _)] at hsorted
        exact (List.pairwise_append.mp hsorted).2.2 h hh _ hlate

theorem search_interleaved :
    let s := (Replayed.run (Tier.live ints) Tier.new interleaved).1
    Hits ints (interleaved.foldl TierStep.write fun _ => none) 2 1 (some {1, 5})
        (s.graph.search ints 2 1 (some {1, 5}) s.deleted s.embeddings) ∧
      s.graph.search ints 2 1 (some {1, 5}) s.deleted s.embeddings = [(1, 2)] :=
  ⟨(search_of_batches ints (fun a b => by simpa [ints] using le_total a b)
    (fun a b c => by simpa [ints] using le_trans) interleaved 2 1 (some {1, 5})).1, by decide +kernel⟩

end ChittaField.Vectors
