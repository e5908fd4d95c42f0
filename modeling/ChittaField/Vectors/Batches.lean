import ChittaField.Vectors.GraphEdges

/-!
# Batches of plans

The neighbours of a batch are searched under a read lock, against the graph as it stands; the plans are
wired later, under a short write lock.  Writers come between.

`nodes_live_of_batches` says of every interleaving that the nodes of the graph are live and have
embeddings, and `edges_inside_of_batches` when the links stay inside.  `applyDeltaBatch_keeps` says that
a batch adds its nodes and links to them, and leaves all else as it is.
-/

namespace ChittaField.Vectors

/-- What a batch wires: nodes with their levels and their links on each layer. -/
abbrev DeltaBatchPlan := List (ℕ × ℕ × List (List ℕ))

/-- A tier of the index: its graph, what was deleted, the embeddings, and the plans in flight. -/
structure Tier (E : Type*) where
  graph : HnswGraph
  deleted : Finset ℕ
  embeddings : ℕ → Option E
  plans : List DeltaBatchPlan

namespace Tier

variable {E F : Type*} (fl : Floats E F)

def new : Tier E := ⟨.new, ∅, fun _ => none, []⟩

/-- Mark a memory as deleted. -/
def remove (s : Tier E) (id : ℕ) (order : HashMaps.KeyOrder ℕ) : Tier E :=
  { s with
    graph := s.graph.remove id order
    deleted := insert id s.deleted
    embeddings := Function.update s.embeddings id none }

/-- All of an upsert but the graph. -/
def upsertMeta (s : Tier E) (id : ℕ) (embedding : E) (order : HashMaps.KeyOrder ℕ) : Tier E :=
  let s := s.remove id order
  { s with
    deleted := s.deleted.erase id
    embeddings := Function.update s.embeddings id (some embedding) }

/-- Add or update an embedding. -/
def upsert (s : Tier E) (id : ℕ) (embedding : E) (order : HashMaps.KeyOrder ℕ) : Tier E :=
  let s := s.upsertMeta id embedding order
  { s with graph := s.graph.insert fl id embedding s.embeddings }

/-- Plan a batch, without the nodes of small realms; levels are seeded by the ids. -/
def planDeltaBatch (s : Tier E) (ids : List ℕ) (realmSmall : ℕ → Bool) : DeltaBatchPlan :=
  ids.filterMap fun id =>
    if id ∈ s.deleted ∨ id ∈ s.graph.neighbors.keys ∨ realmSmall id then none
    else (s.embeddings id).map fun emb =>
      (id, fl.level id, s.graph.computeInsertPlan fl emb (fl.level id) s.embeddings)

/-- Wire a plan. -/
def applyDeltaBatch (s : Tier E) (plan : DeltaBatchPlan) : Tier E :=
  { s with graph := s.graph.applyPlans (· ∈ s.deleted) plan }

end Tier

/-- What happens to a tier.  An upsert may leave the graph to a batch. -/
inductive TierStep (E : Type*) where
  | upsert (id : ℕ) (embedding : E) (deferred : Bool) (order : HashMaps.KeyOrder ℕ)
  | remove (id : ℕ) (order : HashMaps.KeyOrder ℕ)
  | plan (ids : List ℕ) (realmSmall : ℕ → Bool)
  /-- Wire one of the plans in flight. -/
  | apply (n : ℕ)

namespace Tier

variable {E F : Type*} (fl : Floats E F)

/-- One step. -/
def live (s : Tier E) : TierStep E → Tier E × List Unit
  | .upsert id embedding deferred order =>
    (if deferred then s.upsertMeta id embedding order else s.upsert fl id embedding order, [])
  | .remove id order => (s.remove id order, [])
  | .plan ids realmSmall => ({ s with plans := s.plans ++ [s.planDeltaBatch fl ids realmSmall] }, [])
  | .apply n =>
    match s.plans[n]? with
    | some plan => ({ s.applyDeltaBatch plan with plans := s.plans.eraseIdx n }, [])
    | none => (s, [])

/-- A node can be taken out: it links back to the nodes that link to it, and no plan in flight links
to it. -/
def Loose (s : Tier E) (id : ℕ) : Prop :=
  (∀ x ∈ s.graph.neighbors.keys, id ∈ (s.graph.layersOf x).flatten → x ∈ (s.graph.layersOf id).flatten) ∧
    ∀ plan ∈ s.plans, ∀ p ∈ plan, id ∉ p.2.2.flatten

/-- What is taken out is loose. -/
def Quiet (s : Tier E) : TierStep E → Prop
  | .upsert id _ _ _ | .remove id _ => s.Loose id
  | .plan _ _ | .apply _ => True

instance (s : Tier E) (id : ℕ) : Decidable (s.Loose id) := inferInstanceAs (Decidable (_ ∧ _))

instance decidableQuiet (s : Tier E) : ∀ step : TierStep E, Decidable (s.Quiet step)
  | .upsert id _ _ _ | .remove id _ => inferInstanceAs (Decidable (s.Loose id))
  | .plan _ _ | .apply _ => isTrue trivial

end Tier

namespace HnswGraph

variable {E F : Type*} {fl : Floats E F} {g : HnswGraph} {id level : ℕ}

/-! ## Nodes -/

lemma keys_insertNode (embedding : E) (embs : ℕ → Option E) :
    (g.insert fl id embedding embs).neighbors.keys = Insert.insert id g.neighbors.keys := by
  unfold HnswGraph.insert
  dsimp only
  generalize fl.level g.neighbors.keys.card = level
  split
  · exact keys_addNode g id level
  · have hkeys := fun eps => (sameNodes_foldl_insertLayer fl id embedding embs
      (List.range (min level g.top + 1)).reverse (g.addNode id level, eps)).keys
    split_ifs <;> exact (hkeys _).trans (keys_addNode g id level)

lemma keys_wirePrecomputed (perLayer : List (List ℕ)) :
    (g.wirePrecomputed id level perLayer).neighbors.keys = Insert.insert id g.neighbors.keys := by
  unfold HnswGraph.wirePrecomputed
  dsimp only
  split
  · exact keys_addNode g id level
  · have hkeys := (SameNodes.foldl (sameNodes_wireLayer id) (perLayer.take (level + 1)).zipIdx
      (g.addNode id level)).keys
    split_ifs <;> exact hkeys.trans (keys_addNode g id level)

lemma keys_remove (order : HashMaps.KeyOrder ℕ) :
    (g.remove id order).neighbors.keys = g.neighbors.keys.erase id := by
  unfold HnswGraph.remove
  split
  · rename_i hnone
    rw [Finset.erase_eq_of_notMem]
    rw [Finmap.mem_keys, Finmap.mem_iff, hnone]
    simp
  · rename_i own hown
    have hkeys := (SameNodes.foldl (sameNodes_unlink id) own.flatten
      { g with neighbors := g.neighbors.erase id }).keys.trans (Finmap.keys_erase id g.neighbors)
    dsimp only
    split_ifs <;> exact hkeys

/-- The nodes behind a batch. -/
lemma mem_applyPlans {deleted : ℕ → Bool} {plan : DeltaBatchPlan} {x : ℕ} :
    x ∈ (g.applyPlans deleted plan).neighbors.keys ↔
      x ∈ g.neighbors.keys ∨ deleted x = false ∧ x ∈ plan.map (·.1) := by
  unfold HnswGraph.applyPlans
  induction plan generalizing g with
  | nil => simp
  | cons p plan ih =>
    rw [List.foldl_cons, ih, List.map_cons, List.mem_cons]
    split_ifs with hskip
    · refine or_congr_right' fun hx => and_congr_right fun hlive => (or_iff_right ?_).symm
      rintro rfl
      rcases hskip with hdeleted | hmem
      · rw [hlive] at hdeleted
        cases hdeleted
      · exact hx hmem
    · obtain ⟨hlive, -⟩ := not_or.mp hskip
      rw [keys_wirePrecomputed, Finset.mem_insert, or_assoc, and_or_left, or_left_comm]
      refine or_congr_right (or_congr_left ⟨?_, And.right⟩)
      rintro rfl
      exact ⟨Bool.eq_false_iff.mpr hlive, rfl⟩

/-! ## Plans that fit -/

/-- A plan fits the graph that it was computed for. -/
lemma plan_fits (h : Sane g) (hid : id ∉ g.neighbors.keys) (emb : E)
    (embs : ℕ → Option E) : ∀ p ∈ (g.computeInsertPlan fl emb level embs).zipIdx,
      LinksOk g.neighbors.keys id p.2 p.1 := by
  intro p hp
  have hget := List.mem_zipIdx_iff_getElem?.mp hp
  have hnil : ∀ {layer links}, (List.replicate (level + 1) ([] : List ℕ))[layer]? = some links →
      LinksOk g.neighbors.keys id layer links := fun hlinks =>
    (List.eq_of_mem_replicate (List.mem_of_getElem? hlinks)) ▸ linksOk_nil
  rw [HnswGraph.computeInsertPlan] at hget
  split at hget
  · exact hnil hget
  · rename_i ep epLevel hentry
    have hclosed : ∀ layer x, x ∈ g.neighbors.keys → ∀ y ∈ g.links layer x, y ∈ g.neighbors.keys := by
      intro layer x _ y hy
      by_cases hlt : layer < (g.layersOf x).length
      · exact ((h.each.at_links hlt).inside y hy).1
      · rw [links_eq_nil hlt] at hy
        exact absurd hy List.not_mem_nil
    obtain ⟨heps, hnodup⟩ := mem_descend fl emb level embs hclosed (h.rooted.entry ep epLevel hentry).1
    generalize g.descend fl emb level ep embs = eps at heps hnodup hget
    -- the lists fit so far, and the nodes found are in the graph, each once
    refine (List.foldlRecOn (motive := fun q : List (List ℕ) × List ℕ =>
      (∀ layer links, q.1[layer]? = some links → LinksOk g.neighbors.keys id layer links) ∧
        (∀ x ∈ q.2, x ∈ g.neighbors.keys) ∧ q.2.Nodup) _ _ ⟨fun _ _ => hnil, heps, hnodup⟩
      fun q hq layer _ => ?_).1 p.2 p.1 hget
    obtain ⟨hq, heps, hnodup⟩ := hq
    have hfound : ∀ x ∈ g.searchLayer fl emb q.2 efConstruction layer embs, x ∈ g.neighbors.keys :=
      fun x hx => mem_searchLayer (hclosed layer) heps hnodup hx
    refine ⟨fun j links hlinks => ?_, hfound, nodup_searchLayer hnodup⟩
    rw [List.getElem?_set] at hlinks
    split_ifs at hlinks with hj hlt
    · obtain rfl := Option.some.inj hlinks
      refine ⟨fun y hy => ?_, nodup_selectNeighbors (nodup_searchLayer hnodup), ?_⟩
      · have hkey := hfound y (mem_selectNeighbors hy).1
        exact ⟨hkey, fun heq => hid (heq ▸ hkey)⟩
      · exact hj ▸ length_selectNeighbors.trans (Nat.le_mul_of_pos_right _ (by decide))
    · exact hq j links hlinks

/-- Plans that link to nodes of the graph are wired one after the other. -/
lemma Sane.applyPlans {plan : DeltaBatchPlan} (h : Sane g) (deleted : ℕ → Bool)
    (hfits : ∀ p ∈ plan, ∀ q ∈ p.2.2.zipIdx, LinksOk g.neighbors.keys p.1 q.2 q.1) :
    Sane (g.applyPlans deleted plan) := by
  unfold HnswGraph.applyPlans
  induction plan generalizing g with
  | nil => exact h
  | cons p plan ih =>
    obtain ⟨hp, hplan⟩ := List.forall_mem_cons.mp hfits
    rw [List.foldl_cons]
    split_ifs with hskip
    · exact ih h hplan
    · refine ih (h.wirePrecomputed (not_or.mp hskip).2 (Or.inr fun q hq => ?_)) fun p' hp' q hq => ?_
      · have hget := List.mem_zipIdx_iff_getElem?.mp hq
        rw [List.getElem?_take] at hget
        split_ifs at hget
        exact hp q (List.mem_zipIdx_iff_getElem?.mpr hget)
      · rw [keys_wirePrecomputed]
        exact linksOk_mono (hplan p' hp' q hq) (Finset.subset_insert _ _)

end HnswGraph

namespace HnswGraph

variable {g g' g'' : HnswGraph} {id : ℕ} {P : ℕ → Prop}

/-! ## What a batch leaves alone -/

/-- The lists of some nodes stay, but for a node that is appended. -/
def Appends (id : ℕ) (P : ℕ → Prop) (g g' : HnswGraph) : Prop :=
  ∀ x, P x → (g'.layersOf x).length = (g.layersOf x).length ∧
    ∀ layer, ∃ added, g'.links layer x = g.links layer x ++ added ∧ ∀ y ∈ added, y = id

lemma Appends.trans (h : Appends id P g g') (h' : Appends id P g' g'') : Appends id P g g'' := by
  refine fun x hx => ⟨(h' x hx).1.trans (h x hx).1, fun layer => ?_⟩
  obtain ⟨added, hlinks, hadded⟩ := (h x hx).2 layer
  obtain ⟨added', hlinks', hadded'⟩ := (h' x hx).2 layer
  refine ⟨added ++ added', by rw [hlinks', hlinks, List.append_assoc], fun y hy => ?_⟩
  exact (List.mem_append.mp hy).elim (hadded y) (hadded' y)

lemma appends_of_layersOf (h : ∀ x, P x → g'.layersOf x = g.layersOf x) : Appends id P g g' :=
  fun x hx => ⟨by rw [h x hx], fun layer => ⟨[], by simp [links, h x hx], List.forall_mem_nil _⟩⟩

lemma Appends.foldl {α : Type*} {f : HnswGraph → α → HnswGraph} (hf : ∀ g a, Appends id P g (f g a))
    (as : List α) (g : HnswGraph) : Appends id P g (as.foldl f g) :=
  List.foldlRecOn as f (appends_of_layersOf fun _ _ => rfl) fun g' h a _ => h.trans (hf g' a)

lemma appends_wireBack (layer id : ℕ) (g : HnswGraph) (nbr : ℕ) :
    Appends id P g (wireBack layer id g nbr) := by
  refine fun x _ => ⟨(sameNodes_wireBack layer id g nbr).levels x, fun j => ?_⟩
  unfold HnswGraph.wireBack
  split_ifs with hroom
  · by_cases hxj : x = nbr ∧ j = layer
    · obtain ⟨rfl, rfl⟩ := hxj
      refine ⟨[id], ?_, fun y hy => List.mem_singleton.mp hy⟩
      rw [links, layersOf_setLinks, if_pos rfl, List.getElem?_set_self hroom.1]
      rfl
    · refine ⟨[], ?_, List.forall_mem_nil _⟩
      rw [links, layersOf_setLinks, List.append_nil]
      split_ifs with hx
      · subst hx
        rw [List.getElem?_set_ne fun hj => hxj ⟨rfl, hj.symm⟩]
        rfl
      · rfl
  · exact ⟨[], (List.append_nil _).symm, List.forall_mem_nil _⟩

lemma appends_wireLayer (id : ℕ) (g : HnswGraph) (p : List ℕ × ℕ) :
    Appends id (· ≠ id) g (wireLayer id g p) :=
  (appends_of_layersOf fun x hx => by rw [layersOf_setLinks, if_neg hx]).trans
    (Appends.foldl (appends_wireBack p.2 id) _ _)

lemma appends_wirePrecomputed (g : HnswGraph) (id level : ℕ) (perLayer : List (List ℕ)) :
    Appends id (· ≠ id) g (g.wirePrecomputed id level perLayer) := by
  have hadded : Appends id (· ≠ id) g (g.addNode id level) :=
    appends_of_layersOf fun x hx => by rw [layersOf_addNode, if_neg hx]
  unfold HnswGraph.wirePrecomputed
  dsimp only
  split
  · exact hadded
  · have hwired := hadded.trans (Appends.foldl (appends_wireLayer id) (perLayer.take (level + 1)).zipIdx _)
    split_ifs <;> exact hwired

/-- A node has the lists of its plan, and what was appended. -/
lemma prefix_wireLayers {perLayer : List (List ℕ)} {n : ℕ} :
    (∀ j < n, g.links j id <+: ((perLayer.zipIdx n).foldl (wireLayer id) g).links j id) ∧
      ∀ p ∈ perLayer.zipIdx n, p.2 < (g.layersOf id).length →
        p.1 <+: ((perLayer.zipIdx n).foldl (wireLayer id) g).links p.2 id := by
  induction perLayer generalizing g n with
  | nil => exact ⟨fun _ _ => List.prefix_rfl, List.forall_mem_nil _⟩
  | cons planned perLayer ih =>
    rw [List.zipIdx_cons, List.foldl_cons]
    obtain ⟨hbelow, habove⟩ := @ih (wireLayer id g (planned, n)) (n + 1)
    have hset : ∀ j ≤ n, (g.setLinks id n planned).links j id <+:
        ((perLayer.zipIdx (n + 1)).foldl (wireLayer id) (wireLayer id g (planned, n))).links j id := by
      intro j hj
      obtain ⟨added, hlinks, -⟩ := (Appends.foldl (P := fun _ => True) (appends_wireBack n id) planned
        (g.setLinks id n planned) id trivial).2 j
      exact (hlinks ▸ List.prefix_append _ _ : _ <+: (wireLayer id g (planned, n)).links j id).trans
        (hbelow j (Nat.lt_succ_of_le hj))
    simp only [links, layersOf_setLinks, if_pos] at hset
    refine ⟨fun j hj => ?_, List.forall_mem_cons.mpr ⟨fun hlt => ?_, fun p hp hlt => ?_⟩⟩
    · have := hset j hj.le
      rwa [List.getElem?_set_ne hj.ne'] at this
    · have := hset n le_rfl
      rwa [List.getElem?_set_self hlt] at this
    · exact habove p hp ((sameNodes_wireLayer id g _).levels id ▸ hlt)

/-- A step is tidy if the edges are inside behind it. -/
lemma Sane.tidy {E F : Type*} {fl : Floats E F} (h : Sane g) {step : GraphStep E}
    (hinside : EdgesInside (g.live fl step).1) : g.Tidy step := by
  cases step with
  | insert => trivial
  | wire id level perLayer =>
    refine or_iff_not_imp_left.mpr fun hentry p hp => ?_
    have hfirst : p.1 <+: (g.wirePrecomputed id level perLayer).links p.2 id := by
      have hlt : p.2 < ((g.addNode id level).layersOf id).length := by
        have := List.snd_lt_of_mem_zipIdx hp
        rw [List.length_take] at this
        rw [layersOf_addNode, if_pos rfl, List.length_replicate]
        omega
      unfold HnswGraph.wirePrecomputed
      split
      · exact absurd ‹_› hentry
      · dsimp only
        split_ifs <;> exact prefix_wireLayers.2 p hp hlt
    by_cases hlt : p.2 < ((g.wirePrecomputed id level perLayer).layersOf id).length
    · have hok := Each.at_links hinside.links hlt
      refine ⟨fun y hy => ?_, hok.nodup.sublist hfirst.sublist, hfirst.length_le.trans hok.bounded⟩
      obtain ⟨hin, hne⟩ := hok.inside y (hfirst.subset hy)
      exact ⟨(Finset.mem_insert.mp (keys_wirePrecomputed perLayer ▸ hin)).resolve_left hne, hne⟩
    · rw [links_eq_nil hlt] at hfirst
      exact List.prefix_nil.mp hfirst ▸ linksOk_nil
  | remove id order =>
    intro x hx hid
    by_contra hback
    obtain ⟨links, hlinks, hmem⟩ := List.mem_flatten.mp hid
    obtain ⟨layer, hlayer⟩ := List.mem_iff_getElem?.mp hlinks
    have hne : x ≠ id := ((h.each x layer links hlayer).inside id hmem).2.symm
    obtain ⟨kept, hkept, hmem⟩ := List.mem_flatten.mp (remove_leaves_link hid hne hback order)
    obtain ⟨layer, hlayer⟩ := List.mem_iff_getElem?.mp hkept
    have hin := ((hinside.links x layer kept hlayer).inside id hmem).1
    exact Finset.notMem_erase id _ (keys_remove order ▸ hin)

/-- The lists of the nodes that are there only get nodes of the batch. -/
lemma links_applyPlans (deleted : ℕ → Bool) (plan : DeltaBatchPlan) {x : ℕ}
    (hx : x ∈ g.neighbors.keys) :
    ((g.applyPlans deleted plan).layersOf x).length = (g.layersOf x).length ∧
      ∀ layer, ∃ added, (g.applyPlans deleted plan).links layer x = g.links layer x ++ added ∧
        ∀ y ∈ added, y ∉ g.neighbors.keys ∧ deleted y = false ∧ y ∈ plan.map (·.1) := by
  unfold HnswGraph.applyPlans
  induction plan generalizing g with
  | nil => exact ⟨rfl, fun layer => ⟨[], (List.append_nil _).symm, List.forall_mem_nil _⟩⟩
  | cons p plan ih =>
    rw [List.foldl_cons]
    split_ifs with hskip
    · refine ⟨(ih hx).1, fun layer => ?_⟩
      obtain ⟨added, hlinks, hadded⟩ := (ih hx).2 layer
      exact ⟨added, hlinks, fun y hy =>
        ⟨(hadded y hy).1, (hadded y hy).2.1, List.mem_cons_of_mem _ (hadded y hy).2.2⟩⟩
    · obtain ⟨hlive, hnew⟩ := not_or.mp hskip
      have hkeys : (g.wirePrecomputed p.1 p.2.1 p.2.2).neighbors.keys =
          Insert.insert p.1 g.neighbors.keys := keys_wirePrecomputed p.2.2
      obtain ⟨hlevel, hwired⟩ := appends_wirePrecomputed g p.1 p.2.1 p.2.2 x (fun heq => hnew (heq ▸ hx))
      obtain ⟨hlevels, hrest⟩ := ih (hkeys ▸ Finset.mem_insert_of_mem hx)
      refine ⟨hlevels.trans hlevel, fun layer => ?_⟩
      obtain ⟨added, hlinks, hadded⟩ := hwired layer
      obtain ⟨added', hlinks', hadded'⟩ := hrest layer
      refine ⟨added ++ added', by rw [hlinks', hlinks, List.append_assoc], fun y hy => ?_⟩
      rcases List.mem_append.mp hy with hy | hy
      · rw [hadded y hy]
        exact ⟨hnew, Bool.eq_false_iff.mpr hlive, List.mem_cons_self⟩
      · obtain ⟨hout, hy⟩ := hadded' y hy
        exact ⟨fun hmem => hout (hkeys ▸ Finset.mem_insert_of_mem hmem), hy.1,
          List.mem_cons_of_mem _ hy.2⟩

end HnswGraph

namespace Tier

variable {E F : Type*} {fl : Floats E F} {s : Tier E}

/-! ## Interleavings -/

/-- The nodes are live, and so are those that are planned, unless they were deleted since. -/
structure Live (s : Tier E) : Prop where
  nodes : ∀ x ∈ s.graph.neighbors.keys, x ∉ s.deleted ∧ (s.embeddings x).isSome = true
  planned : ∀ plan ∈ s.plans, ∀ p ∈ plan, p.1 ∈ s.deleted ∨ (s.embeddings p.1).isSome = true

lemma Live.upsertMeta (h : s.Live) (id : ℕ) (embedding : E) (order : HashMaps.KeyOrder ℕ) :
    (s.upsertMeta id embedding order).Live ∧
      id ∉ (s.upsertMeta id embedding order).graph.neighbors.keys := by
  have hkeys : (s.upsertMeta id embedding order).graph.neighbors.keys =
      s.graph.neighbors.keys.erase id := HnswGraph.keys_remove order
  refine ⟨⟨fun x hx => ?_, fun plan hplan p hp => ?_⟩, hkeys ▸ Finset.notMem_erase id _⟩
  · obtain ⟨hne, hx⟩ := Finset.mem_erase.mp (hkeys ▸ hx)
    simpa [Tier.upsertMeta, Tier.remove, hne] using h.nodes x hx
  · by_cases hid : p.1 = id
    · exact Or.inr (by simp [Tier.upsertMeta, hid])
    · simpa [Tier.upsertMeta, Tier.remove, hid] using h.planned plan hplan p hp

lemma Live.step (h : s.Live) (step : TierStep E) : (s.live fl step).1.Live := by
  cases step with
  | upsert id embedding deferred order =>
    obtain ⟨hmeta, hout⟩ := h.upsertMeta id embedding order
    cases deferred with
    | true => exact hmeta
    | false =>
      refine ⟨fun x hx => ?_, hmeta.planned⟩
      rcases Finset.mem_insert.mp (HnswGraph.keys_insertNode embedding _ ▸ hx) with rfl | hx
      · simp [Tier.live, Tier.upsert, Tier.upsertMeta]
      · exact hmeta.nodes x hx
  | remove id order =>
    refine ⟨fun x hx => ?_, fun plan hplan p hp => ?_⟩
    · have hkeys : x ∈ s.graph.neighbors.keys.erase id := HnswGraph.keys_remove order ▸ hx
      obtain ⟨hne, hx⟩ := Finset.mem_erase.mp hkeys
      simpa [Tier.live, Tier.remove, hne] using h.nodes x hx
    · by_cases hid : p.1 = id
      · exact Or.inl (by simp [Tier.live, Tier.remove, hid])
      · simpa [Tier.live, Tier.remove, hid] using h.planned plan hplan p hp
  | plan =>
    refine ⟨h.nodes, fun plan hplan p hp => ?_⟩
    rcases List.mem_append.mp hplan with hplan | hplan
    · exact h.planned plan hplan p hp
    · rw [List.mem_singleton.mp hplan] at hp
      obtain ⟨id, -, hid⟩ := List.mem_filterMap.mp hp
      split_ifs at hid
      obtain ⟨emb, hemb, rfl⟩ := Option.map_eq_some_iff.mp hid
      exact Or.inr (by simp [Tier.live, hemb])
  | apply n =>
    unfold Tier.live
    dsimp only
    split
    · rename_i plan hplan
      refine ⟨fun x hx => ?_, fun plan' hplan' => h.planned plan' (List.mem_of_mem_eraseIdx hplan')⟩
      rcases HnswGraph.mem_applyPlans.mp hx with hx | ⟨hlive, hx⟩
      · exact h.nodes x hx
      · obtain ⟨p, hp, rfl⟩ := List.mem_map.mp hx
        have hnot : p.1 ∉ s.deleted := of_decide_eq_false hlive
        exact ⟨hnot, (h.planned plan (List.mem_of_getElem? hplan) p hp).resolve_left hnot⟩
    · exact h

/-- The graph is right, and the plans in flight link to nodes of it. -/
structure Fits (s : Tier E) : Prop where
  sane : s.graph.Sane
  plans : ∀ plan ∈ s.plans, ∀ p ∈ plan, ∀ q ∈ p.2.2.zipIdx,
    LinksOk s.graph.neighbors.keys p.1 q.2 q.1

lemma Fits.remove (h : s.Fits) {id : ℕ} (hloose : s.Loose id) (order : HashMaps.KeyOrder ℕ) :
    (s.remove id order).Fits := by
  refine ⟨h.sane.remove hloose.1 order, fun plan hplan p hp q hq => ?_⟩
  have hkeys : (s.remove id order).graph.neighbors.keys = s.graph.neighbors.keys.erase id :=
    HnswGraph.keys_remove order
  have hok := h.plans plan hplan p hp q hq
  refine ⟨fun y hy => ⟨hkeys ▸ Finset.mem_erase.mpr ⟨?_, (hok.inside y hy).1⟩, (hok.inside y hy).2⟩,
    hok.nodup, hok.bounded⟩
  rintro rfl
  have hlist := List.mem_of_getElem? (List.mem_zipIdx_iff_getElem?.mp hq)
  exact hloose.2 plan hplan p hp (List.mem_flatten.mpr ⟨q.1, hlist, hy⟩)

/-- Nodes that are added leave the plans fitting. -/
lemma Fits.grow {s' : Tier E} (h : s.Fits) (hsane : s'.graph.Sane)
    (hsub : s.graph.neighbors.keys ⊆ s'.graph.neighbors.keys)
    (hplans : ∀ plan ∈ s'.plans, plan ∈ s.plans) : s'.Fits :=
  ⟨hsane, fun plan hplan p hp q hq =>
    HnswGraph.linksOk_mono (h.plans plan (hplans plan hplan) p hp q hq) hsub⟩

lemma Fits.step (h : s.Fits) {step : TierStep E} (hquiet : s.Quiet step) :
    (s.live fl step).1.Fits := by
  cases step with
  | upsert id embedding deferred order =>
    have hmeta : (s.upsertMeta id embedding order).Fits := ⟨(h.remove hquiet order).1, (h.remove hquiet order).2⟩
    have hkeys : (s.upsertMeta id embedding order).graph.neighbors.keys =
        s.graph.neighbors.keys.erase id := HnswGraph.keys_remove order
    cases deferred with
    | true => exact hmeta
    | false =>
      refine hmeta.grow (hmeta.sane.insert (hkeys ▸ Finset.notMem_erase id _) _ _) ?_ fun _ hplan => hplan
      exact (HnswGraph.keys_insertNode embedding _).symm ▸ Finset.subset_insert _ _
  | remove id order => exact h.remove hquiet order
  | plan =>
    refine ⟨h.sane, fun plan hplan p hp => ?_⟩
    rcases List.mem_append.mp hplan with hplan | hplan
    · exact h.plans plan hplan p hp
    · rw [List.mem_singleton.mp hplan] at hp
      obtain ⟨id, -, hid⟩ := List.mem_filterMap.mp hp
      split_ifs at hid with hskip
      obtain ⟨emb, -, rfl⟩ := Option.map_eq_some_iff.mp hid
      exact HnswGraph.plan_fits h.sane (fun hmem => hskip (Or.inr (Or.inl hmem))) emb _
  | apply n =>
    unfold Tier.live
    dsimp only
    split
    · rename_i plan hplan
      refine h.grow (h.sane.applyPlans (fun x => decide (x ∈ s.deleted)) (h.plans plan (List.mem_of_getElem? hplan)))
        (fun x hx => HnswGraph.mem_applyPlans.mpr (Or.inl hx)) fun _ => List.mem_of_mem_eraseIdx
    · exact h

end Tier

/-- Along a run that inserts removed nodes only, the edges stay inside the graph iff all steps are tidy. -/
theorem edges_inside_always_iff {E F : Type*} (fl : Floats E F) (steps : List (GraphStep E))
    (hfresh : Replayed.All (HnswGraph.live fl) HnswGraph.Fresh HnswGraph.new steps) :
    Replayed.All (HnswGraph.live fl) (fun g step => EdgesInside (g.live fl step).1) HnswGraph.new steps ↔
      Replayed.All (HnswGraph.live fl) HnswGraph.Tidy HnswGraph.new steps := by
  have hsane := HnswGraph.sane_new
  generalize HnswGraph.new = g at hfresh hsane ⊢
  induction steps generalizing g with
  | nil => exact Iff.rfl
  | cons step steps ih =>
    have hlive : g.Tidy step → (g.live fl step).1.Sane := hsane.live hfresh.1
    refine ⟨fun hall => ?_, fun hall => ⟨(hlive hall.1).edgesInside, ?_⟩⟩
    · have htidy := hsane.tidy hall.1
      exact ⟨htidy, (ih _ hfresh.2 (hlive htidy)).mp hall.2⟩
    · exact (ih _ hfresh.2 (hlive hall.1)).mpr hall.2

theorem edges_inside_along_pair : Replayed.All (HnswGraph.live ints)
    (fun g step => EdgesInside (g.live ints step).1) HnswGraph.new pair :=
  (edges_inside_always_iff ints pair (by decide +kernel)).mpr (by decide +kernel)

/-- In every interleaving of writers with batches, the nodes of the graph are live and have
embeddings. -/
theorem nodes_live_of_batches {E F : Type*} (fl : Floats E F) (steps : List (TierStep E)) :
    let s := (Replayed.run (Tier.live fl) Tier.new steps).1
    ∀ x ∈ s.graph.neighbors.keys, x ∉ s.deleted ∧ (s.embeddings x).isSome = true :=
  (Replayed.invariant_always Tier.Live (fun _ _ hs => hs.step _)
    ⟨fun _ hx => absurd hx (by simp [Tier.new, HnswGraph.new]), List.forall_mem_nil _⟩ steps).nodes

/-- In every interleaving that takes out loose nodes only, the edges stay inside the graph and the entry
point is right, however old the plans are that are wired. -/
theorem edges_inside_of_batches {E F : Type*} (fl : Floats E F) (steps : List (TierStep E))
    (h : Replayed.All (Tier.live fl) Tier.Quiet Tier.new steps) :
    EdgesInside (Replayed.run (Tier.live fl) Tier.new steps).1.graph :=
  (Replayed.invariant_run Tier.Fits (fun _ _ hs => hs.step)
    ⟨HnswGraph.sane_new, List.forall_mem_nil _⟩ h).sane.edgesInside

/-- A writer comes between the plan of a batch and its wiring. -/
def interleaved : List (TierStep ℤ) :=
  [.upsert 1 1 false HashMaps.upwards, .upsert 3 3 true HashMaps.upwards, .plan [3] fun _ => false,
    .upsert 5 5 false HashMaps.upwards, .apply 0, .remove 5 HashMaps.upwards]

theorem edges_inside_interleaved :
    EdgesInside (Replayed.run (Tier.live ints) Tier.new interleaved).1.graph :=
  edges_inside_of_batches ints interleaved (by decide +kernel)

/-- A batch adds its nodes that are live; the lists of the others stay, but for links to new nodes of the
batch that are appended.  The plan may be any, and so may what was done since it was made. -/
theorem applyDeltaBatch_keeps {E : Type*} (s : Tier E) (plan : DeltaBatchPlan) :
    (∀ x, x ∈ (s.applyDeltaBatch plan).graph.neighbors.keys ↔
      x ∈ s.graph.neighbors.keys ∨ x ∉ s.deleted ∧ x ∈ plan.map (·.1)) ∧
    ∀ x ∈ s.graph.neighbors.keys,
      ((s.applyDeltaBatch plan).graph.layersOf x).length = (s.graph.layersOf x).length ∧
      ∀ layer, ∃ added,
        (s.applyDeltaBatch plan).graph.links layer x = s.graph.links layer x ++ added ∧
        ∀ y ∈ added, y ∉ s.graph.neighbors.keys ∧ y ∉ s.deleted ∧ y ∈ plan.map (·.1) := by
  refine ⟨fun x => HnswGraph.mem_applyPlans.trans (by simp), fun x hx => ?_⟩
  simpa only [Tier.applyDeltaBatch, decide_eq_false_iff_not] using
    HnswGraph.links_applyPlans (fun x => decide (x ∈ s.deleted)) plan hx

end ChittaField.Vectors
