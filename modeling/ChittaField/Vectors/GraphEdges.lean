import Mathlib.Algebra.Order.BigOperators.Group.Finset
import ChittaField.Vectors.Graph

/-!
# Edges inside the graph

A search stays among the nodes, so a node that is inserted is linked to nodes of the graph.
`edges_inside_of_run` says that all links stay inside the graph and are not too many, and that the
entry point is a node with its level, behind every run whose plans fit and whose removed nodes link
back.  A plan that was computed before a node was removed does not fit, as `lost_neighbour` shows.
-/

namespace ChittaField.Vectors

namespace HnswGraph

variable {E F : Type*} {fl : Floats E F} {g : HnswGraph} {x y id layer : ℕ} {links : List ℕ}

/-! ## Changing lists -/

lemma layersOf_eq_nil (h : x ∉ g.neighbors.keys) : g.layersOf x = [] := by
  have hnone : g.neighbors.lookup x = none := by
    rw [Finmap.lookup_eq_none, ← Finmap.mem_keys]
    exact h
  rw [layersOf, hnone]
  rfl

/-- What changes no more than links. -/
structure SameNodes (g g' : HnswGraph) : Prop where
  keys : g'.neighbors.keys = g.neighbors.keys
  entryPoint : g'.entryPoint = g.entryPoint
  levels : ∀ x, (g'.layersOf x).length = (g.layersOf x).length

lemma SameNodes.refl (g : HnswGraph) : SameNodes g g := ⟨rfl, rfl, fun _ => rfl⟩

lemma SameNodes.trans {g g' g'' : HnswGraph} (h : SameNodes g g') (h' : SameNodes g' g'') :
    SameNodes g g'' :=
  ⟨h'.keys.trans h.keys, h'.entryPoint.trans h.entryPoint, fun x => (h'.levels x).trans (h.levels x)⟩

lemma SameNodes.foldl {α : Type*} {f : HnswGraph → α → HnswGraph} (hf : ∀ g a, SameNodes g (f g a))
    (as : List α) (g : HnswGraph) : SameNodes g (as.foldl f g) :=
  List.foldlRecOn as f (SameNodes.refl g) fun g' h a _ => h.trans (hf g' a)

/-- Put other layers in the place of those of a node. -/
lemma layersOf_insert {layers : List (List ℕ)} : layersOf ⟨g.neighbors.insert x layers, g.entryPoint⟩ y =
    if y = x then layers else g.layersOf y := by
  unfold layersOf
  split_ifs with hyx
  · subst hyx
    simp
  · rw [Finmap.lookup_insert_of_ne _ hyx]

lemma sameNodes_insert {layers layers' : List (List ℕ)} (hx : g.neighbors.lookup x = some layers)
    (hlength : layers'.length = layers.length) :
    SameNodes g ⟨g.neighbors.insert x layers', g.entryPoint⟩ := by
  refine ⟨Finset.ext fun y => ?_, rfl, fun y => ?_⟩
  · rw [Finmap.mem_keys, Finmap.mem_keys, Finmap.mem_insert, or_iff_right_iff_imp]
    rintro rfl
    exact Finmap.mem_iff.mpr ⟨layers, hx⟩
  · rw [layersOf_insert]
    split_ifs with hyx
    · rw [hyx, hlength, layersOf, hx]
      rfl
    · rfl

lemma sameNodes_setLinks (g : HnswGraph) (x layer : ℕ) (links : List ℕ) :
    SameNodes g (g.setLinks x layer links) := by
  unfold setLinks
  split
  · rename_i layers hx
    exact sameNodes_insert hx List.length_set
  · exact SameNodes.refl g

lemma layersOf_setLinks : (g.setLinks x layer links).layersOf y =
    if y = x then (g.layersOf x).set layer links else g.layersOf y := by
  unfold setLinks
  split
  · rename_i layers hx
    have hlayers : g.layersOf x = layers := by rw [layersOf, hx]; rfl
    rw [layersOf_insert, hlayers]
  · rename_i hx
    split_ifs with hyx
    · rw [hyx, layersOf, hx]
      rfl
    · rfl

/-- Of two changes of a list the second one counts. -/
lemma setLinks_setLinks {links' : List ℕ} :
    (g.setLinks x layer links).setLinks x layer links' = g.setLinks x layer links' := by
  unfold setLinks
  cases hx : g.neighbors.lookup x with
  | none => simp [hx]
  | some layers => simp [Finmap.insert_insert]

/-! ## What holds of each list -/

/-- Something holds of all lists, by node and layer. -/
def Each (g : HnswGraph) (P : ℕ → ℕ → List ℕ → Prop) : Prop :=
  ∀ x layer links, (g.layersOf x)[layer]? = some links → P x layer links

variable {P Q : ℕ → ℕ → List ℕ → Prop}

lemma Each.mono (h : g.Each P) (hPQ : ∀ x layer links, P x layer links → Q x layer links) : g.Each Q :=
  fun x layer links hlinks => hPQ x layer links (h x layer links hlinks)

lemma Each.setLinks (h : g.Each P) (hlinks : P x layer links) : (g.setLinks x layer links).Each P := by
  intro y j l hl
  rw [layersOf_setLinks] at hl
  split_ifs at hl with hyx
  · rw [List.getElem?_set] at hl
    split_ifs at hl with hj hlt
    · rw [hyx, ← hj, ← Option.some.inj hl]
      exact hlinks
    · exact hyx ▸ h x j l hl
  · exact h y j l hl

lemma Each.at_links (h : g.Each P) (hlt : layer < (g.layersOf x).length) : P x layer (g.links layer x) := by
  refine h x layer _ ?_
  rw [HnswGraph.links, List.getElem?_eq_getElem hlt]
  rfl

/-- The links of a node without the layer are none. -/
lemma links_eq_nil (h : ¬layer < (g.layersOf x).length) : g.links layer x = [] := by
  rw [HnswGraph.links, List.getElem?_eq_none_iff.mpr (by omega)]
  rfl

/-! ## Searching -/

variable {embs : ℕ → Option E} {query : E} {candidates : List ℕ}

lemma mem_selectNeighbors {m : ℕ} (h : x ∈ selectNeighbors fl query candidates m embs) :
    x ∈ candidates ∧ (embs x).isSome = true := by
  obtain ⟨p, hp, rfl⟩ := List.mem_map.mp h
  have hmem := (List.perm_insertionSort _ _).mem_iff.mp (List.mem_of_mem_take hp)
  have hscored : p ∈ candidates.filterMap fun x =>
      ((embs x).map (fl.dot query)).map fun s => (s, x) := by
    simpa only [Option.map_map, Function.comp_def] using hmem
  obtain ⟨hcandidate, hsome⟩ := BestFirst.mem_scored (fun _ _ => rfl) hscored
  exact ⟨hcandidate, by rwa [Option.isSome_map] at hsome⟩

lemma nodup_selectNeighbors {m : ℕ} (h : candidates.Nodup) :
    (selectNeighbors fl query candidates m embs).Nodup := by
  have hscored : ((candidates.filterMap fun x =>
      ((embs x).map (fl.dot query)).map fun s => (s, x)).map (·.2)).Nodup :=
    BestFirst.nodup_scored (fun _ _ => rfl) h
  simp only [Option.map_map, Function.comp_def] at hscored
  exact (((List.perm_insertionSort _ _).map _).nodup_iff.mpr hscored).sublist
    ((List.take_sublist _ _).map _)

lemma length_selectNeighbors {m : ℕ} : (selectNeighbors fl query candidates m embs).length ≤ m := by
  rw [selectNeighbors, List.length_map]
  exact List.length_take_le _ _

variable {eps : List ℕ}

/-- A search of a layer that is closed under the links of the layer stays among its nodes. -/
lemma mem_searchLayer {inside : ℕ → Prop} (hclosed : ∀ x, inside x → ∀ y ∈ g.links layer x, inside y)
    (heps : ∀ x ∈ eps, inside x) (hnodup : eps.Nodup) {ef : ℕ}
    (h : x ∈ g.searchLayer fl query eps ef layer embs) : inside x :=
  (BestFirst.mem_search hclosed heps hnodup h).1

lemma nodup_searchLayer (hnodup : eps.Nodup) {ef : ℕ} : (g.searchLayer fl query eps ef layer embs).Nodup :=
  BestFirst.nodup_search hnodup

/-- A search of a layer has steps enough to come to its end. -/
theorem searchLayer_ends (query : E) (eps : List ℕ) (ef layer : ℕ) (embs : ℕ → Option E) :
    let score := fun x => (embs x).map (fl.dot query)
    BestFirst.step (ranking fl) score (g.links layer) ef
      (BestFirst.run (ranking fl) score (g.links layer) ef (eps.length + g.linkCount layer)
        (BestFirst.start (ranking fl) score eps)) = none := by
  intro score
  let reached := g.neighbors.keys.biUnion fun x => (g.links layer x).toFinset
  have hreached : ∀ x, ∀ y ∈ g.links layer x, y ∈ reached := by
    intro x y hy
    by_cases hx : x ∈ g.neighbors.keys
    · exact Finset.mem_biUnion.mpr ⟨x, hx, List.mem_toFinset.mpr hy⟩
    · have hnil : g.links layer x = [] := by rw [HnswGraph.links, layersOf_eq_nil hx]; rfl
      rw [hnil] at hy
      exact absurd hy List.not_mem_nil
  have hcandidates : (BestFirst.start (ranking fl) score eps).candidates.length ≤ eps.length := by
    rw [BestFirst.start, (BestFirst.perm_foldr_push _).length_eq]
    exact List.length_filterMap_le _ _
  have hlinks : reached.card ≤ g.linkCount layer :=
    Finset.card_biUnion_le.trans (Finset.sum_le_sum fun x _ => List.toFinset_card_le _)
  have hrest : (reached \ (BestFirst.start (ranking fl) score eps).visited).card ≤ reached.card :=
    Finset.card_le_card Finset.sdiff_subset
  exact BestFirst.step_run hreached (by omega)

/-! ## Linking -/

/-- A list is right, and it has a node only where the node was linked. -/
def Reached (nodes : Finset ℕ) (id : ℕ) (linked : ℕ → ℕ → Prop) (x layer : ℕ) (links : List ℕ) : Prop :=
  LinksOk nodes x layer links ∧ (id ∈ links → linked x layer)

variable {nodes : Finset ℕ} {linked : ℕ → ℕ → Prop} {nbr : ℕ}

lemma Reached.mono {linked' : ℕ → ℕ → Prop} (h : Reached nodes id linked x layer links)
    (hsub : ∀ x layer, linked x layer → linked' x layer) : Reached nodes id linked' x layer links :=
  ⟨h.1, fun hid => hsub x layer (h.2 hid)⟩

/-- On a layer where a node was not linked, links lead to other nodes. -/
lemma Each.closed (h : g.Each (Reached nodes id linked)) (hlayer : ∀ x, ¬linked x layer)
    (hy : y ∈ g.links layer x) : y ∈ nodes ∧ y ≠ id := by
  by_cases hlt : layer < (g.layersOf x).length
  · have hlinks := h.at_links hlt
    refine ⟨(hlinks.1.inside y hy).1, ?_⟩
    rintro rfl
    exact hlayer x (hlinks.2 hy)
  · rw [links_eq_nil hlt] at hy
    exact absurd hy List.not_mem_nil

/-- A list that gets another node. -/
lemma linksOk_concat (h : LinksOk nodes nbr layer links) (hid : id ∈ nodes) (hne : nbr ≠ id)
    (hfresh : id ∉ links) :
    (∀ y ∈ links ++ [id], y ∈ nodes ∧ y ≠ nbr) ∧ (links ++ [id]).Nodup := by
  refine ⟨List.forall_mem_append.mpr ⟨h.inside, List.forall_mem_singleton.mpr ⟨hid, hne.symm⟩⟩, ?_⟩
  · refine List.nodup_append.mpr ⟨h.nodup, List.nodup_singleton id, fun a ha b hb => ?_⟩
    rw [List.mem_singleton.mp hb]
    rintro rfl
    exact hfresh ha

lemma Each.linkBack (h : g.Each (Reached nodes id linked)) (hid : id ∈ nodes) (hne : nbr ≠ id)
    (hemb : (embs nbr).isSome = true) (hlayer : ¬linked nbr layer) :
    (linkBack fl embs layer id g nbr).Each
      (Reached nodes id fun x j => linked x j ∨ (x = nbr ∧ j = layer)) := by
  have hmono := h.mono fun _ _ _ hr => hr.mono fun x j hxj =>
    (Or.inl hxj : linked x j ∨ (x = nbr ∧ j = layer))
  unfold HnswGraph.linkBack
  by_cases hlt : layer < (g.layersOf nbr).length
  · obtain ⟨hok, honly⟩ := h.at_links hlt
    obtain ⟨hinside, hnodup⟩ := linksOk_concat hok hid hne fun hmem => hlayer (honly hmem)
    obtain ⟨e, he⟩ := Option.isSome_iff_exists.mp hemb
    rw [if_pos hlt]
    dsimp only
    rw [he]
    dsimp only
    rw [setLinks_setLinks]
    split_ifs with hmany
    · refine hmono.setLinks ⟨⟨fun y hy => hinside y (mem_selectNeighbors hy).1,
        nodup_selectNeighbors hnodup, ?_⟩, fun _ => Or.inr ⟨rfl, rfl⟩⟩
      exact length_selectNeighbors.trans (Nat.le_mul_of_pos_right _ (by decide))
    · refine hmono.setLinks ⟨⟨hinside, hnodup, ?_⟩, fun _ => Or.inr ⟨rfl, rfl⟩⟩
      exact (Nat.le_of_not_lt hmany).trans (Nat.le_mul_of_pos_right _ (by decide))
  · rw [if_neg hlt]
    exact hmono

lemma Each.wireBack (h : g.Each (Reached nodes id linked)) (hid : id ∈ nodes) (hne : nbr ≠ id)
    (hlayer : ¬linked nbr layer) :
    (wireBack layer id g nbr).Each
      (Reached nodes id fun x j => linked x j ∨ (x = nbr ∧ j = layer)) := by
  have hmono := h.mono fun _ _ _ hr => hr.mono fun x j hxj =>
    (Or.inl hxj : linked x j ∨ (x = nbr ∧ j = layer))
  unfold HnswGraph.wireBack
  split_ifs with hroom
  · obtain ⟨hok, honly⟩ := h.at_links hroom.1
    obtain ⟨hinside, hnodup⟩ := linksOk_concat hok hid hne fun hmem => hlayer (honly hmem)
    refine hmono.setLinks ⟨⟨hinside, hnodup, ?_⟩, fun _ => Or.inr ⟨rfl, rfl⟩⟩
    rw [List.length_append]
    exact hroom.2
  · exact hmono

variable (linked) in
/-- Link some nodes back, one after the other. -/
lemma Each.foldl_back {f : HnswGraph → ℕ → HnswGraph} {selected : List ℕ}
    (h : g.Each (Reached nodes id linked))
    (hf : ∀ g linked nbr, g.Each (Reached nodes id linked) → nbr ∈ selected → ¬linked nbr layer →
      (f g nbr).Each (Reached nodes id fun x j => linked x j ∨ (x = nbr ∧ j = layer)))
    (hnodup : selected.Nodup) (hlayer : ∀ x ∈ selected, ¬linked x layer) :
    (selected.foldl f g).Each
      (Reached nodes id fun x j => linked x j ∨ (x ∈ selected ∧ j = layer)) := by
  induction selected generalizing g linked with
  | nil => exact h.mono fun _ _ _ hr => hr.mono fun _ _ => Or.inl
  | cons nbr selected ih =>
    obtain ⟨hnbr, hnodup⟩ := List.nodup_cons.mp hnodup
    have hhead := hf g linked nbr h List.mem_cons_self (hlayer nbr List.mem_cons_self)
    have hrest := ih _ hhead (fun g linked x hg hx => hf g linked x hg (List.mem_cons_of_mem _ hx))
      hnodup (fun x hx => ?_)
    · refine hrest.mono fun _ _ _ hr => hr.mono fun x j hxj => ?_
      rcases hxj with (hxj | ⟨rfl, rfl⟩) | ⟨hx, rfl⟩
      · exact Or.inl hxj
      · exact Or.inr ⟨List.mem_cons_self, rfl⟩
      · exact Or.inr ⟨List.mem_cons_of_mem _ hx, rfl⟩
    · rintro (hxl | ⟨rfl, -⟩)
      · exact hlayer x (List.mem_cons_of_mem _ hx) hxl
      · exact hnbr hx

lemma sameNodes_linkBack (embs : ℕ → Option E) (layer id : ℕ) (g : HnswGraph) (nbr : ℕ) :
    SameNodes g (linkBack fl embs layer id g nbr) := by
  unfold HnswGraph.linkBack
  dsimp only
  split_ifs
  · split
    · exact (sameNodes_setLinks g _ _ _).trans (sameNodes_setLinks _ _ _ _)
    · exact sameNodes_setLinks g _ _ _
  · exact sameNodes_setLinks g _ _ _
  · exact SameNodes.refl g

lemma sameNodes_wireBack (layer id : ℕ) (g : HnswGraph) (nbr : ℕ) :
    SameNodes g (wireBack layer id g nbr) := by
  unfold HnswGraph.wireBack
  split_ifs
  · exact sameNodes_setLinks g _ _ _
  · exact SameNodes.refl g

variable (fl) in
/-- Link a node on a layer where nothing is linked to it. -/
lemma Each.insertLayer (h : g.Each (Reached nodes id linked)) (hid : id ∈ nodes) (layer : ℕ)
    (hlayer : ∀ x, ¬linked x layer) (embedding : E) (embs : ℕ → Option E)
    (heps : ∀ x ∈ eps, x ∈ nodes ∧ x ≠ id) (hnodup : eps.Nodup) :
    (insertLayer fl id embedding embs (g, eps) layer).1.Each
        (Reached nodes id fun x j => linked x j ∨ j = layer) ∧
      (∀ x ∈ (insertLayer fl id embedding embs (g, eps) layer).2, x ∈ nodes ∧ x ≠ id) ∧
      (insertLayer fl id embedding embs (g, eps) layer).2.Nodup := by
  have hcandidates : ∀ x ∈ g.searchLayer fl embedding eps efConstruction layer embs,
      x ∈ nodes ∧ x ≠ id :=
    fun x hx => mem_searchLayer (fun _ _ _ hy => h.closed hlayer hy) heps hnodup hx
  have hsearched : (g.searchLayer fl embedding eps efConstruction layer embs).Nodup :=
    nodup_searchLayer hnodup
  refine ⟨?_, hcandidates, hsearched⟩
  unfold HnswGraph.insertLayer
  dsimp only
  generalize hselected : selectNeighbors fl embedding
    (g.searchLayer fl embedding eps efConstruction layer embs) (maxLinks layer) embs = selected
  have hmem : ∀ x ∈ selected, (x ∈ nodes ∧ x ≠ id) ∧ (embs x).isSome = true := by
    intro x hx
    obtain ⟨hcandidate, hemb⟩ := mem_selectNeighbors (hselected ▸ hx)
    exact ⟨hcandidates x hcandidate, hemb⟩
  have hok : LinksOk nodes id layer selected := by
    refine ⟨fun x hx => (hmem x hx).1, hselected ▸ nodup_selectNeighbors hsearched, ?_⟩
    exact hselected ▸ length_selectNeighbors.trans (Nat.le_mul_of_pos_right _ (by decide))
  have hset : (g.setLinks id layer selected).Each (Reached nodes id linked) :=
    h.setLinks ⟨hok, fun hself => absurd rfl (hmem id hself).1.2⟩
  refine (hset.foldl_back linked (fun g' linked' nbr hg hnbr hl => ?_) hok.nodup
    fun x _ => hlayer x).mono fun _ _ _ hr => hr.mono fun x j hxj => hxj.imp_right And.right
  exact hg.linkBack hid (hmem nbr hnbr).1.2 (hmem nbr hnbr).2 hl

variable (fl) in
/-- Link a node on the layers below `n`, downwards. -/
lemma Each.foldl_insertLayer (hid : id ∈ nodes) (embedding : E) (embs : ℕ → Option E) (n : ℕ)
    {g : HnswGraph} (h : g.Each (Reached nodes id fun _ j => n ≤ j))
    (heps : ∀ x ∈ eps, x ∈ nodes ∧ x ≠ id) (hnodup : eps.Nodup) :
    ((List.range n).reverse.foldl (HnswGraph.insertLayer fl id embedding embs) (g, eps)).1.Each
      (LinksOk nodes) := by
  induction n generalizing g eps with
  | zero => exact h.mono fun _ _ _ hr => hr.1
  | succ n ih =>
    rw [List.range_succ, List.reverse_append, List.reverse_singleton, List.singleton_append,
      List.foldl_cons]
    obtain ⟨heach, hinside, hsearched⟩ := h.insertLayer fl hid n (fun x => by omega)
      embedding embs heps hnodup
    exact ih (heach.mono fun _ _ _ hr => hr.mono fun x j hxj => by omega) hinside hsearched

variable (fl) in
/-- What a search from above finds. -/
lemma mem_descend (query : E) (level : ℕ) {ep : ℕ} (embs : ℕ → Option E) {inside : ℕ → Prop}
    (hclosed : ∀ layer x, inside x → ∀ y ∈ g.links layer x, inside y) (hep : inside ep) :
    (∀ x ∈ g.descend fl query level ep embs, inside x) ∧
      (g.descend fl query level ep embs).Nodup := by
  unfold HnswGraph.descend
  refine List.foldlRecOn (motive := fun eps : List ℕ => (∀ x ∈ eps, inside x) ∧ eps.Nodup) _ _ ?_
    fun eps ⟨heps, hnodup⟩ layer _ => ?_
  · exact ⟨fun x hx => List.mem_singleton.mp hx ▸ hep, List.nodup_singleton ep⟩
  · exact ⟨fun x hx => mem_searchLayer (hclosed layer) heps hnodup hx, nodup_searchLayer hnodup⟩

/-! ## The nodes -/

/-- Every node has a layer, and searches start at a node with its level, unless there are none. -/
structure Rooted (g : HnswGraph) : Prop where
  layered : ∀ x ∈ g.neighbors.keys, 0 < (g.layersOf x).length
  none : g.entryPoint = none → g.neighbors.keys = ∅
  entry : ∀ ep level, g.entryPoint = some (ep, level) →
    ep ∈ g.neighbors.keys ∧ level + 1 = (g.layersOf ep).length

lemma Rooted.same {g' : HnswGraph} (h : Rooted g) (hsame : SameNodes g g') : Rooted g' := by
  refine ⟨fun x hx => ?_, fun hnone => ?_, fun ep level hentry => ?_⟩
  · rw [hsame.levels]
    exact h.layered x (hsame.keys ▸ hx)
  · rw [hsame.keys]
    exact h.none (hsame.entryPoint ▸ hnone)
  · rw [hsame.keys, hsame.levels]
    exact h.entry ep level (hsame.entryPoint ▸ hentry)

variable {level : ℕ}

lemma layersOf_addNode : (g.addNode id level).layersOf x =
    if x = id then List.replicate (level + 1) [] else g.layersOf x :=
  layersOf_insert

lemma keys_addNode (g : HnswGraph) (id level : ℕ) :
    (g.addNode id level).neighbors.keys = Insert.insert id g.neighbors.keys :=
  HashMaps.keys_insert

/-- A node that is added may become the entry point. -/
lemma Rooted.addTop {g' : HnswGraph} (h : Rooted g) (hsame : SameNodes (g.addNode id level) g') :
    Rooted { g' with entryPoint := some (id, level) } := by
  refine ⟨fun x hx => ?_, fun hnone => absurd hnone (by simp), fun ep level' hentry => ?_⟩
  · refine (hsame.levels x).symm ▸ ?_
    rw [layersOf_addNode]
    split_ifs with hxid
    · simp
    · have hmem : x ∈ Insert.insert id g.neighbors.keys := keys_addNode g id level ▸ hsame.keys ▸ hx
      exact h.layered x ((Finset.mem_insert.mp hmem).resolve_left hxid)
  · obtain ⟨rfl, rfl⟩ := Prod.mk.inj (Option.some.inj hentry)
    refine ⟨?_, (hsame.levels id).symm ▸ ?_⟩
    · exact hsame.keys ▸ keys_addNode g id level ▸ Finset.mem_insert_self _ _
    · rw [layersOf_addNode, if_pos rfl, List.length_replicate]

lemma Rooted.addBelow {g' : HnswGraph} (h : Rooted g) (hid : id ∉ g.neighbors.keys)
    (hsome : g.entryPoint ≠ Option.none) (hsame : SameNodes (g.addNode id level) g') : Rooted g' := by
  refine ⟨(h.addTop hsame).layered, fun hnone => ?_, fun ep level' hentry => ?_⟩
  · exact absurd (hsame.entryPoint.symm.trans hnone) hsome
  · obtain ⟨hep, hlevel⟩ := h.entry ep level' (hsame.entryPoint.symm.trans hentry)
    have hne : ep ≠ id := fun heq => hid (heq ▸ hep)
    refine ⟨hsame.keys ▸ keys_addNode g id level ▸ Finset.mem_insert_of_mem hep, ?_⟩
    rw [hsame.levels, layersOf_addNode, if_neg hne]
    exact hlevel

/-! ## Steps -/

/-- The lists are right, and so is the entry point. -/
structure Sane (g : HnswGraph) : Prop where
  each : g.Each (LinksOk g.neighbors.keys)
  rooted : Rooted g

lemma linksOk_mono {nodes' : Finset ℕ} (h : LinksOk nodes x layer links) (hsub : nodes ⊆ nodes') :
    LinksOk nodes' x layer links :=
  ⟨fun y hy => ⟨hsub (h.inside y hy).1, (h.inside y hy).2⟩, h.nodup, h.bounded⟩

lemma linksOk_nil : LinksOk nodes x layer [] :=
  ⟨List.forall_mem_nil _, List.nodup_nil, Nat.zero_le _⟩

/-- Nothing is linked to a node that is added. -/
lemma Sane.each_addNode (h : Sane g) (hid : id ∉ g.neighbors.keys) (level : ℕ) :
    (g.addNode id level).Each
      (Reached (Insert.insert id g.neighbors.keys) id fun _ _ => False) := by
  intro x layer links hlinks
  rw [layersOf_addNode] at hlinks
  split_ifs at hlinks
  · have hnil : links = [] := List.eq_of_mem_replicate (List.mem_of_getElem? hlinks)
    exact hnil ▸ ⟨linksOk_nil, fun hmem => absurd hmem List.not_mem_nil⟩
  · have hok := h.each x layer links hlinks
    exact ⟨linksOk_mono hok (Finset.subset_insert _ _), fun hmem => hid (hok.inside id hmem).1⟩

/-- A node that is linked becomes the entry point. -/
lemma Sane.addTop {g' : HnswGraph} (h : Sane g) (hsame : SameNodes (g.addNode id level) g')
    (heach : g'.Each (LinksOk (Insert.insert id g.neighbors.keys))) :
    Sane { g' with entryPoint := some (id, level) } := by
  rw [← keys_addNode g id level, ← hsame.keys] at heach
  exact ⟨heach, h.rooted.addTop hsame⟩

/-- A node that is linked becomes the entry point, unless another one is above it. -/
lemma Sane.placed {g' : HnswGraph} (h : Sane g) (hid : id ∉ g.neighbors.keys)
    (hsome : g.entryPoint ≠ none) (hsame : SameNodes (g.addNode id level) g')
    (heach : g'.Each (LinksOk (Insert.insert id g.neighbors.keys))) :
    Sane (if g.top < level then { g' with entryPoint := some (id, level) } else g') := by
  split_ifs
  · exact h.addTop hsame heach
  · rw [← keys_addNode g id level, ← hsame.keys] at heach
    exact ⟨heach, h.rooted.addBelow hid hsome hsame⟩

variable (fl) in
lemma sameNodes_foldl_insertLayer (id : ℕ) (embedding : E) (embs : ℕ → Option E) (layers : List ℕ)
    (p : HnswGraph × List ℕ) :
    SameNodes p.1 (layers.foldl (insertLayer fl id embedding embs) p).1 := by
  induction layers generalizing p with
  | nil => exact SameNodes.refl _
  | cons layer layers ih =>
    have hhead : SameNodes p.1 (insertLayer fl id embedding embs p layer).1 :=
      (sameNodes_setLinks _ _ _ _).trans (SameNodes.foldl (sameNodes_linkBack embs layer id) _ _)
    exact hhead.trans (ih _)

lemma Sane.insert (h : Sane g) (hid : id ∉ g.neighbors.keys) (embedding : E) (embs : ℕ → Option E) :
    Sane (g.insert fl id embedding embs) := by
  unfold HnswGraph.insert
  dsimp only
  generalize fl.level g.neighbors.keys.card = level
  have hadded := h.each_addNode hid level
  split
  · exact h.addTop (SameNodes.refl _) (hadded.mono fun _ _ _ hr => hr.1)
  · rename_i ep epLevel hentry
    have hep := (h.rooted.entry ep epLevel hentry).1
    have hstart : ep ∈ Insert.insert id g.neighbors.keys ∧ ep ≠ id :=
      ⟨Finset.mem_insert_of_mem hep, fun heq => hid (heq ▸ hep)⟩
    obtain ⟨heps, hnodup⟩ := mem_descend fl embedding level embs
      (fun _ _ _ _ hy => hadded.closed (fun _ => not_false) hy) hstart
    generalize (g.addNode id level).descend fl embedding level ep embs = eps at heps hnodup ⊢
    have hsame := sameNodes_foldl_insertLayer fl id embedding embs
      (List.range (min level g.top + 1)).reverse (g.addNode id level, eps)
    have heach := Each.foldl_insertLayer fl (Finset.mem_insert_self id g.neighbors.keys) embedding
      embs (min level g.top + 1)
      (hadded.mono fun _ _ _ hr => hr.mono fun _ _ hfalse => hfalse.elim) heps hnodup
    exact h.placed hid (by rw [hentry]; simp) hsame heach

lemma sameNodes_wireLayer (id : ℕ) (g : HnswGraph) (p : List ℕ × ℕ) :
    SameNodes g (wireLayer id g p) :=
  (sameNodes_setLinks _ _ _ _).trans (SameNodes.foldl (sameNodes_wireBack p.2 id) _ _)

/-- Wire the layers of a plan that fits, from a layer upwards. -/
lemma Each.foldl_wireLayer (hid : id ∈ nodes) {perLayer : List (List ℕ)} {n : ℕ}
    (hfits : ∀ p ∈ perLayer.zipIdx n, LinksOk (nodes.erase id) id p.2 p.1)
    (h : g.Each (Reached nodes id fun _ j => j < n)) :
    ((perLayer.zipIdx n).foldl (wireLayer id) g).Each (LinksOk nodes) := by
  induction perLayer generalizing g n with
  | nil => exact h.mono fun _ _ _ hr => hr.1
  | cons selected perLayer ih =>
    rw [List.zipIdx_cons, List.foldl_cons]
    rw [List.zipIdx_cons] at hfits
    obtain ⟨hselected, hfits⟩ := List.forall_mem_cons.mp hfits
    have hne : ∀ x ∈ selected, x ≠ id := fun x hx => (hselected.inside x hx).2
    refine ih hfits ?_
    unfold HnswGraph.wireLayer
    have hset : (g.setLinks id n selected).Each (Reached nodes id fun _ j => j < n) :=
      h.setLinks ⟨linksOk_mono hselected (Finset.erase_subset _ _), fun hmem => absurd rfl (hne id hmem)⟩
    refine (hset.foldl_back (fun _ j => j < n)
      (fun g' linked' nbr hg hnbr hl => hg.wireBack hid (hne nbr hnbr) hl)
      hselected.nodup fun x _ => lt_irrefl n).mono fun _ _ _ hr => hr.mono fun x j hxj => ?_
    omega

lemma Sane.wirePrecomputed (h : Sane g) (hid : id ∉ g.neighbors.keys)
    {perLayer : List (List ℕ)} (hfits : g.entryPoint = none ∨
      ∀ p ∈ (perLayer.take (level + 1)).zipIdx, LinksOk g.neighbors.keys id p.2 p.1) :
    Sane (g.wirePrecomputed id level perLayer) := by
  unfold HnswGraph.wirePrecomputed
  dsimp only
  have hadded := h.each_addNode hid level
  split
  · exact h.addTop (SameNodes.refl _) (hadded.mono fun _ _ _ hr => hr.1)
  · rename_i entry hentry
    have hfits := hfits.resolve_left (by rw [hentry]; simp)
    have hsame := SameNodes.foldl (sameNodes_wireLayer id) (perLayer.take (level + 1)).zipIdx
      (g.addNode id level)
    have heach := Each.foldl_wireLayer (Finset.mem_insert_self id g.neighbors.keys)
      (by rwa [Finset.erase_insert hid])
      (hadded.mono fun _ _ _ hr => hr.mono fun _ _ hfalse => hfalse.elim)
    exact h.placed hid (by rw [hentry]; simp) hsame heach

/-! ## Removing -/

lemma sameNodes_unlink (id : ℕ) (g : HnswGraph) (nbr : ℕ) : SameNodes g (unlink id g nbr) := by
  unfold HnswGraph.unlink
  split
  · rename_i layers hnbr
    exact sameNodes_insert hnbr (List.length_map _)
  · exact SameNodes.refl g

lemma layersOf_unlink : (unlink id g nbr).layersOf x =
    if x = nbr then (g.layersOf x).map fun l => l.filter (· ≠ id) else g.layersOf x := by
  unfold HnswGraph.unlink
  split
  · rename_i layers hnbr
    rw [layersOf_insert]
    split_ifs with hx
    · rw [hx, layersOf, hnbr]
      rfl
    · rfl
  · rename_i hnbr
    split_ifs with hx
    · rw [hx, layersOf, hnbr]
      rfl
    · rfl

/-- Take a node out of the lists that may have it. -/
lemma Each.foldl_unlink {nbrs : List ℕ} (h : g.Each (Reached nodes id fun x _ => x ∈ nbrs)) :
    (nbrs.foldl (unlink id) g).Each (Reached nodes id fun _ _ => False) := by
  induction nbrs generalizing g with
  | nil => exact h.mono fun _ _ _ hr => hr.mono fun _ _ hmem => List.not_mem_nil hmem
  | cons nbr nbrs ih =>
    refine ih fun x layer links hlinks => ?_
    rw [layersOf_unlink] at hlinks
    split_ifs at hlinks with hx
    · rw [List.getElem?_map] at hlinks
      obtain ⟨old, hold, rfl⟩ := Option.map_eq_some_iff.mp hlinks
      have hok := (h x layer old hold).1
      refine ⟨⟨fun y hy => hok.inside y (List.mem_of_mem_filter hy), hok.nodup.filter _, ?_⟩, ?_⟩
      · exact (List.length_filter_le _ _).trans hok.bounded
      · intro hmem
        exact absurd rfl (of_decide_eq_true (List.mem_filter.mp hmem).2)
    · have hreached := h x layer links hlinks
      exact ⟨hreached.1, fun hmem => (List.mem_cons.mp (hreached.2 hmem)).resolve_left hx⟩

/-- A fold that keeps what it has or takes what comes ends at one of these. -/
lemma mem_or_of_foldl {α : Type*} {f : Option α → α → Option α}
    (hf : ∀ best p, f best p = some p ∨ f best p = best) {ps : List α} {best : Option α} {q : α}
    (h : ps.foldl f best = some q) : q ∈ ps ∨ best = some q := by
  induction ps generalizing best with
  | nil => exact Or.inr h
  | cons p ps ih =>
    rcases ih h with hmem | hbest
    · exact Or.inl (List.mem_cons_of_mem _ hmem)
    · rcases hf best p with htake | hkeep
      · rw [htake] at hbest
        exact Or.inl (List.mem_cons.mpr (Or.inl (Option.some.inj hbest).symm))
      · exact Or.inr (hkeep ▸ hbest)

/-- A fold that never lets go of what it has ends with something. -/
lemma foldl_ne_none {α : Type*} {f : Option α → α → Option α}
    (hf : ∀ best p, f best p ≠ Option.none) (ps : List α) {best : Option α}
    (h : best ≠ Option.none) : ps.foldl f best ≠ Option.none :=
  List.foldlRecOn (motive := (· ≠ Option.none)) ps f h fun best _ p _ => hf best p

/-- The highest of some nodes is one of them. -/
lemma mem_of_highest {ps : List (ℕ × ℕ)} {p : ℕ × ℕ} (h : highest ps = some p) : p ∈ ps := by
  refine (mem_or_of_foldl (fun best p => ?_) h).resolve_right (by simp)
  rcases best with _ | b
  · exact Or.inl rfl
  · dsimp only
    split_ifs
    · exact Or.inl rfl
    · exact Or.inr rfl

lemma highest_eq_none {ps : List (ℕ × ℕ)} (h : highest ps = Option.none) : ps = [] := by
  rcases ps with _ | ⟨p, ps⟩
  · rfl
  · refine absurd h (foldl_ne_none (fun best p => ?_) ps (Option.some_ne_none p))
    rcases best with _ | b
    · exact Option.some_ne_none _
    · dsimp only
      split_ifs
      · exact Option.some_ne_none _
      · exact Option.some_ne_none _

/-- Another entry point is chosen among the nodes that are left. -/
lemma Rooted.choose (hlayered : ∀ x ∈ g.neighbors.keys, 0 < (g.layersOf x).length)
    (order : HashMaps.KeyOrder ℕ) :
    Rooted { g with entryPoint := highest ((order.list g.neighbors.keys).map fun x =>
      (x, (g.layersOf x).length - 1)) } := by
  refine ⟨hlayered, fun hnone => ?_, fun ep level hentry => ?_⟩
  · have hnil := List.map_eq_nil_iff.mp (highest_eq_none hnone)
    refine Finset.eq_empty_of_forall_notMem fun x hx => ?_
    have hmem := (order.mem g.neighbors.keys x).mpr hx
    rw [hnil] at hmem
    exact List.not_mem_nil hmem
  · obtain ⟨x, hx, heq⟩ := List.mem_map.mp (mem_of_highest hentry)
    obtain ⟨rfl, rfl⟩ := Prod.mk.inj heq
    have hkey := (order.mem _ _).mp hx
    have hpos := hlayered x hkey
    exact ⟨hkey, Nat.sub_add_cancel hpos⟩

lemma Sane.remove (h : Sane g)
    (hback : ∀ x ∈ g.neighbors.keys, id ∈ (g.layersOf x).flatten → x ∈ (g.layersOf id).flatten)
    (order : HashMaps.KeyOrder ℕ) : Sane (g.remove id order) := by
  unfold HnswGraph.remove
  split
  · exact h
  · rename_i own hown
    have hownOf : g.layersOf id = own := by rw [layersOf, hown]; rfl
    let erased : HnswGraph := { g with neighbors := g.neighbors.erase id }
    have hkeys : erased.neighbors.keys = g.neighbors.keys.erase id := Finmap.keys_erase id g.neighbors
    have hself : erased.layersOf id = [] :=
      layersOf_eq_nil (by rw [hkeys]; exact Finset.notMem_erase _ _)
    have hother : ∀ x, x ≠ id → erased.layersOf x = g.layersOf x := fun x hx => by
      rw [layersOf, layersOf, Finmap.lookup_erase_ne hx]
    have hstart : erased.Each (Reached g.neighbors.keys id fun x _ => x ∈ own.flatten) := by
      intro x layer links hlinks
      by_cases hx : x = id
      · rw [hx, hself] at hlinks
        exact absurd hlinks (by simp)
      · rw [hother x hx] at hlinks
        refine ⟨h.each x layer links hlinks, fun hmem => hownOf ▸ hback x ?_ ?_⟩
        · by_contra hout
          rw [layersOf_eq_nil hout] at hlinks
          exact absurd hlinks (by simp)
        · exact List.mem_flatten.mpr ⟨links, List.mem_of_getElem? hlinks, hmem⟩
    have hsame := SameNodes.foldl (sameNodes_unlink id) own.flatten erased
    have heach : (own.flatten.foldl (unlink id) erased).Each
        (LinksOk (own.flatten.foldl (unlink id) erased).neighbors.keys) := by
      rw [hsame.keys, hkeys]
      refine hstart.foldl_unlink.mono fun x layer links hr => ?_
      refine ⟨fun y hy => ⟨Finset.mem_erase.mpr ⟨?_, (hr.1.inside y hy).1⟩, (hr.1.inside y hy).2⟩,
        hr.1.nodup, hr.1.bounded⟩
      rintro rfl
      exact hr.2 hy
    have hlayered : ∀ x ∈ erased.neighbors.keys, 0 < (erased.layersOf x).length := by
      intro x hx
      rw [hkeys] at hx
      rw [hother x (Finset.ne_of_mem_erase hx)]
      exact h.rooted.layered x (Finset.mem_of_mem_erase hx)
    dsimp only
    split_ifs with hentry
    · refine ⟨heach, Rooted.choose (fun x hx => ?_) order⟩
      rw [hsame.levels]
      exact hlayered x (hsame.keys ▸ hx)
    · refine ⟨heach, Rooted.same ⟨hlayered, fun hnone => ?_, fun ep level hep => ?_⟩ hsame⟩
      · rw [hkeys, h.rooted.none hnone, Finset.erase_empty]
      · obtain ⟨hmem, hlevel⟩ := h.rooted.entry ep level hep
        have hne : ep ≠ id := by
          rintro rfl
          exact hentry (by rw [show g.entryPoint = some (ep, level) from hep]; rfl)
        rw [hkeys, hother ep hne]
        exact ⟨Finset.mem_erase.mpr ⟨hne, hmem⟩, hlevel⟩

/-- A node that links to a removed node without a link back keeps its link. -/
theorem remove_leaves_link (hid : id ∈ (g.layersOf x).flatten) (hx : x ≠ id)
    (hback : x ∉ (g.layersOf id).flatten) (order : HashMaps.KeyOrder ℕ) :
    id ∈ ((g.remove id order).layersOf x).flatten := by
  have hsame : ∀ (nbrs : List ℕ) (g : HnswGraph), x ∉ nbrs →
      (nbrs.foldl (unlink id) g).layersOf x = g.layersOf x := by
    intro nbrs
    induction nbrs with
    | nil => exact fun _ _ => rfl
    | cons nbr nbrs ih =>
      intro g hout
      rw [List.mem_cons, not_or] at hout
      rw [List.foldl_cons, ih _ hout.2, layersOf_unlink, if_neg hout.1]
  unfold HnswGraph.remove
  split
  · exact hid
  · rename_i own hown
    have hownOf : g.layersOf id = own := by rw [layersOf, hown]; rfl
    have herased : layersOf { g with neighbors := g.neighbors.erase id } x = g.layersOf x := by
      rw [layersOf, layersOf, Finmap.lookup_erase_ne hx]
    have hkept := (hsame own.flatten { g with neighbors := g.neighbors.erase id }
      (hownOf ▸ hback)).trans herased
    dsimp only
    split_ifs
    · exact (congrArg List.flatten hkept).symm ▸ hid
    · exact (congrArg List.flatten hkept).symm ▸ hid

/-! ## Runs -/

lemma Sane.edgesInside (h : Sane g) : EdgesInside g := by
  refine ⟨h.each, fun hnodes => ?_⟩
  obtain ⟨⟨ep, level⟩, hentry⟩ : ∃ p, g.entryPoint = some p := by
    rw [← Option.isSome_iff_exists, Option.isSome_iff_ne_none]
    intro hnone
    exact hnodes.ne_empty (h.rooted.none hnone)
  exact ⟨ep, level, hentry, h.rooted.entry ep level hentry⟩

lemma sane_new : Sane new :=
  ⟨fun _ _ _ h => absurd h (by simp [new, layersOf]), fun _ h => absurd h (by simp [new]),
    fun _ => by simp [new], fun _ _ h => absurd h (by simp [new])⟩

lemma Sane.live (h : Sane g) {step : GraphStep E} (hfresh : g.Fresh step) (htidy : g.Tidy step) :
    Sane (g.live fl step).1 := by
  cases step with
  | insert id embedding embs => exact h.insert hfresh embedding embs
  | wire => exact h.wirePrecomputed hfresh htidy
  | remove id order => exact h.remove htidy order

end HnswGraph

/-- Behind every run whose plans fit and whose removed nodes link back, the edges are inside the graph
and the entry point is right. -/
theorem edges_inside_of_run {E F : Type*} (fl : Floats E F) (steps : List (GraphStep E))
    (h : Replayed.All (HnswGraph.live fl) (fun g step => g.Fresh step ∧ g.Tidy step) HnswGraph.new
      steps) : EdgesInside (Replayed.run (HnswGraph.live fl) HnswGraph.new steps).1 :=
  (Replayed.invariant_run HnswGraph.Sane (fun _ _ hs hstep => hs.live hstep.1 hstep.2)
    HnswGraph.sane_new h).edgesInside

section Lost

/-- Scores are products of numbers, and all nodes have level zero. -/
def ints : Floats ℤ ℤ := ⟨(· * ·), (- ·), fun a b => a ≤ b, fun a b => a < b, fun _ => 0⟩

/-- Two nodes are inserted, and one is removed. -/
def pair : List (GraphStep ℤ) :=
  [.insert 1 1 fun x => some x, .insert 3 3 fun x => some x, .remove 3 HashMaps.upwards]

theorem edges_inside_pair :
    EdgesInside (Replayed.run (HnswGraph.live ints) HnswGraph.new pair).1 :=
  edges_inside_of_run ints pair (by decide +kernel)

/-- A plan that was computed before a neighbour was removed links to the neighbour. -/
theorem lost_neighbour :
    let plan := (Replayed.run (HnswGraph.live ints) HnswGraph.new (pair.take 2)).1.computeInsertPlan
      ints 2 0 fun x => some x
    let steps := pair ++ [.wire 2 0 plan]
    Replayed.All (HnswGraph.live ints) (fun g step => g.Fresh step) HnswGraph.new steps ∧
      ¬EdgesInside (Replayed.run (HnswGraph.live ints) HnswGraph.new steps).1 := by
  intro plan steps
  refine ⟨by decide +kernel, fun h => ?_⟩
  have hlinks := h.links 2 0 [3, 1] (by decide +kernel)
  exact absurd (hlinks.inside 3 List.mem_cons_self).1 (by decide +kernel)

end Lost

end ChittaField.Vectors
