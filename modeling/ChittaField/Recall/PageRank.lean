import Mathlib.Data.Prod.Lex
import ChittaField.Lib.Stochastic
import ChittaField.Recall.Hits

/-!
# The lane of the graph

From the hits of a query a walk over the association graph finds memories that the other lanes miss.
Nodes are explored breadth first, a few hops from the hits; every explored node has a row of transition
weights; and the walk restarts at the hits.  The arithmetic is that of rational numbers here.
`ppr_lane_proper` says that the walk is one: no mass is lost or made, and what is returned was reached.
-/

namespace ChittaField.PageRank

open Stochastic

/-! ## The lane -/

/-- What the environment sets. -/
structure Knobs where
  alpha : ℚ
  wDerived : ℚ
  wSameArtifact : ℚ
  wSameSession : ℚ
  wCoRetrieved : ℚ
  wSemNeighbor : ℚ
  frontierCap : ℕ
  maxIters : ℕ
  maxDegree : ℕ

def hopBudget : ℕ := 4

namespace Knobs

variable (k : Knobs)

def clampedAlpha : ℚ := max (1 / 100) (min k.alpha (99 / 100))

def cap (seedIds : List MemoryId) : ℕ := max k.frontierCap seedIds.length

def degree : ℕ := max k.maxDegree 1

def typePrior : EdgeType → ℚ
  | .derivedFrom => k.wDerived
  | .sameArtifact => k.wSameArtifact
  | .sameSession => k.wSameSession
  | .coRetrieved => k.wCoRetrieved
  | .supports => 4 / 10
  | .contradicts => 3 / 10
  | .semanticNeighbor => k.wSemNeighbor

/-- The transition weight of an edge, before its row is divided by its sum. -/
def weight (e : AssocEdge ℚ) : ℚ := k.typePrior e.edgeType * max e.weight 0

end Knobs

/-- The heavier first; of equal weights the smaller id. -/
def heavier (a b : ℚ × MemoryId) : Prop := toLex (-a.1, a.2) ≤ toLex (-b.1, b.2)

instance : DecidableRel heavier := fun _ _ => inferInstanceAs (Decidable (_ ≤ _))

section Exploring

variable (k : Knobs) (states : MemoryId → Option (MemoryState ℚ)) (edges : AssocEdges ℚ) (cap : ℕ)

/-- The heaviest neighbours of a node. -/
def candidates (node : MemoryId) : List (ℚ × MemoryId) :=
  ((((edges node).getD []).map fun e => (k.weight e, e.dst)).filter fun c => decide (0 < c.1)).insertionSort
    heavier |>.take k.degree

/-- Add new neighbours to the nodes and to the queue, as long as there is room. -/
def visit (hop : ℕ) : List (ℚ × MemoryId) → List MemoryId → List (MemoryId × ℕ) →
    List MemoryId × List (MemoryId × ℕ)
  | [], nodes, queue => (nodes, queue)
  | c :: cand, nodes, queue =>
    if c.2 ∈ nodes ∨ legal states c.2 = false then visit hop cand nodes queue
    else if cap ≤ nodes.length then (nodes, queue)
    else visit hop cand (nodes ++ [c.2]) (queue ++ [(c.2, hop + 1)])

/-- Explore from the front of the queue; the fuel is used up by nodes of the queue. -/
def explore : ℕ → List MemoryId → List (MemoryId × ℕ) → List MemoryId
  | 0, nodes, _ => nodes
  | _ + 1, nodes, [] => nodes
  | fuel + 1, nodes, (node, hop) :: queue =>
    if hopBudget ≤ hop ∨ cap ≤ nodes.length then explore fuel nodes queue
    else
      let next := visit states cap hop (candidates k edges node) nodes queue
      explore fuel next.1 next.2

end Exploring

/-- The hits that the walk starts from, each once. -/
def seeds (seedIds : List MemoryId) : List MemoryId :=
  seedIds.foldl (fun nodes s => if s ∈ nodes then nodes else nodes ++ [s]) []

/-- The explored nodes, the seeds first.  Every node is in the queue once, and there are no more nodes
than the cap allows. -/
def explored (k : Knobs) (states : MemoryId → Option (MemoryState ℚ)) (edges : AssocEdges ℚ)
    (seedIds : List MemoryId) : List MemoryId :=
  explore k states edges (k.cap seedIds) (k.cap seedIds) (seeds seedIds)
    ((seeds seedIds).map (·, 0))

/-- The heavier first; of equal weights the smaller place. -/
def heavierPlace (a b : ℕ × ℚ) : Prop := toLex (-a.2, a.1) ≤ toLex (-b.2, b.1)

instance : DecidableRel heavierPlace := fun _ _ => inferInstanceAs (Decidable (_ ≤ _))

/-- By places, then by weights. -/
def earlierPlace (a b : ℕ × ℚ) : Prop := toLex a ≤ toLex b

instance : DecidableRel earlierPlace := fun _ _ => inferInstanceAs (Decidable (_ ≤ _))

/-- The transitions of a node to explored nodes. -/
def row (k : Knobs) (edges : AssocEdges ℚ) (nodes : List MemoryId) (src : MemoryId) : List (ℕ × ℚ) :=
  let row := ((edges src).getD []).filterMap fun e =>
    (nodes.idxOf? e.dst).bind fun j => if 0 < k.weight e then some (j, k.weight e) else none
  normalise (((row.insertionSort heavierPlace).take k.degree).insertionSort earlierPlace)

/-- The rows of all places. -/
def adj (k : Knobs) (edges : AssocEdges ℚ) (nodes : List MemoryId) (i : ℕ) : List (ℕ × ℚ) :=
  (nodes[i]?.map (row k edges nodes)).getD []

/-- Add the weight of a seed to the restart vector and to the sum. -/
def addSeed (nodes : List MemoryId) (seedWeights : List ℚ) (r : (ℕ → ℚ) × ℚ) (s : MemoryId × ℕ) :
    (ℕ → ℚ) × ℚ :=
  match nodes.idxOf? s.1 with
  | none => r
  | some i =>
    let w := max (seedWeights[s.2]?.getD 1) 0
    (bump r.1 i w, r.2 + w)

/-- The weights of the seeds, divided by their sum; all seeds alike, if they have none. -/
def restart (seedN : ℕ) (nodes seedIds : List MemoryId) (seedWeights : List ℚ) : ℕ → ℚ :=
  let r := seedIds.zipIdx.foldl (addSeed nodes seedWeights) (fun _ => 0, 0)
  if r.2 ≤ 0 then fun i => if i < seedN then 1 / seedN else r.1 i
  else fun i => r.1 i / r.2

/-- Iterate the step, until the vector changes by less than a ten-thousandth. -/
def iterate (step : (ℕ → ℚ) → ℕ → ℚ) (n : ℕ) : ℕ → (ℕ → ℚ) → ℕ → ℚ
  | 0, p => p
  | iters + 1, p =>
    if ((List.range n).map fun i => |step p i - p i|).sum < 1 / 10000 then step p
    else iterate step n iters (step p)

/-- The higher score first; of equal scores the smaller id. -/
def ranksBefore (a b : MemoryId × ℚ) : Prop := toLex (-a.2, a.1) ≤ toLex (-b.2, b.1)

instance : DecidableRel ranksBefore := fun _ _ => inferInstanceAs (Decidable (_ ≤ _))

/-- The nodes behind the seeds by their scores. -/
def ranked (seedN : ℕ) (nodes : List MemoryId) (p : ℕ → ℚ) (topG : ℕ) : List (MemoryId × ℚ) :=
  (((nodes.zipIdx.drop seedN).filter fun x => decide (0 < p x.2)).map fun x =>
    (x.1, p x.2)).insertionSort ranksBefore |>.take topG

section Lane

variable (k : Knobs) (states : MemoryId → Option (MemoryState ℚ)) (edges : AssocEdges ℚ)
  (seedIds : List MemoryId) (seedWeights : List ℚ)

/-- One step of the walk that starts from the seeds. -/
def pprStep (p : ℕ → ℚ) : ℕ → ℚ :=
  let nodes := explored k states edges seedIds
  walkStep (adj k edges nodes) p nodes.length k.clampedAlpha
    (restart (seeds seedIds).length nodes seedIds seedWeights)

/-- The vectors of the walk. -/
def pprVector (t : ℕ) : ℕ → ℚ :=
  (pprStep k states edges seedIds seedWeights)^[t]
    (restart (seeds seedIds).length (explored k states edges seedIds) seedIds seedWeights)

/-- The best nodes behind the seeds. -/
def pprLane (topG : ℕ) : List (MemoryId × ℚ) :=
  if seedIds = [] ∨ topG = 0 then []
  else
    let nodes := explored k states edges seedIds
    let p := iterate (pprStep k states edges seedIds seedWeights) nodes.length (max k.maxIters 1)
      (restart (seeds seedIds).length nodes seedIds seedWeights)
    ranked (seeds seedIds).length nodes p topG

end Lane

/-! ## Exploring -/

/-- A memory that so many hops lead to. -/
inductive Within (edges : AssocEdges ℚ) (seedIds : List MemoryId) : ℕ → MemoryId → Prop where
  | seed {s : MemoryId} : s ∈ seedIds → Within edges seedIds 0 s
  | hop {n : ℕ} {a b : MemoryId} : Within edges seedIds n a →
      (∃ e ∈ (edges a).getD [], e.dst = b) → Within edges seedIds (n + 1) b

section Explored

variable {k : Knobs} {states : MemoryId → Option (MemoryState ℚ)} {edges : AssocEdges ℚ} {cap hop : ℕ}
  {seedIds nodes : List MemoryId} {queue : List (MemoryId × ℕ)} {node : MemoryId}

/-- The loop between two nodes of the queue. -/
structure Exploring (states : MemoryId → Option (MemoryState ℚ)) (edges : AssocEdges ℚ)
    (seedIds : List MemoryId) (cap : ℕ) (nodes : List MemoryId) (queue : List (MemoryId × ℕ)) :
    Prop where
  nodup : nodes.Nodup
  room : nodes.length ≤ cap
  behind : ∃ found, nodes = seeds seedIds ++ found ∧ ∀ x ∈ found, legal states x = true
  queued : ∀ q ∈ queue, Within edges seedIds q.2 q.1
  reached : ∀ x ∈ nodes, ∃ h ≤ hopBudget, Within edges seedIds h x

lemma exists_of_mem_candidates {c : ℚ × MemoryId} (h : c ∈ candidates k edges node) :
    ∃ e ∈ (edges node).getD [], e.dst = c.2 := by
  have hsort := (List.mem_insertionSort _).mp (List.mem_of_mem_take h)
  obtain ⟨e, he, rfl⟩ := List.mem_map.mp (List.mem_of_mem_filter hsort)
  exact ⟨e, he, rfl⟩

/-- New neighbours are legal, and one hop further. -/
lemma Exploring.visit {cand : List (ℚ × MemoryId)} (h : Exploring states edges seedIds cap nodes queue)
    (hnode : Within edges seedIds hop node) (hhop : hop < hopBudget)
    (hcand : ∀ c ∈ cand, ∃ e ∈ (edges node).getD [], e.dst = c.2) :
    Exploring states edges seedIds cap (visit states cap hop cand nodes queue).1
      (visit states cap hop cand nodes queue).2 := by
  induction cand generalizing nodes queue with
  | nil => exact h
  | cons c cand ih =>
    have hrest : ∀ c ∈ cand, ∃ e ∈ (edges node).getD [], e.dst = c.2 :=
      (List.forall_mem_cons.mp hcand).2
    rw [PageRank.visit]
    split_ifs with hskip hfull
    · exact ih h hrest
    · exact h
    · rw [not_or, Bool.not_eq_false] at hskip
      obtain ⟨hnew, hlegal⟩ := hskip
      have hwithin := Within.hop hnode (hcand c List.mem_cons_self)
      obtain ⟨found, hfound, hall⟩ := h.behind
      refine ih ⟨?_, ?_, ⟨found ++ [c.2], ?_, ?_⟩, ?_, ?_⟩ hrest
      · exact List.nodup_append.mpr ⟨h.nodup, List.nodup_singleton _, fun x hx y hy heq =>
          hnew (List.mem_singleton.mp hy ▸ heq ▸ hx)⟩
      · rw [List.length_append, List.length_singleton]
        omega
      · rw [hfound, List.append_assoc]
      · exact List.forall_mem_append.mpr ⟨hall, List.forall_mem_singleton.mpr hlegal⟩
      · exact List.forall_mem_append.mpr ⟨h.queued, List.forall_mem_singleton.mpr hwithin⟩
      · exact List.forall_mem_append.mpr ⟨h.reached, List.forall_mem_singleton.mpr ⟨hop + 1, hhop, hwithin⟩⟩

lemma Exploring.explore (fuel : ℕ) (h : Exploring states edges seedIds cap nodes queue) :
    ∃ queue', Exploring states edges seedIds cap (explore k states edges cap fuel nodes queue) queue' := by
  induction fuel generalizing nodes queue with
  | zero => exact ⟨queue, h⟩
  | succ fuel ih =>
    match queue with
    | [] => exact ⟨[], h⟩
    | (node, hop) :: queue =>
      have hnode : Within edges seedIds hop node := h.queued (node, hop) List.mem_cons_self
      have htail : Exploring states edges seedIds cap nodes queue :=
        ⟨h.nodup, h.room, h.behind, (List.forall_mem_cons.mp h.queued).2, h.reached⟩
      rw [PageRank.explore]
      split_ifs with hskip
      · exact ih htail
      · rw [not_or, not_le] at hskip
        exact ih (htail.visit hnode hskip.1 fun c hc => exists_of_mem_candidates hc)

end Explored

section Seeds

variable {seedIds : List MemoryId} {x : MemoryId}

lemma mem_seeds : x ∈ seeds seedIds ↔ x ∈ seedIds := by
  suffices hfold : ∀ (ss nodes : List MemoryId),
      x ∈ ss.foldl (fun nodes s => if s ∈ nodes then nodes else nodes ++ [s]) nodes ↔
        x ∈ nodes ∨ x ∈ ss by
    exact (hfold seedIds []).trans (or_iff_right List.not_mem_nil)
  intro ss
  induction ss with
  | nil => simp
  | cons s ss ih =>
    intro nodes
    rw [List.foldl_cons, ih, List.mem_cons]
    split_ifs with hs
    · constructor
      · exact Or.imp_right Or.inr
      · rintro (hx | rfl | hx)
        · exact Or.inl hx
        · exact Or.inl hs
        · exact Or.inr hx
    · rw [List.mem_append, List.mem_singleton, or_assoc]

lemma seeds_spec (seedIds : List MemoryId) :
    (seeds seedIds).Nodup ∧ (seeds seedIds).length ≤ seedIds.length := by
  suffices hfold : ∀ (ss nodes : List MemoryId), nodes.Nodup →
      (ss.foldl (fun nodes s => if s ∈ nodes then nodes else nodes ++ [s]) nodes).Nodup ∧
        (ss.foldl (fun nodes s => if s ∈ nodes then nodes else nodes ++ [s]) nodes).length ≤
          nodes.length + ss.length by
    have h := hfold seedIds [] List.nodup_nil
    rw [List.length_nil, Nat.zero_add] at h
    exact h
  intro ss
  induction ss with
  | nil => exact fun nodes h => ⟨h, le_rfl⟩
  | cons s ss ih =>
    intro nodes h
    rw [List.foldl_cons, List.length_cons]
    split_ifs with hs
    · obtain ⟨hnodup, hlength⟩ := ih nodes h
      exact ⟨hnodup, by omega⟩
    · obtain ⟨hnodup, hlength⟩ := ih (nodes ++ [s]) (List.nodup_append.mpr ⟨h, List.nodup_singleton _,
        fun y hy z hz heq => hs (List.mem_singleton.mp hz ▸ heq ▸ hy)⟩)
      rw [List.length_append, List.length_singleton] at hlength
      exact ⟨hnodup, by omega⟩

/-- What is explored. -/
lemma exploring_explored (k : Knobs) (states : MemoryId → Option (MemoryState ℚ))
    (edges : AssocEdges ℚ) (seedIds : List MemoryId) :
    ∃ queue, Exploring states edges seedIds (k.cap seedIds) (explored k states edges seedIds) queue := by
  obtain ⟨hnodup, hlength⟩ := seeds_spec seedIds
  refine Exploring.explore _ ⟨hnodup, hlength.trans (le_max_right _ _), ⟨[], by simp, by simp⟩,
    fun q hq => ?_, fun x hx => ?_⟩
  · obtain ⟨s, hs, rfl⟩ := List.mem_map.mp hq
    exact .seed (mem_seeds.mp hs)
  · exact ⟨0, Nat.zero_le _, .seed (mem_seeds.mp hx)⟩

end Seeds

/-! ## The walk -/

section Walk

variable {k : Knobs} {states : MemoryId → Option (MemoryState ℚ)} {edges : AssocEdges ℚ}
  {seedIds nodes : List MemoryId} {seedWeights : List ℚ}

/-- The row of a node is one. -/
lemma row_row (src : MemoryId) : Row nodes.length (row k edges nodes src) := by
  have hmem : ∀ (row : List (ℕ × ℚ)) (x : ℕ × ℚ),
      x ∈ ((row.insertionSort heavierPlace).take k.degree).insertionSort earlierPlace → x ∈ row :=
    fun row x hx => (List.mem_insertionSort _).mp (List.mem_of_mem_take ((List.mem_insertionSort _).mp hx))
  have hentry : ∀ x ∈ ((edges src).getD []).filterMap fun e =>
      (nodes.idxOf? e.dst).bind fun j => if 0 < k.weight e then some (j, k.weight e) else none,
      x.1 < nodes.length ∧ 0 ≤ x.2 := by
    intro x hx
    obtain ⟨e, -, he⟩ := List.mem_filterMap.mp hx
    obtain ⟨j, hj, hx⟩ := Option.bind_eq_some_iff.mp he
    split_ifs at hx with hpos
    obtain rfl := Option.some.inj hx
    refine ⟨?_, hpos.le⟩
    obtain ⟨hlt, -⟩ := List.idxOf?_eq_some_iff.mp hj
    exact hlt
  exact row_normalise (fun x hx => (hentry x (hmem _ x hx)).1) fun x hx => (hentry x (hmem _ x hx)).2

lemma row_adj (i : ℕ) : Row nodes.length (adj k edges nodes i) := by
  unfold adj
  cases nodes[i]? with
  | none => exact ⟨by simp, by simp, fun h => absurd rfl h⟩
  | some src => exact row_row src

/-- The weights of the seeds arrive in the restart vector. -/
lemma foldl_addSeed (nodes : List MemoryId) (seedWeights : List ℚ) (ss : List (MemoryId × ℕ)) {r : (ℕ → ℚ) × ℚ}
    (hr : (∀ i, 0 ≤ r.1 i) ∧ mass nodes.length r.1 = r.2) :
    (∀ i, 0 ≤ (ss.foldl (addSeed nodes seedWeights) r).1 i) ∧
      mass nodes.length (ss.foldl (addSeed nodes seedWeights) r).1 =
        (ss.foldl (addSeed nodes seedWeights) r).2 := by
  induction ss generalizing r with
  | nil => exact hr
  | cons s ss ih =>
    refine ih ?_
    unfold addSeed
    cases hidx : nodes.idxOf? s.1 with
    | none => exact hr
    | some i =>
      obtain ⟨hlt, -⟩ := List.idxOf?_eq_some_iff.mp hidx
      refine ⟨bump_nonneg hr.1 (le_max_right _ _), ?_⟩
      dsimp only
      rw [mass_bump hlt, hr.2]

/-- The restart vector is a distribution over the seeds. -/
lemma distribution_restart {seedN : ℕ} (hpos : 0 < seedN) (hle : seedN ≤ nodes.length) :
    Distribution nodes.length (restart seedN nodes seedIds seedWeights) := by
  have hzero : mass nodes.length (fun _ => (0 : ℚ)) = 0 := Finset.sum_const_zero
  obtain ⟨hnonneg, hmass⟩ :=
    foldl_addSeed nodes seedWeights seedIds.zipIdx (r := (fun _ => 0, 0)) ⟨fun _ => le_rfl, hzero⟩
  unfold restart
  dsimp only
  generalize seedIds.zipIdx.foldl (addSeed nodes seedWeights) (fun _ => 0, 0) = r at hnonneg hmass
  have hseed : (0 : ℚ) < seedN := Nat.cast_pos.mpr hpos
  split_ifs with hsum
  · -- without weights all seeds are alike
    have hnull : r.2 = 0 := le_antisymm hsum (hmass ▸ Finset.sum_nonneg fun i _ => hnonneg i)
    rw [hnull] at hmass
    have hall := (mass_eq_zero hnonneg).mp hmass
    refine ⟨fun i => ?_, ?_⟩
    · split_ifs
      · exact (one_div_pos.mpr hseed).le
      · exact hnonneg i
    · have hsame : ∀ i ∈ Finset.range nodes.length,
          (if i < seedN then 1 / (seedN : ℚ) else r.1 i) = if i < seedN then 1 / (seedN : ℚ) else 0 := by
        intro i hi
        rw [hall i (Finset.mem_range.mp hi)]
      have hfilter : (Finset.range nodes.length).filter (· < seedN) = Finset.range seedN := by
        ext i
        rw [Finset.mem_filter, Finset.mem_range, Finset.mem_range]
        omega
      rw [mass, Finset.sum_congr rfl hsame, ← Finset.sum_filter, hfilter, Finset.sum_const,
        Finset.card_range, nsmul_eq_mul, mul_one_div, div_self hseed.ne']
  · have hpos : 0 < r.2 := not_le.mp hsum
    refine ⟨fun i => div_nonneg (hnonneg i) hpos.le, ?_⟩
    rw [mass, ← Finset.sum_div]
    change mass nodes.length r.1 / r.2 = 1
    rw [hmass, div_self hpos.ne']

/-- The iteration ends at one of the vectors of the walk. -/
lemma exists_iterate (step : (ℕ → ℚ) → ℕ → ℚ) (n iters : ℕ) (p : ℕ → ℚ) :
    ∃ t ≤ iters, iterate step n iters p = step^[t] p := by
  induction iters generalizing p with
  | zero => exact ⟨0, le_rfl, rfl⟩
  | succ iters ih =>
    rw [iterate]
    split_ifs
    · exact ⟨1, by omega, rfl⟩
    · obtain ⟨t, ht, heq⟩ := ih (step p)
      exact ⟨t + 1, by omega, heq⟩

lemma zero_le_clampedAlpha : 0 ≤ k.clampedAlpha :=
  le_trans (by norm_num) (le_max_left _ _)

lemma clampedAlpha_le_one : k.clampedAlpha ≤ 1 :=
  max_le (by norm_num) ((min_le_right _ _).trans (by norm_num))

/-- The walk is one at every step. -/
lemma distribution_pprVector (hseeds : seedIds ≠ []) (t : ℕ) :
    Distribution (explored k states edges seedIds).length
      (pprVector k states edges seedIds seedWeights t) := by
  obtain ⟨queue, hexplored⟩ := exploring_explored k states edges seedIds
  obtain ⟨found, hfound, -⟩ := hexplored.behind
  have hle : (seeds seedIds).length ≤ (explored k states edges seedIds).length := by
    rw [hfound, List.length_append]
    omega
  have hpos : 0 < (seeds seedIds).length := by
    obtain ⟨s, hs⟩ := List.exists_mem_of_ne_nil _ hseeds
    exact List.length_pos_of_mem (mem_seeds.mpr hs)
  induction t with
  | zero => exact distribution_restart hpos hle
  | succ t ih =>
    rw [pprVector, Function.iterate_succ_apply']
    exact ih.walkStep (fun i => row_adj i) (distribution_restart hpos hle) zero_le_clampedAlpha
      clampedAlpha_le_one

end Walk

/-! ## What is returned -/

section Returned

instance : Std.Total ranksBefore := ⟨fun _ _ => le_total _ _⟩

instance : IsTrans (MemoryId × ℚ) ranksBefore := ⟨fun _ _ _ => le_trans⟩

lemma ranksBefore.score_le {a b : MemoryId × ℚ} (h : ranksBefore a b) : b.2 ≤ a.2 := by
  rcases Prod.Lex.toLex_le_toLex.mp h with hlt | ⟨heq, -⟩
  · exact (neg_lt_neg_iff.mp hlt).le
  · exact (neg_inj.mp heq).ge

variable {seedN topG : ℕ} {nodes : List MemoryId} {p : ℕ → ℚ}

lemma pairwise_ranked : (ranked seedN nodes p topG).Pairwise fun a b => b.2 ≤ a.2 :=
  ((List.pairwise_insertionSort ranksBefore _).imp ranksBefore.score_le).sublist
    (List.take_sublist ..)

lemma nodup_ranked (h : nodes.Nodup) : ((ranked seedN nodes p topG).map (·.1)).Nodup := by
  unfold ranked
  have hsub : ((((nodes.zipIdx.drop seedN).filter fun x => decide (0 < p x.2)).map fun x =>
      (x.1, p x.2)).map (·.1)).Sublist nodes := by
    rw [List.map_map]
    have hdrop := ((List.filter_sublist (p := fun x => decide (0 < p x.2))).trans
      (List.drop_sublist seedN nodes.zipIdx)).map (·.1)
    rwa [List.zipIdx_map_fst] at hdrop
  refine List.Nodup.sublist ((List.take_sublist ..).map _) ?_
  exact ((List.perm_insertionSort ranksBefore _).map _).nodup_iff.mpr (h.sublist hsub)

/-- What is returned stands behind the seeds. -/
lemma mem_drop_of_mem_ranked {x : MemoryId × ℚ} (h : x ∈ ranked seedN nodes p topG) :
    x.1 ∈ nodes.drop seedN := by
  have hsort := (List.mem_insertionSort _).mp (List.mem_of_mem_take h)
  obtain ⟨y, hy, rfl⟩ := List.mem_map.mp hsort
  have hmem := List.mem_map_of_mem (f := (·.1)) (List.mem_of_mem_filter hy)
  rwa [List.map_drop, List.zipIdx_map_fst] at hmem

end Returned

/-- What is returned is a ranking by a vector of the walk, if there are seeds and something is asked for. -/
lemma exists_pprLane {k : Knobs} {states : MemoryId → Option (MemoryState ℚ)} {edges : AssocEdges ℚ}
    {seedIds : List MemoryId} {seedWeights : List ℚ} {topG : ℕ} (hseeds : seedIds ≠ [])
    (htop : topG ≠ 0) :
    ∃ t ≤ max k.maxIters 1, pprLane k states edges seedIds seedWeights topG =
      ranked (seeds seedIds).length (explored k states edges seedIds)
        (pprVector k states edges seedIds seedWeights t) topG := by
  obtain ⟨t, hle, ht⟩ := exists_iterate (pprStep k states edges seedIds seedWeights)
    (explored k states edges seedIds).length (max k.maxIters 1)
    (restart (seeds seedIds).length (explored k states edges seedIds) seedIds seedWeights)
  refine ⟨t, hle, (if_neg (not_or.mpr ⟨hseeds, htop⟩)).trans ?_⟩
  dsimp only
  rw [ht]
  rfl

/-- Whatever the graph, the seeds, their weights and what the environment sets: every vector of the walk
is a distribution over the explored nodes, every row sums to one unless it is empty, no node is explored
twice or beyond the cap, and what is returned are distinct memories, by their scores in a vector of the
walk, that are no seeds, may be found, and are at most four hops from a seed. -/
theorem ppr_lane_proper (k : Knobs) (states : MemoryId → Option (MemoryState ℚ)) (edges : AssocEdges ℚ)
    (seedIds : List MemoryId) (seedWeights : List ℚ) (topG : ℕ) :
    let nodes := explored k states edges seedIds
    let result := pprLane k states edges seedIds seedWeights topG
    (seedIds ≠ [] → ∀ t, Distribution nodes.length (pprVector k states edges seedIds seedWeights t)) ∧
      (∀ i, Row nodes.length (adj k edges nodes i)) ∧
      nodes.Nodup ∧ nodes.length ≤ max k.frontierCap seedIds.length ∧
      (seedIds ≠ [] → topG ≠ 0 → ∃ t ≤ max k.maxIters 1, result =
        ranked (seeds seedIds).length nodes (pprVector k states edges seedIds seedWeights t) topG) ∧
      (result.map (·.1)).Nodup ∧ result.Pairwise (fun a b => b.2 ≤ a.2) ∧
      ∀ x ∈ result, x.1 ∉ seedIds ∧ legal states x.1 = true ∧ ∃ h ≤ 4, Within edges seedIds h x.1 := by
  intro nodes result
  obtain ⟨queue, hexplored⟩ := exploring_explored k states edges seedIds
  refine ⟨distribution_pprVector, row_adj, hexplored.nodup, hexplored.room, exists_pprLane, ?_⟩
  by_cases hask : seedIds = [] ∨ topG = 0
  · have hnil : result = [] := if_pos hask
    rw [hnil]
    exact ⟨List.nodup_nil, List.Pairwise.nil, fun x hx => absurd hx List.not_mem_nil⟩
  obtain ⟨hseeds, htop⟩ := not_or.mp hask
  obtain ⟨t, -, ht⟩ := exists_pprLane hseeds htop
  rw [show result = _ from ht]
  refine ⟨nodup_ranked hexplored.nodup, pairwise_ranked, fun x hx => ?_⟩
  obtain ⟨found, hfound, hlegal⟩ := hexplored.behind
  have hdrop := mem_drop_of_mem_ranked hx
  have hmem : x.1 ∈ explored k states edges seedIds := List.mem_of_mem_drop hdrop
  have hnodup := hexplored.nodup
  rw [hfound, List.drop_left] at hdrop
  rw [hfound] at hnodup
  refine ⟨fun hseed => ?_, hlegal x.1 hdrop, hexplored.reached x.1 hmem⟩
  exact (List.nodup_append.mp hnodup).2.2 x.1 (mem_seeds.mpr hseed) x.1 hdrop rfl

end ChittaField.PageRank
