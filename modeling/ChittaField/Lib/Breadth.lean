import Mathlib.Data.Finset.Card
import Mathlib.Data.List.Pairwise

/-!
# Breadth-first search

The nodes of a graph with labelled edges are taken from a queue, each with the labels of a trail that
leads to it.  The nodes at a depth that is wide are expanded: the neighbours that were not visited go
to the end of the queue.

A search that comes to its end has done every node that a trail through wide depths leads to once, in
the order of their depths, each with a shortest trail (`Leveled.exists_done`, `Leveled.length_le`).
-/

namespace ChittaField.Breadth

variable {α ε : Type*}

/-- What was visited, what waits, and what was done, with the trails. -/
structure Search (α ε : Type*) where
  visited : Finset α
  queue : List (List ε × α)
  done : List (List ε × α)

/-- The nodes that were discovered, in their order. -/
def Search.found (b : Search α ε) : List (List ε × α) := b.done ++ b.queue

/-- A trail of links from the start. -/
inductive Trail (link : α → ε → α → Prop) (start : α) : List ε → α → Prop
  | nil : Trail link start [] start
  | snoc {path : List ε} {x y : α} {e : ε} (h : Trail link start path x) (hlink : link x e y) :
    Trail link start (path ++ [e]) y

/-- The links of a list of edges. -/
def Listed (next : α → List (ε × α)) (x : α) (e : ε) (y : α) : Prop := (e, y) ∈ next x

section Run

variable [DecidableEq α] (next : α → List (ε × α)) (wide : ℕ → Prop) [DecidablePred wide]

/-- A neighbour that was not visited goes to the end of the queue. -/
def discover (path : List ε) (b : Search α ε) (edge : ε × α) : Search α ε :=
  if edge.2 ∈ b.visited then b
  else ⟨insert edge.2 b.visited, b.queue ++ [(path ++ [edge.1], edge.2)], b.done⟩

/-- Take the next node, and expand it where its depth is wide. -/
def step (b : Search α ε) : Option (Search α ε) :=
  match b.queue with
  | [] => none
  | (path, x) :: rest =>
    some (if wide path.length then
        (next x).foldl (discover path) ⟨b.visited, rest, b.done ++ [(path, x)]⟩
      else ⟨b.visited, rest, b.done ++ [(path, x)]⟩)

def run : ℕ → Search α ε → Search α ε
  | 0, b => b
  | n + 1, b =>
    match step next wide b with
    | none => b
    | some b' => run n b'

def begin (start : α) : Search α ε := ⟨{start}, [([], start)], []⟩

end Run

/-! ## Trails -/

variable {link : α → ε → α → Prop} {start : α}

/-- A trail may be cut anywhere, and its beginning be replaced by another trail to the same node. -/
lemma Trail.cut {path : List ε} {y : α} (h : Trail link start path y) (n : ℕ) :
    ∃ x, Trail link start (path.take n) x ∧
      ∀ path', Trail link start path' x → Trail link start (path' ++ path.drop n) y := by
  induction h with
  | nil =>
    rw [List.take_nil, List.drop_nil]
    exact ⟨start, .nil, fun path' h' => by rwa [List.append_nil]⟩
  | snoc h hlink ih =>
    rename_i path x y e
    rcases Nat.lt_or_ge path.length n with hlt | hge
    · rw [List.take_of_length_le (by rw [List.length_append, List.length_singleton]; omega),
        List.drop_eq_nil_of_le (by rw [List.length_append, List.length_singleton]; omega)]
      exact ⟨y, h.snoc hlink, fun path' h' => by rwa [List.append_nil]⟩
    · obtain ⟨z, hz, hrest⟩ := ih
      rw [List.take_append_of_le_length hge, List.drop_append_of_le_length hge]
      refine ⟨z, hz, fun path' h' => ?_⟩
      rw [← List.append_assoc]
      exact (hrest path' h').snoc hlink

lemma Trail.eq_start {y : α} (h : Trail link start [] y) : y = start := by
  generalize hpath : ([] : List ε) = path at h
  cases h with
  | nil => rfl
  | snoc _ _ => exact absurd hpath.symm (List.append_ne_nil_of_right_ne_nil _ (List.cons_ne_nil _ _))

lemma Trail.mono {link' : α → ε → α → Prop} (hlink : ∀ x e y, link x e y → link' x e y) {path : List ε}
    {y : α} (h : Trail link start path y) : Trail link' start path y := by
  induction h with
  | nil => exact .nil
  | snoc _ hstep ih => exact ih.snoc (hlink _ _ _ hstep)

/-! ## What a search keeps -/

variable {next : α → List (ε × α)} {wide : ℕ → Prop}

/-- What was discovered are different nodes in the order of their depths, each with a trail through
wide depths. -/
structure Ordered (next : α → List (ε × α)) (wide : ℕ → Prop) (start : α) (b : Search α ε) : Prop where
  seed : ([], start) ∈ b.found
  once : (b.found.map (·.2)).Nodup
  mem_visited : ∀ x, x ∈ b.visited ↔ x ∈ b.found.map (·.2)
  trail : ∀ p ∈ b.found, Trail (Listed next) start p.1 p.2 ∧ ∀ m < p.1.length, wide m
  sorted : b.found.Pairwise fun p q => p.1.length ≤ q.1.length

variable {b : Search α ε} {path : List ε} {x : α}

/-- The entry of a node that was visited. -/
lemma Ordered.exists_found (h : Ordered next wide start b) (hx : x ∈ b.visited) :
    ∃ p ∈ b.found, p.2 = x := List.mem_map.mp ((h.mem_visited x).mp hx)

/-- Discovering the neighbours of a node: they are visited behind, at most one deeper than it. -/
lemma Ordered.foldl_discover [DecidableEq α] {edges : List (ε × α)} (h : Ordered next wide start b)
    (hpath : Trail (Listed next) start path x) (hwide : ∀ m < path.length + 1, wide m)
    (hedges : ∀ edge ∈ edges, edge ∈ next x) (hle : ∀ p ∈ b.found, p.1.length ≤ path.length + 1) :
    Ordered next wide start (edges.foldl (discover path) b) ∧
    (∀ p ∈ (edges.foldl (discover path) b).found, p.1.length ≤ path.length + 1) ∧
    (edges.foldl (discover path) b).done = b.done ∧
    (∀ p ∈ b.found, p ∈ (edges.foldl (discover path) b).found) ∧
    ∀ edge ∈ edges, edge.2 ∈ (edges.foldl (discover path) b).visited := by
  induction edges generalizing b with
  | nil => exact ⟨h, hle, rfl, fun _ hp => hp, List.forall_mem_nil _⟩
  | cons edge edges ih =>
    rw [List.foldl_cons]
    obtain ⟨hedge, hedges⟩ := List.forall_mem_cons.mp hedges
    by_cases hvisited : edge.2 ∈ b.visited
    · have hsame : discover path b edge = b := if_pos hvisited
      rw [hsame]
      obtain ⟨hordered, hle', hdone, hsub, hseen⟩ := ih h hedges hle
      refine ⟨hordered, hle', hdone, hsub, List.forall_mem_cons.mpr ⟨?_, hseen⟩⟩
      obtain ⟨p, hp, hx⟩ := h.exists_found hvisited
      exact (hordered.mem_visited _).mpr (List.mem_map.mpr ⟨p, hsub p hp, hx⟩)
    · have hfresh : discover path b edge =
          ⟨insert edge.2 b.visited, b.queue ++ [(path ++ [edge.1], edge.2)], b.done⟩ :=
        if_neg hvisited
      have hfound : (discover path b edge).found = b.found ++ [(path ++ [edge.1], edge.2)] := by
        rw [hfresh, Search.found, Search.found, List.append_assoc]
      have hlength : (path ++ [edge.1]).length = path.length + 1 := by
        rw [List.length_append, List.length_singleton]
      have hordered : Ordered next wide start (discover path b edge) := by
        refine ⟨?_, ?_, fun y => ?_, ?_, ?_⟩
        · rw [hfound]
          exact List.mem_append_left _ h.seed
        · rw [hfound, List.map_append, List.map_singleton, List.nodup_append_comm]
          exact List.nodup_cons.mpr ⟨fun hbad => hvisited ((h.mem_visited _).mpr hbad), h.once⟩
        · rw [hfound, hfresh, Finset.mem_insert, h.mem_visited y, List.map_append, List.mem_append,
            List.map_singleton, List.mem_singleton, or_comm]
        · rw [hfound]
          refine List.forall_mem_append.mpr ⟨h.trail, List.forall_mem_singleton.mpr ?_⟩
          rw [hlength]
          exact ⟨hpath.snoc hedge, hwide⟩
        · rw [hfound]
          refine List.pairwise_append.mpr ⟨h.sorted, List.pairwise_singleton _ _, fun p hp q hq => ?_⟩
          rw [List.mem_singleton.mp hq, hlength]
          exact hle p hp
      have hle' : ∀ p ∈ (discover path b edge).found, p.1.length ≤ path.length + 1 := by
        rw [hfound]
        exact List.forall_mem_append.mpr ⟨hle, List.forall_mem_singleton.mpr hlength.le⟩
      obtain ⟨hordered', hle'', hdone, hsub, hseen⟩ := ih hordered hedges hle'
      have hdone' : (discover path b edge).done = b.done := by rw [hfresh]
      have hnew : (path ++ [edge.1], edge.2) ∈ (edges.foldl (discover path) (discover path b edge)).found :=
        hsub _ (by rw [hfound]; exact List.mem_concat_self)
      refine ⟨hordered', hle'', hdone.trans hdone', fun p hp => hsub p ?_,
        List.forall_mem_cons.mpr ⟨?_, hseen⟩⟩
      · rw [hfound]
        exact List.mem_append_left _ hp
      · exact (hordered'.mem_visited _).mpr (List.mem_map.mpr ⟨_, hnew, rfl⟩)

/-- **The invariant.**  Besides, what was discovered is at most one deeper than what waits, and the
neighbours of what was expanded were discovered, at most one deeper than it. -/
structure Leveled (next : α → List (ε × α)) (wide : ℕ → Prop) (start : α) (b : Search α ε) : Prop
    extends Ordered next wide start b where
  near : ∀ p ∈ b.found, ∀ q ∈ b.queue, p.1.length ≤ q.1.length + 1
  closed : ∀ p ∈ b.done, wide p.1.length → ∀ edge ∈ next p.2,
    ∃ q ∈ b.found, q.2 = edge.2 ∧ q.1.length ≤ p.1.length + 1

lemma leveled_begin : Leveled next wide start (begin start : Search α ε) := by
  refine ⟨⟨?_, ?_, fun y => ?_, ?_, ?_⟩, ?_, ?_⟩
  · exact List.mem_singleton_self _
  · exact List.nodup_singleton _
  · exact Finset.mem_singleton.trans List.mem_singleton.symm
  · exact List.forall_mem_singleton.mpr ⟨.nil, fun m hm => absurd hm (Nat.not_lt_zero m)⟩
  · exact List.pairwise_singleton _ _
  · intro p hp q hq
    rw [List.mem_singleton.mp hp]
    exact Nat.zero_le _
  · exact fun p hp => absurd hp List.not_mem_nil

section Run

variable [DecidableEq α] [DecidablePred wide]

/-- A step keeps the invariant. -/
lemma Leveled.step {b' : Search α ε} (h : Leveled next wide start b)
    (hstep : Breadth.step next wide b = some b') : Leveled next wide start b' := by
  unfold Breadth.step at hstep
  cases hqueue : b.queue with
  | nil =>
    rw [hqueue] at hstep
    cases hstep
  | cons p rest =>
    obtain ⟨path, x⟩ := p
    rw [hqueue] at hstep
    obtain rfl := Option.some.inj hstep
    -- what was discovered is the same once the node is taken
    have hfound : (⟨b.visited, rest, b.done ++ [(path, x)]⟩ : Search α ε).found = b.found := by
      rw [Search.found, Search.found, hqueue, List.append_assoc, List.singleton_append]
    have htaken : Ordered next wide start (⟨b.visited, rest, b.done ++ [(path, x)]⟩ : Search α ε) :=
      ⟨hfound ▸ h.seed, hfound ▸ h.once, fun y => hfound ▸ h.mem_visited y, hfound ▸ h.trail,
        hfound ▸ h.sorted⟩
    have hhead : (path, x) ∈ b.queue := hqueue ▸ List.mem_cons_self
    have hle : ∀ p ∈ b.found, p.1.length ≤ path.length + 1 := fun p hp => h.near p hp _ hhead
    have hmem : (path, x) ∈ b.found := List.mem_append_right _ hhead
    -- what still waits is not less deep
    have hrest : ∀ q ∈ rest, path.length ≤ q.1.length := by
      have hsorted := h.sorted
      rw [Search.found, hqueue] at hsorted
      exact (List.pairwise_cons.mp (List.pairwise_append.mp hsorted).2.1).1
    split_ifs with hwide
    · obtain ⟨htrail, hbelow⟩ := h.trail _ hmem
      obtain ⟨hordered, hle', hdone, hsub, hseen⟩ := htaken.foldl_discover htrail
        (fun m hm => (Nat.lt_succ_iff_lt_or_eq.mp hm).elim (hbelow m) (fun heq => heq ▸ hwide))
        (fun _ hedge => hedge) (hfound ▸ hle)
      rw [hfound] at hsub
      refine ⟨hordered, fun p hp q hq => ?_, fun p hp hp' edge hedge => ?_⟩
      · have hq' := hordered.sorted
        rw [Search.found, hdone, List.append_assoc] at hq'
        have hdeep := (List.pairwise_cons.mp (List.pairwise_append.mp hq').2.1).1 q
          (List.mem_append_right _ hq)
        exact (hle' p hp).trans (Nat.add_le_add_right hdeep 1)
      · rw [hdone] at hp
        rcases List.mem_append.mp hp with hp | hp
        · obtain ⟨q, hq, hnode, hlength⟩ := h.closed p hp hp' edge hedge
          exact ⟨q, hsub q hq, hnode, hlength⟩
        · rw [List.mem_singleton.mp hp] at hedge ⊢
          obtain ⟨q, hq, hnode⟩ := hordered.exists_found (hseen edge hedge)
          exact ⟨q, hq, hnode, hle' q hq⟩
    · refine ⟨htaken, fun p hp q hq => ?_, fun p hp hp' edge hedge => ?_⟩
      · rw [hfound] at hp
        exact (hle p hp).trans (Nat.add_le_add_right (hrest q hq) 1)
      · rw [hfound]
        rcases List.mem_append.mp hp with hp | hp
        · exact h.closed p hp hp' edge hedge
        · rw [List.mem_singleton.mp hp] at hp'
          exact absurd hp' hwide

/-- A run keeps the invariant. -/
lemma Leveled.run (h : Leveled next wide start b) (n : ℕ) :
    Leveled next wide start (Breadth.run next wide n b) := by
  induction n generalizing b with
  | zero => exact h
  | succ n ih =>
    rw [Breadth.run]
    cases hstep : Breadth.step next wide b with
    | none => exact h
    | some b' => exact ih (h.step hstep)

/-! ## The end of a search -/

lemma measure_foldl_discover {nodes : Finset α} {edges : List (ε × α)}
    (hedges : ∀ edge ∈ edges, edge.2 ∈ nodes) :
    (edges.foldl (discover path) b).queue.length +
        (nodes \ (edges.foldl (discover path) b).visited).card =
      b.queue.length + (nodes \ b.visited).card := by
  induction edges generalizing b with
  | nil => rfl
  | cons edge edges ih =>
    obtain ⟨hedge, hedges⟩ := List.forall_mem_cons.mp hedges
    rw [List.foldl_cons, ih hedges]
    unfold discover
    split_ifs with hvisited
    · rfl
    · have hcard : (nodes \ insert edge.2 b.visited).card + 1 = (nodes \ b.visited).card := by
        rw [Finset.sdiff_insert]
        exact Finset.card_erase_add_one (Finset.mem_sdiff.mpr ⟨hedge, hvisited⟩)
      dsimp only
      rw [List.length_append, List.length_singleton]
      omega

/-- Where all neighbours are of a finite set, a search comes to its end. -/
theorem queue_run {nodes : Finset α} (hnodes : ∀ x, ∀ edge ∈ next x, edge.2 ∈ nodes) {n : ℕ}
    (h : b.queue.length + (nodes \ b.visited).card ≤ n) : (Breadth.run next wide n b).queue = [] := by
  induction n generalizing b with
  | zero => exact List.length_eq_zero_iff.mp (by rw [Breadth.run]; omega)
  | succ n ih =>
    rw [Breadth.run]
    cases hstep : Breadth.step next wide b with
    | none =>
      unfold Breadth.step at hstep
      cases hqueue : b.queue with
      | nil => rfl
      | cons p rest =>
        rw [hqueue] at hstep
        cases hstep
    | some b' =>
      refine ih ?_
      unfold Breadth.step at hstep
      cases hqueue : b.queue with
      | nil =>
        rw [hqueue] at hstep
        cases hstep
      | cons p rest =>
        rw [hqueue] at hstep
        obtain rfl := Option.some.inj hstep
        rw [hqueue, List.length_cons] at h
        split_ifs
        · rw [measure_foldl_discover (hnodes p.2)]
          dsimp only
          omega
        · dsimp only
          omega

end Run

/-- **A search finds all that trails through wide depths lead to**, with trails that are not longer. -/
theorem Leveled.exists_done (h : Leveled next wide start b) (hend : b.queue = []) {y : α}
    (hpath : Trail (Listed next) start path y) (hwide : ∀ m < path.length, wide m) :
    ∃ p ∈ b.done, p.2 = y ∧ p.1.length ≤ path.length := by
  have hfound : b.found = b.done := by rw [Search.found, hend, List.append_nil]
  induction hpath with
  | nil => exact ⟨_, hfound ▸ h.seed, rfl, le_rfl⟩
  | snoc hpath hedge ih =>
    rw [List.length_append, List.length_singleton] at hwide ⊢
    obtain ⟨p, hp, rfl, hle⟩ := ih fun m hm => hwide m (by omega)
    obtain ⟨q, hq, hnode, hle'⟩ := h.closed p hp (hwide _ (by omega)) _ hedge
    exact ⟨q, hfound ▸ hq, hnode, by omega⟩

/-- **The trails of a search are shortest ones.** -/
theorem Leveled.length_le (h : Leveled next wide start b) (hend : b.queue = []) {p : List ε × α}
    (hp : p ∈ b.done) (hpath : Trail (Listed next) start path p.2) : p.1.length ≤ path.length := by
  have hfound : b.found = b.done := by rw [Search.found, hend, List.append_nil]
  by_contra hlt
  have hbelow := (h.trail p (hfound ▸ hp)).2
  obtain ⟨q, hq, hnode, hle⟩ := h.exists_done hend hpath fun m hm => hbelow m (by omega)
  have heq : q = p := List.inj_on_of_nodup_map h.once (hfound ▸ hq) (hfound ▸ hp) hnode
  rw [heq] at hle
  exact hlt hle

end ChittaField.Breadth
