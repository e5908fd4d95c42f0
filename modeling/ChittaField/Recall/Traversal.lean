import ChittaField.Lib.Breadth
import ChittaField.Organs.ReplicationRuns

/-!
# Traversal of the triplet graph

The triplets are walked breadth-first from a node, along those that are valid, not superseded and of
an allowed predicate, in one direction or both.  A node is given with the number of hops and the ids of
the triplets on the way to it.

The hops are counted in 8 bits.  `breadth_first_iff` says that a traversal that is not cut short gives
all nodes within the number of hops on shortest ways exactly where this number is below 256 or no
node is at the distance 256.
-/

namespace ChittaField

open Breadth

variable {F : Type}

inductive Direction where
  | outgoing
  | incoming
  | both
  deriving DecidableEq

/-- Triplets are followed from their subjects. -/
def Direction.forward (d : Direction) : Bool := d ≠ .incoming

/-- Triplets are followed from their objects. -/
def Direction.backward (d : Direction) : Bool := d ≠ .outgoing

/-- A node with the way to it. -/
structure TraversalHit (F : Type) where
  node : String
  hops : ℕ
  edgeWeight : F
  pathTripletIds : List ℕ

/-- What a traversal is asked for, and the clock. -/
structure TraversalQuery where
  edgeTypes : List String
  maxHops : ℕ
  maxResults : ℕ
  direction : Direction
  maxEdges : ℕ
  nowMs : ℤ

/-- The variables of the loop. -/
structure Traversal (F : Type) where
  results : List (TraversalHit F)
  visited : Finset String
  queue : List (TraversalHit F)
  edgesInspected : ℕ

/-- The weight against the direction.  Where it is negative it was not kept. -/
def TripletEntry.againstWeight [F32 F] (e : TripletEntry F) : F :=
  if F32.lt e.reverseWeight (F32.lit 0) then e.weight else e.reverseWeight

namespace TripletStore

section Code

variable [F32 F] (t : TripletStore F) (q : TraversalQuery)

/-- Follow a triplet; an error is the end of the traversal. -/
def follow (hit : TraversalHit F) (other : TripletEntry F → String) (weight : TripletEntry F → F)
    (s : Traversal F) (id : ℕ) : Except (Traversal F) (Traversal F) :=
  if q.maxEdges ≤ s.edgesInspected then .error s
  else
    let s := { s with edgesInspected := s.edgesInspected + 1 }
    match t.entryById id with
    | none => .ok s
    | some e =>
      if e.validToMs ≠ 0 && e.validToMs ≤ q.nowMs then .ok s
      else if t.isSuperseded id then .ok s
      else if !q.edgeTypes.isEmpty && !q.edgeTypes.contains e.predicate then .ok s
      else if other e ∈ s.visited then .ok s
      else .ok { s with
        visited := insert (other e) s.visited
        queue := s.queue ++ [⟨other e, (hit.hops + 1) % 2 ^ 8, F32.mul hit.edgeWeight (weight e),
          hit.pathTripletIds ++ [id]⟩] }

/-- Follow the triplets of a node. -/
def expand (hit : TraversalHit F) (s : Traversal F) : Except (Traversal F) (Traversal F) := do
  let s ← if q.direction.forward then
      ((t.bySubject hit.node).getD []).foldlM (t.follow q hit (·.object) (·.weight)) s
    else .ok s
  if q.direction.backward then
    ((t.byObject hit.node).getD []).foldlM (t.follow q hit (·.subject) (·.againstWeight)) s
  else .ok s

/-- Put a node that is not the start to the results. -/
def collect (hit : TraversalHit F) (s : Traversal F) : Traversal F :=
  if 0 < hit.hops then { s with results := s.results ++ [hit] } else s

/-- Take a node from the queue. -/
def traverseStep (s : Traversal F) : Except (Traversal F) (Traversal F) :=
  match s.queue with
  | [] => .error s
  | hit :: queue =>
    let s := collect hit { s with queue := queue }
    if 0 < hit.hops && q.maxResults ≤ s.results.length then .error s
    else if q.maxHops ≤ hit.hops then .ok s
    else t.expand q hit s

def traverseLoop : ℕ → Traversal F → Traversal F
  | 0, s => s
  | n + 1, s =>
    match t.traverseStep q s with
    | .error s' => s'
    | .ok s' => traverseLoop n s'

/-- The variables behind the loop.  No node is taken from the queue twice. -/
def traversed (start : String) : Traversal F :=
  t.traverseLoop q (2 * t.entries.length + 2) ⟨[], {start}, [⟨start, 0, F32.lit 1, []⟩], 0⟩

def graphTraverse (start : String) : List (TraversalHit F) :=
  if q.maxResults = 0 || q.maxEdges = 0 then [] else (t.traversed q start).results

end Code

/-! ## What is asked for -/

/-- The postings of strings are the ids of the triplets with them. -/
structure PostingsMatch (t : TripletStore F) : Prop where
  subject : ∀ s id, id ∈ (t.bySubject s).getD [] ↔ ∃ e, t.entryById id = some e ∧ e.subject = s
  object : ∀ s id, id ∈ (t.byObject s).getD [] ↔ ∃ e, t.entryById id = some e ∧ e.object = s

/-- A triplet that is valid, not superseded and of an allowed predicate. -/
def Allowed (t : TripletStore F) (q : TraversalQuery) (id : ℕ) (e : TripletEntry F) : Prop :=
  t.entryById id = some e ∧ isValid e q.nowMs ∧ t.isSuperseded id = false ∧
    (q.edgeTypes = [] ∨ e.predicate ∈ q.edgeTypes)

/-- A triplet leads from a node to a node. -/
def Link (t : TripletStore F) (q : TraversalQuery) (x : String) (id : ℕ) (y : String) : Prop :=
  ∃ e, t.Allowed q id e ∧ ((q.direction.forward ∧ e.subject = x ∧ e.object = y) ∨
    (q.direction.backward ∧ e.object = x ∧ e.subject = y))

/-- A node is at a distance: so long are the shortest ways to it. -/
def AtDistance (t : TripletStore F) (q : TraversalQuery) (start node : String) (n : ℕ) : Prop :=
  (∃ path, Trail (t.Link q) start path node ∧ path.length = n) ∧
    ∀ path, Trail (t.Link q) start path node → n ≤ path.length

/-- Hits are the nodes within the number of hops, except for the start, each once, by their distances,
with shortest ways. -/
structure IsBreadthFirst (t : TripletStore F) (q : TraversalQuery) (start : String)
    (hits : List (TraversalHit F)) : Prop where
  complete : ∀ node, (∃ hit ∈ hits, hit.node = node) ↔
    node ≠ start ∧ ∃ path, Trail (t.Link q) start path node ∧ path.length ≤ q.maxHops
  once : (hits.map (·.node)).Nodup
  ordered : hits.Pairwise (·.hops ≤ ·.hops)
  distance : ∀ hit ∈ hits, t.AtDistance q start hit.node hit.hops
  path : ∀ hit ∈ hits,
    Trail (t.Link q) start hit.pathTripletIds hit.node ∧ hit.pathTripletIds.length = hit.hops

/-! ## The search behind it -/

section Search

variable (t : TripletStore F) (q : TraversalQuery)

/-- The edge of a triplet, if it may be followed. -/
def usable (other : TripletEntry F → String) (id : ℕ) : Option (ℕ × String) :=
  (t.entryById id).bind fun e =>
    if isValid e q.nowMs && !t.isSuperseded id && (q.edgeTypes.isEmpty || q.edgeTypes.contains e.predicate)
    then some (id, other e) else none

/-- The edges of a node. -/
def neighbours (node : String) : List (ℕ × String) :=
  (if q.direction.forward then ((t.bySubject node).getD []).filterMap (t.usable q (·.object)) else []) ++
  if q.direction.backward then ((t.byObject node).getD []).filterMap (t.usable q (·.subject)) else []

variable {t q}

lemma usable_eq_some {other : TripletEntry F → String} {id i : ℕ} {y : String} :
    t.usable q other id = some (i, y) ↔ i = id ∧ ∃ e, t.Allowed q id e ∧ other e = y := by
  unfold usable Allowed
  rw [Option.bind_eq_some_iff]
  simp only [Option.ite_none_right_eq_some, Bool.and_eq_true, Bool.or_eq_true, Bool.not_eq_true',
    List.isEmpty_iff, List.contains_iff_mem, Option.some.injEq, Prod.mk.injEq, and_assoc]
  constructor
  · rintro ⟨e, he, hvalid, hsuper, htype, rfl, rfl⟩
    exact ⟨rfl, e, he, hvalid, hsuper, htype, rfl⟩
  · rintro ⟨rfl, e, he, hvalid, hsuper, htype, rfl⟩
    exact ⟨e, he, hvalid, hsuper, htype, rfl, rfl⟩

/-- The edges of a node are the triplets that lead from it. -/
lemma listed_neighbours (h : t.PostingsMatch) {x y : String} {id : ℕ} :
    Listed (t.neighbours q) x id y ↔ t.Link q x id y := by
  have hpost : ∀ (ids : List ℕ) (own other : TripletEntry F → String) (allowed : Bool),
      (∀ id, id ∈ ids ↔ ∃ e, t.entryById id = some e ∧ own e = x) →
      ((id, y) ∈ (if allowed then ids.filterMap (t.usable q other) else []) ↔
        ∃ e, t.Allowed q id e ∧ allowed ∧ own e = x ∧ other e = y) := by
    intro ids own other allowed hids
    cases allowed
    · simp
    · rw [if_pos rfl, List.mem_filterMap]
      constructor
      · rintro ⟨i, hi, husable⟩
        obtain ⟨rfl, e, hallowed, rfl⟩ := usable_eq_some.mp husable
        obtain ⟨e', he', hown⟩ := (hids _).mp hi
        obtain rfl := Option.some.inj (hallowed.1.symm.trans he')
        exact ⟨e, hallowed, rfl, hown, rfl⟩
      · rintro ⟨e, hallowed, -, hown, rfl⟩
        exact ⟨id, (hids id).mpr ⟨e, hallowed.1, hown⟩, usable_eq_some.mpr ⟨rfl, e, hallowed, rfl⟩⟩
  rw [Listed, neighbours, List.mem_append, hpost _ (·.subject) _ _ (h.subject x),
    hpost _ (·.object) _ _ (h.object x), ← exists_or]
  simp only [Link, and_or_left]

end Search

/-- The variables of the loop stand for a breadth-first search, whose start alone is not a result, with
the hops in 8 bits. -/
structure StandsFor (s : Traversal F) (b : Search String ℕ) : Prop where
  visited : s.visited = b.visited
  queue : s.queue.map (fun hit => (hit.pathTripletIds, hit.node)) = b.queue
  results : s.results.map (fun hit => (hit.pathTripletIds, hit.node)) =
    b.done.filter fun p => p.1.length % 2 ^ 8 ≠ 0
  hops : ∀ hit ∈ s.results ++ s.queue, hit.hops = hit.pathTripletIds.length % 2 ^ 8

section Simulation

variable [F32 F] {t : TripletStore F} {q : TraversalQuery} {s s' : Traversal F} {b : Search String ℕ}
  {hit : TraversalHit F} {other : TripletEntry F → String} {weight : TripletEntry F → F}

/-- What following a triplet does: the traversal is cut short, or the triplet is counted and leads
nowhere new, or the node that it leads to waits. -/
lemma follow_cases (t : TripletStore F) (q : TraversalQuery) (hit : TraversalHit F)
    (other : TripletEntry F → String) (weight : TripletEntry F → F) (s : Traversal F) (id : ℕ) :
    (q.maxEdges ≤ s.edgesInspected ∧ t.follow q hit other weight s id = .error s) ∨
    ((∀ edge ∈ t.usable q other id, edge.2 ∈ s.visited) ∧ t.follow q hit other weight s id =
      .ok { s with edgesInspected := s.edgesInspected + 1 }) ∨
    ∃ y w, t.usable q other id = some (id, y) ∧ y ∉ s.visited ∧
      t.follow q hit other weight s id = .ok ⟨s.results, insert y s.visited, s.queue ++
        [⟨y, (hit.hops + 1) % 2 ^ 8, w, hit.pathTripletIds ++ [id]⟩], s.edgesInspected + 1⟩ := by
  unfold follow
  by_cases hcut : q.maxEdges ≤ s.edgesInspected
  · exact Or.inl ⟨hcut, if_pos hcut⟩
  · right
    rw [if_neg hcut]
    unfold usable
    cases he : t.entryById id with
    | none => exact Or.inl ⟨fun edge hedge => by simp at hedge, rfl⟩
    | some e =>
      rw [Option.bind_some]
      dsimp only
      -- the tests of the loop are those of the edge
      have hvalid : (e.validToMs ≠ 0 && e.validToMs ≤ q.nowMs : Bool) = !isValid e q.nowMs := by
        rw [Bool.eq_iff_iff]
        simp only [isValid, Bool.and_eq_true, Bool.not_eq_true', decide_eq_true_eq,
          decide_eq_false_iff_not]
        omega
      rw [hvalid]
      cases isValid e q.nowMs
      · exact Or.inl ⟨fun edge hedge => by simp at hedge, rfl⟩
      · cases t.isSuperseded id
        · cases htype : (q.edgeTypes.isEmpty || q.edgeTypes.contains e.predicate)
          · refine Or.inl ⟨fun edge hedge => by simp at hedge, ?_⟩
            rw [← Bool.not_or, htype]
            rfl
          · rw [← Bool.not_or, htype]
            by_cases hvisited : other e ∈ s.visited
            · refine Or.inl ⟨fun edge hedge => ?_, ?_⟩
              · obtain rfl := Option.some.inj hedge
                exact hvisited
              · simp [hvisited]
            · exact Or.inr ⟨other e, F32.mul hit.edgeWeight (weight e), rfl, hvisited, by
                simp [hvisited]⟩
        · exact Or.inl ⟨fun edge hedge => by simp at hedge, rfl⟩

lemma follow_error {id : ℕ} (h : t.follow q hit other weight s id = .error s') :
    q.maxEdges ≤ s'.edgesInspected := by
  rcases follow_cases t q hit other weight s id with ⟨hcut, heq⟩ | ⟨-, heq⟩ | ⟨y, w, -, -, heq⟩
  · rw [heq] at h
    obtain rfl := Except.error.inj h
    exact hcut
  · rw [heq] at h
    cases h
  · rw [heq] at h
    cases h

/-- To follow a triplet is to discover its edge. -/
lemma StandsFor.follow {id : ℕ} (h : StandsFor s b)
    (hhops : hit.hops = hit.pathTripletIds.length % 2 ^ 8)
    (hok : t.follow q hit other weight s id = .ok s') :
    StandsFor s' ((t.usable q other id).toList.foldl (discover hit.pathTripletIds) b) := by
  rcases follow_cases t q hit other weight s id with ⟨-, heq⟩ | ⟨hseen, heq⟩ | ⟨y, w, hedge, hfresh, heq⟩
  · rw [heq] at hok
    cases hok
  · rw [heq] at hok
    obtain rfl := Except.ok.inj hok
    have hsame : (t.usable q other id).toList.foldl (discover hit.pathTripletIds) b = b := by
      cases hedge : t.usable q other id with
      | none => rfl
      | some edge => exact if_pos (h.visited ▸ hseen edge hedge)
    rw [hsame]
    exact ⟨h.visited, h.queue, h.results, h.hops⟩
  · rw [heq] at hok
    obtain rfl := Except.ok.inj hok
    have hnew : (t.usable q other id).toList.foldl (discover hit.pathTripletIds) b =
        ⟨insert y b.visited, b.queue ++ [(hit.pathTripletIds ++ [id], y)], b.done⟩ := by
      rw [hedge]
      exact if_neg (h.visited ▸ hfresh)
    rw [hnew]
    refine ⟨?_, ?_, h.results, fun hit' hhit' => ?_⟩
    · rw [h.visited]
    · rw [List.map_append, h.queue]
      rfl
    · rw [← List.append_assoc] at hhit'
      rcases List.mem_append.mp hhit' with hhit' | hhit'
      · exact h.hops hit' hhit'
      · rw [List.mem_singleton.mp hhit', List.length_append, List.length_singleton]
        dsimp only
        omega

lemma foldlM_follow_error {ids : List ℕ}
    (h : ids.foldlM (t.follow q hit other weight) s = .error s') : q.maxEdges ≤ s'.edgesInspected := by
  induction ids generalizing s with
  | nil => cases h
  | cons id ids ih =>
    rw [List.foldlM_cons] at h
    cases hfollow : t.follow q hit other weight s id with
    | error s₁ =>
      rw [hfollow] at h
      obtain rfl := Except.error.inj h
      exact follow_error hfollow
    | ok s₁ =>
      rw [hfollow] at h
      exact ih h

/-- To follow triplets is to discover their edges. -/
lemma StandsFor.foldlM_follow {ids : List ℕ} (h : StandsFor s b)
    (hhops : hit.hops = hit.pathTripletIds.length % 2 ^ 8)
    (hok : ids.foldlM (t.follow q hit other weight) s = .ok s') :
    StandsFor s' ((ids.filterMap (t.usable q other)).foldl (discover hit.pathTripletIds) b) := by
  induction ids generalizing s b with
  | nil =>
    obtain rfl := Except.ok.inj hok
    exact h
  | cons id ids ih =>
    rw [List.foldlM_cons] at hok
    cases hfollow : t.follow q hit other weight s id with
    | error s₁ =>
      rw [hfollow] at hok
      cases hok
    | ok s₁ =>
      rw [hfollow] at hok
      have hcons : (id :: ids).filterMap (t.usable q other) =
          (t.usable q other id).toList ++ ids.filterMap (t.usable q other) := by
        rw [List.filterMap_cons]
        cases t.usable q other id <;> rfl
      rw [hcons, List.foldl_append]
      exact ih (h.follow hhops hfollow) hok

/-- To expand a node is to follow its triplets in the directions that are allowed. -/
lemma expand_eq (t : TripletStore F) (q : TraversalQuery) (hit : TraversalHit F) (s : Traversal F) :
    t.expand q hit s = (((if q.direction.forward then (t.bySubject hit.node).getD [] else []).foldlM
      (t.follow q hit (·.object) (·.weight)) s).bind
        ((if q.direction.backward then (t.byObject hit.node).getD [] else []).foldlM
          (t.follow q hit (·.subject) (·.againstWeight)))) := by
  unfold expand
  cases q.direction.forward <;> cases q.direction.backward <;> rfl

lemma expand_error (h : t.expand q hit s = .error s') : q.maxEdges ≤ s'.edgesInspected := by
  rw [expand_eq] at h
  cases hforward : (if q.direction.forward then (t.bySubject hit.node).getD [] else []).foldlM
      (t.follow q hit (·.object) (·.weight)) s with
  | error s₁ =>
    rw [hforward] at h
    obtain rfl := Except.error.inj h
    exact foldlM_follow_error hforward
  | ok s₁ =>
    rw [hforward] at h
    exact foldlM_follow_error h

/-- To expand a node is to discover its edges. -/
lemma StandsFor.expand (h : StandsFor s b) (hhops : hit.hops = hit.pathTripletIds.length % 2 ^ 8)
    (hok : t.expand q hit s = .ok s') :
    StandsFor s' ((t.neighbours q hit.node).foldl (discover hit.pathTripletIds) b) := by
  have hneighbours : t.neighbours q hit.node =
      (if q.direction.forward then (t.bySubject hit.node).getD [] else []).filterMap
        (t.usable q (·.object)) ++
      (if q.direction.backward then (t.byObject hit.node).getD [] else []).filterMap
        (t.usable q (·.subject)) := by
    unfold neighbours
    cases q.direction.forward <;> cases q.direction.backward <;> rfl
  rw [expand_eq] at hok
  cases hforward : (if q.direction.forward then (t.bySubject hit.node).getD [] else []).foldlM
      (t.follow q hit (·.object) (·.weight)) s with
  | error s₁ =>
    rw [hforward] at hok
    cases hok
  | ok s₁ =>
    rw [hforward] at hok
    rw [hneighbours, List.foldl_append]
    exact (h.foldlM_follow hhops hforward).foldlM_follow hhops hok

omit [F32 F] in
/-- A node is taken, and collected unless it stands for the start. -/
lemma StandsFor.collect {queue : List (TraversalHit F)} (h : StandsFor s b) (hqueue : s.queue = hit :: queue)
    {rest : List (List ℕ × String)} (hrest : b.queue = (hit.pathTripletIds, hit.node) :: rest) :
    StandsFor (collect hit { s with queue := queue })
      ⟨b.visited, rest, b.done ++ [(hit.pathTripletIds, hit.node)]⟩ := by
  have hhops := h.hops hit (List.mem_append_right _ (hqueue ▸ List.mem_cons_self))
  have hmap := h.queue
  rw [hqueue, hrest, List.map_cons] at hmap
  unfold TripletStore.collect
  split_ifs with hpos
  · refine ⟨h.visited, (List.cons.inj hmap).2, ?_, fun hit' hhit' => ?_⟩
    · rw [List.map_append, h.results, List.filter_append, List.filter_cons_of_pos]
      · rfl
      · rw [decide_eq_true_eq, ← hhops]
        omega
    · refine h.hops hit' ?_
      rw [hqueue]
      simpa using hhit'
  · refine ⟨h.visited, (List.cons.inj hmap).2, ?_, fun hit' hhit' => ?_⟩
    · rw [h.results, List.filter_append, List.filter_cons_of_neg, List.filter_nil, List.append_nil]
      rw [decide_eq_true_eq, ← hhops]
      omega
    · refine h.hops hit' ?_
      rw [hqueue]
      rcases List.mem_append.mp hhit' with hmem | hmem
      · exact List.mem_append_left _ hmem
      · exact List.mem_append_right _ (List.mem_cons_of_mem _ hmem)

/-- The depths at which nodes are expanded. -/
def Wide (q : TraversalQuery) (n : ℕ) : Prop := n % 2 ^ 8 < q.maxHops

instance (q : TraversalQuery) : DecidablePred (Wide q) := fun _ => inferInstanceAs (Decidable (_ < _))

lemma traverseStep_error (h : t.traverseStep q s = .error s') :
    (s.queue = [] ∧ s' = s) ∨ q.maxResults ≤ s'.results.length ∨ q.maxEdges ≤ s'.edgesInspected := by
  unfold traverseStep at h
  cases hqueue : s.queue with
  | nil =>
    rw [hqueue] at h
    exact Or.inl ⟨rfl, (Except.error.inj h).symm⟩
  | cons =>
    right
    rw [hqueue] at h
    dsimp only at h
    split_ifs at h with hcut
    · rw [Bool.and_eq_true, decide_eq_true_eq, decide_eq_true_eq] at hcut
      obtain rfl := Except.error.inj h
      exact Or.inl hcut.2
    · exact Or.inr (expand_error h)

/-- A step is a step of the search that the variables stand for. -/
lemma StandsFor.step (h : StandsFor s b) (hok : t.traverseStep q s = .ok s') :
    ∃ b', Breadth.step (t.neighbours q) (Wide q) b = some b' ∧ StandsFor s' b' := by
  unfold traverseStep at hok
  cases hqueue : s.queue with
  | nil =>
    rw [hqueue] at hok
    cases hok
  | cons hit queue =>
    rw [hqueue] at hok
    dsimp only at hok
    have hhops := h.hops hit (List.mem_append_right _ (hqueue ▸ List.mem_cons_self))
    have hrest : b.queue = (hit.pathTripletIds, hit.node) ::
        queue.map (fun hit => (hit.pathTripletIds, hit.node)) := by
      rw [← h.queue, hqueue, List.map_cons]
    have hcollect := h.collect hqueue hrest
    unfold Breadth.step
    rw [hrest]
    refine ⟨_, rfl, ?_⟩
    split_ifs at hok with hcut hfar
    · obtain rfl := Except.ok.inj hok
      have hnarrow : ¬Wide q hit.pathTripletIds.length := by
        rw [Wide, ← hhops]
        omega
      rw [if_neg hnarrow]
      exact hcollect
    · have hwide : Wide q hit.pathTripletIds.length := by
        rw [Wide, ← hhops]
        omega
      rw [if_pos hwide]
      exact hcollect.expand hhops hok

/-- A traversal that is not cut short is the search. -/
lemma StandsFor.loop (n : ℕ) (h : StandsFor s b)
    (hresults : (t.traverseLoop q n s).results.length < q.maxResults)
    (hedges : (t.traverseLoop q n s).edgesInspected < q.maxEdges) :
    StandsFor (t.traverseLoop q n s) (Breadth.run (t.neighbours q) (Wide q) n b) := by
  induction n generalizing s b with
  | zero => exact h
  | succ n ih =>
    unfold traverseLoop at hresults hedges ⊢
    unfold Breadth.run
    cases hstep : t.traverseStep q s with
    | error s₁ =>
      rw [hstep] at hresults hedges
      dsimp only at hresults hedges ⊢
      rcases traverseStep_error hstep with ⟨hqueue, rfl⟩ | hcut | hcut
      · have hend : Breadth.step (t.neighbours q) (Wide q) b = none := by
          unfold Breadth.step
          rw [← h.queue, hqueue]
          rfl
        rw [hend]
        exact h
      · omega
      · omega
    | ok s₁ =>
      rw [hstep] at hresults hedges
      obtain ⟨b', hb', h'⟩ := h.step hstep
      rw [hb']
      exact ih h' hresults hedges

omit [F32 F] in
lemma standsFor_begin (start : String) (w : F) :
    StandsFor (⟨[], {start}, [⟨start, 0, w, []⟩], 0⟩ : Traversal F) (Breadth.begin start) := by
  refine ⟨rfl, rfl, rfl, fun hit hhit => ?_⟩
  rw [List.nil_append] at hhit
  rw [List.mem_singleton.mp hhit]
  rfl

/-! ## Limits -/

/-- The variables that come out, whether or not the traversal is cut short. -/
def outcome : Except (Traversal F) (Traversal F) → Traversal F
  | .error s => s
  | .ok s => s

lemma outcome_follow (t : TripletStore F) (q : TraversalQuery) (hit : TraversalHit F)
    (other : TripletEntry F → String) (weight : TripletEntry F → F) (s : Traversal F) (id : ℕ) :
    (outcome (t.follow q hit other weight s id)).results = s.results ∧
      (outcome (t.follow q hit other weight s id)).edgesInspected ≤ s.edgesInspected + 1 := by
  rcases follow_cases t q hit other weight s id with ⟨-, heq⟩ | ⟨-, heq⟩ | ⟨y, w, -, -, heq⟩ <;> rw [heq]
  · exact ⟨rfl, Nat.le_succ _⟩
  · exact ⟨rfl, le_rfl⟩
  · exact ⟨rfl, le_rfl⟩

lemma outcome_foldlM (t : TripletStore F) (q : TraversalQuery) (hit : TraversalHit F)
    (other : TripletEntry F → String) (weight : TripletEntry F → F) (s : Traversal F) (ids : List ℕ) :
    (outcome (ids.foldlM (t.follow q hit other weight) s)).results = s.results ∧
      (outcome (ids.foldlM (t.follow q hit other weight) s)).edgesInspected ≤
        s.edgesInspected + ids.length := by
  induction ids generalizing s with
  | nil => exact ⟨rfl, le_rfl⟩
  | cons id ids ih =>
    obtain ⟨hresults, hedges⟩ := outcome_follow t q hit other weight s id
    rw [List.foldlM_cons, List.length_cons]
    cases hfollow : t.follow q hit other weight s id with
    | error s₁ =>
      rw [hfollow] at hresults hedges
      exact ⟨hresults, hedges.trans (by omega)⟩
    | ok s₁ =>
      rw [hfollow] at hresults hedges
      obtain ⟨hresults', hedges'⟩ := ih s₁
      dsimp only [outcome] at hresults hedges
      exact ⟨hresults'.trans hresults, hedges'.trans (by omega)⟩

/-- To expand a node leaves the results, and inspects its postings at most. -/
lemma outcome_expand (t : TripletStore F) (q : TraversalQuery) (hit : TraversalHit F) (s : Traversal F) :
    (outcome (t.expand q hit s)).results = s.results ∧
    (outcome (t.expand q hit s)).edgesInspected ≤ s.edgesInspected +
      (((t.bySubject hit.node).getD []).length + ((t.byObject hit.node).getD []).length) := by
  have hle : ∀ (allowed : Bool) (ids : List ℕ),
      (if allowed then ids else []).length ≤ ids.length := by
    intro allowed ids
    cases allowed
    · exact Nat.zero_le _
    · exact le_rfl
  have hforward' := hle q.direction.forward ((t.bySubject hit.node).getD [])
  have hbackward' := hle q.direction.backward ((t.byObject hit.node).getD [])
  rw [expand_eq]
  obtain ⟨hresults, hedges⟩ := outcome_foldlM t q hit (·.object) (·.weight) s
    (if q.direction.forward then (t.bySubject hit.node).getD [] else [])
  cases hforward : (if q.direction.forward then (t.bySubject hit.node).getD [] else []).foldlM
      (t.follow q hit (·.object) (·.weight)) s with
  | error s₁ =>
    rw [hforward] at hresults hedges
    exact ⟨hresults, hedges.trans (by omega)⟩
  | ok s₁ =>
    rw [hforward] at hresults hedges
    obtain ⟨hresults', hedges'⟩ := outcome_foldlM t q hit (·.subject) (·.againstWeight) s₁
      (if q.direction.backward then (t.byObject hit.node).getD [] else [])
    dsimp only [outcome] at hresults hedges
    exact ⟨hresults'.trans hresults, hedges'.trans (by omega)⟩

lemma expand_results (h : t.expand q hit s = .ok s') : s'.results = s.results := by
  have hresults := (outcome_expand t q hit s).1
  rw [h] at hresults
  exact hresults

omit [F32 F] in
lemma collect_results (hit : TraversalHit F) (s : Traversal F) :
    (collect hit s).results = s.results ++ if 0 < hit.hops then [hit] else [] := by
  unfold collect
  split_ifs
  · rfl
  · rw [List.append_nil]

lemma prefix_traverseStep (h : t.traverseStep q s = .ok s') : s.results <+: s'.results := by
  unfold traverseStep at h
  cases hqueue : s.queue with
  | nil =>
    rw [hqueue] at h
    cases h
  | cons hit queue =>
    rw [hqueue] at h
    dsimp only at h
    have hcollect := collect_results hit { s with queue := queue }
    split_ifs at h
    · obtain rfl := Except.ok.inj h
      rw [hcollect]
      exact List.prefix_append _ _
    · rw [expand_results h, hcollect]
      exact List.prefix_append _ _

/-- The results of a traversal that is not cut short continue those before. -/
lemma traverseLoop_prefix (n : ℕ) (hresults : (t.traverseLoop q n s).results.length < q.maxResults)
    (hedges : (t.traverseLoop q n s).edgesInspected < q.maxEdges) :
    s.results <+: (t.traverseLoop q n s).results := by
  induction n generalizing s with
  | zero => exact List.prefix_rfl
  | succ n ih =>
    unfold traverseLoop at hresults hedges ⊢
    cases hstep : t.traverseStep q s with
    | error s₁ =>
      rw [hstep] at hresults hedges
      dsimp only at hresults hedges ⊢
      rcases traverseStep_error hstep with ⟨-, rfl⟩ | hcut | hcut
      · exact List.prefix_rfl
      · omega
      · omega
    | ok s₁ =>
      rw [hstep] at hresults hedges
      exact (prefix_traverseStep hstep).trans (ih hresults hedges)

/-- With a limit on the results a traversal gives the first of them. -/
lemma traverseLoop_limit {k : ℕ} (n : ℕ) (hk : s.results.length < k)
    (hresults : (t.traverseLoop q n s).results.length < q.maxResults)
    (hedges : (t.traverseLoop q n s).edgesInspected < q.maxEdges) :
    (t.traverseLoop { q with maxResults := k } n s).results =
      (t.traverseLoop q n s).results.take k := by
  induction n generalizing s with
  | zero => exact (List.take_of_length_le hk.le).symm
  | succ n ih =>
    unfold traverseLoop at hresults hedges ⊢
    cases hqueue : s.queue with
    | nil =>
      have hend : ∀ q, t.traverseStep q s = .error s := fun q => by
        unfold traverseStep
        rw [hqueue]
      rw [hend, hend]
      exact (List.take_of_length_le hk.le).symm
    | cons hit queue =>
      have hcollect := collect_results hit { s with queue := queue }
      have hstep : ∀ q, t.traverseStep q s =
          if 0 < hit.hops && q.maxResults ≤ (collect hit { s with queue := queue }).results.length then
            .error (collect hit { s with queue := queue })
          else if q.maxHops ≤ hit.hops then .ok (collect hit { s with queue := queue })
          else t.expand q hit (collect hit { s with queue := queue }) := fun q => by
        unfold traverseStep
        rw [hqueue]
      generalize collect hit { s with queue := queue } = c at hstep hcollect
      have hexpand : t.expand { q with maxResults := k } hit c = t.expand q hit c := rfl
      have hfull : ¬(0 < hit.hops && q.maxResults ≤ c.results.length : Bool) = true := by
        intro hcut
        rw [hstep, if_pos hcut] at hresults
        rw [Bool.and_eq_true, decide_eq_true_eq, decide_eq_true_eq] at hcut
        exact absurd hcut.2 (Nat.not_le.mpr hresults)
      rw [hstep q, if_neg hfull] at hresults hedges
      rw [hstep, hstep q, if_neg hfull, hexpand]
      dsimp only
      by_cases hcut : (0 < hit.hops && k ≤ c.results.length : Bool) = true
      · -- the limit is met: what follows is not among the first `k`
        rw [if_pos hcut]
        rw [Bool.and_eq_true, decide_eq_true_eq, decide_eq_true_eq] at hcut
        rw [if_pos hcut.1] at hcollect
        have hlength : c.results.length = k := by
          rw [hcollect, List.length_append, List.length_singleton] at hcut ⊢
          dsimp only at hcut ⊢
          omega
        have hprefix : c.results <+: (match (if q.maxHops ≤ hit.hops then .ok c
            else t.expand q hit c : Except (Traversal F) (Traversal F)) with
            | .error s' => s'
            | .ok s' => t.traverseLoop q n s').results := by
          split_ifs at hresults hedges ⊢ with hfar
          · exact traverseLoop_prefix n hresults hedges
          · cases hout : t.expand q hit c with
            | error s₁ =>
              rw [hout] at hedges
              exact absurd (expand_error hout) (Nat.not_le.mpr hedges)
            | ok s₁ =>
              rw [hout] at hresults hedges
              rw [← expand_results hout]
              exact traverseLoop_prefix n hresults hedges
        rw [← hlength]
        exact (List.prefix_iff_eq_take.mp hprefix)
      · rw [if_neg hcut]
        have hbelow : c.results.length < k := by
          rw [Bool.and_eq_true, decide_eq_true_eq, decide_eq_true_eq, not_and_or] at hcut
          rcases hcut with hzero | hlt
          · rw [hcollect, if_neg hzero, List.append_nil]
            exact hk
          · omega
        split_ifs at hresults hedges ⊢ with hfar
        · exact ih hbelow hresults hedges
        · cases hout : t.expand q hit c with
          | error s₁ =>
            rw [hout] at hedges
            exact absurd (expand_error hout) (Nat.not_le.mpr hedges)
          | ok s₁ =>
            rw [hout] at hresults hedges
            exact ih (expand_results hout ▸ hbelow) hresults hedges

/-! ## Breadth-first reachability -/

/-- The nodes of the triplets. -/
def nodes (t : TripletStore F) : Finset String :=
  (t.entries.map (·.subject) ++ t.entries.map (·.object)).toFinset

omit [F32 F] in
lemma mem_entries_of_entryById {id : ℕ} {e : TripletEntry F} (h : t.entryById id = some e) :
    e ∈ t.entries := by
  obtain ⟨idx, -, hget⟩ := Option.bind_eq_some_iff.mp h
  exact List.mem_of_getElem? hget

omit [F32 F] in
/-- The neighbours of a node are nodes of triplets. -/
lemma mem_nodes_of_mem_neighbours {x : String} {edge : ℕ × String} (h : edge ∈ t.neighbours q x) :
    edge.2 ∈ t.nodes := by
  have hside : ∀ (allowed : Bool) (ids : List ℕ) (other : TripletEntry F → String),
      edge ∈ (if allowed then ids.filterMap (t.usable q other) else []) →
        ∃ e ∈ t.entries, other e = edge.2 := by
    intro allowed ids other hedge
    cases allowed
    · exact absurd hedge List.not_mem_nil
    · rw [if_pos rfl] at hedge
      obtain ⟨id, -, husable⟩ := List.mem_filterMap.mp hedge
      obtain ⟨-, e, hallowed, hother⟩ := usable_eq_some.mp husable
      exact ⟨e, mem_entries_of_entryById hallowed.1, hother⟩
  rw [nodes, List.mem_toFinset, List.mem_append, List.mem_map, List.mem_map]
  rcases List.mem_append.mp h with hedge | hedge
  · exact Or.inr (hside _ _ _ hedge)
  · exact Or.inl (hside _ _ _ hedge)

omit [F32 F] in
/-- The search comes to its end within the steps of the loop. -/
lemma queue_run_begin (t : TripletStore F) (q : TraversalQuery) (start : String) :
    (Breadth.run (t.neighbours q) (Wide q) (2 * t.entries.length + 2) (Breadth.begin start)).queue = [] := by
  refine queue_run (fun x edge hedge => mem_nodes_of_mem_neighbours hedge) ?_
  have hcard : (t.nodes \ (Breadth.begin start : Search String ℕ).visited).card ≤ 2 * t.entries.length := by
    refine (Finset.card_le_card Finset.sdiff_subset).trans ((List.toFinset_card_le _).trans ?_)
    rw [List.length_append, List.length_map, List.length_map]
    omega
  have hlength : (Breadth.begin start : Search String ℕ).queue.length = 1 := rfl
  omega

omit [F32 F] in
lemma AtDistance.unique {start node : String} {m n : ℕ} (hm : t.AtDistance q start node m)
    (hn : t.AtDistance q start node n) : m = n := by
  obtain ⟨⟨path, hpath, rfl⟩, hle⟩ := hm
  obtain ⟨⟨path', hpath', rfl⟩, hle'⟩ := hn
  exact Nat.le_antisymm (hle _ hpath') (hle' _ hpath)

section Correct

variable {start : String}

omit [F32 F] in
/-- Hops of 8 bits are below 256. -/
lemma hops_lt (hs : StandsFor s b) : ∀ hit ∈ s.results, hit.hops < 2 ^ 8 := by
  intro hit hhit
  rw [hs.hops hit (List.mem_append_left _ hhit)]
  exact Nat.mod_lt _ (by decide)

omit [F32 F] in
/-- The ways that are found are not as long as 256, and within the number of hops, where this is below
256 or no node is at the distance 256. -/
lemma length_lt (h : t.PostingsMatch) (hb : Leveled (t.neighbours q) (Wide q) start b)
    (hend : b.queue = [])
    (hcond : q.maxHops < 2 ^ 8 ∨ ¬∃ node, t.AtDistance q start node (2 ^ 8)) :
    ∀ p ∈ b.done, p.1.length < 2 ^ 8 ∧ p.1.length ≤ q.maxHops := by
  have hfound : b.found = b.done := by rw [Search.found, hend, List.append_nil]
  intro p hp
  obtain ⟨htrail, hwide⟩ := hb.trail p (hfound ▸ hp)
  by_cases hsmall : q.maxHops < 2 ^ 8
  · have hle : p.1.length ≤ q.maxHops := by
      by_contra hlt
      have hbad := hwide q.maxHops (by omega)
      rw [Wide, Nat.mod_eq_of_lt hsmall] at hbad
      exact Nat.lt_irrefl _ hbad
    exact ⟨by omega, hle⟩
  · have hlt : p.1.length < 2 ^ 8 := by
      by_contra hge
      refine hcond.resolve_left hsmall ?_
      -- the node on the way at the depth 256 is at this distance
      obtain ⟨x, hx, hrest⟩ := htrail.cut (2 ^ 8)
      have hlength : (p.1.take (2 ^ 8)).length = 2 ^ 8 := by
        rw [List.length_take]
        omega
      refine ⟨x, ⟨_, hx.mono fun _ _ _ => (listed_neighbours h).mp, hlength⟩, fun path hpath => ?_⟩
      have hle := hb.length_le hend hp
        (hrest path (hpath.mono fun _ _ _ => (listed_neighbours h).mpr))
      rw [List.length_append, List.length_drop] at hle
      omega
    exact ⟨hlt, by omega⟩

omit [F32 F] in
/-- The results are breadth-first where no way is as long as 256. -/
lemma isBreadthFirst_results (h : t.PostingsMatch) (hs : StandsFor s b)
    (hb : Leveled (t.neighbours q) (Wide q) start b) (hend : b.queue = [])
    (hcond : q.maxHops < 2 ^ 8 ∨ ¬∃ node, t.AtDistance q start node (2 ^ 8)) :
    IsBreadthFirst t q start s.results := by
  have hlt := length_lt h hb hend hcond
  have hfound : b.found = b.done := by rw [Search.found, hend, List.append_nil]
  have htrail : ∀ p ∈ b.done, Trail (t.Link q) start p.1 p.2 := fun p hp =>
    (hb.trail p (hfound ▸ hp)).1.mono fun _ _ _ => (listed_neighbours h).mp
  have hshort : ∀ p ∈ b.done, ∀ path, Trail (t.Link q) start path p.2 → p.1.length ≤ path.length :=
    fun p hp path hpath => hb.length_le hend hp (hpath.mono fun _ _ _ => (listed_neighbours h).mpr)
  have hdone : ∀ hit ∈ s.results, (hit.pathTripletIds, hit.node) ∈ b.done ∧
      hit.hops = hit.pathTripletIds.length ∧ hit.pathTripletIds.length ≠ 0 := by
    intro hit hhit
    have hmem : (hit.pathTripletIds, hit.node) ∈ b.done.filter fun p => p.1.length % 2 ^ 8 ≠ 0 :=
      hs.results ▸ List.mem_map_of_mem hhit
    obtain ⟨hmem, hne⟩ := List.mem_filter.mp hmem
    rw [decide_eq_true_eq] at hne
    have hmod : hit.pathTripletIds.length % 2 ^ 8 = hit.pathTripletIds.length :=
      Nat.mod_eq_of_lt (hlt _ hmem).1
    rw [hmod] at hne
    exact ⟨hmem, (hs.hops hit (List.mem_append_left _ hhit)).trans hmod, hne⟩
  have hordered : s.results.Pairwise fun x y => x.pathTripletIds.length ≤ y.pathTripletIds.length := by
    have hsorted := hb.sorted
    rw [hfound] at hsorted
    have hfilter := hsorted.sublist (List.filter_sublist (p := fun p => p.1.length % 2 ^ 8 ≠ 0))
    rw [← hs.results, List.pairwise_map] at hfilter
    exact hfilter
  refine ⟨fun node => ?_, ?_, ?_, ?_, ?_⟩
  · constructor
    · rintro ⟨hit, hhit, rfl⟩
      obtain ⟨hmem, -, hne⟩ := hdone hit hhit
      refine ⟨fun hstart => ?_, _, htrail _ hmem, (hlt _ hmem).2⟩
      have hle := hshort _ hmem [] (hstart ▸ .nil)
      exact hne (Nat.le_zero.mp hle)
    · rintro ⟨hne, path, hpath, hle⟩
      have hwide : ∀ m < path.length, Wide q m := fun m hm =>
        (Nat.mod_le m _).trans_lt (hm.trans_le hle)
      obtain ⟨p, hp, hnode, -⟩ := hb.exists_done hend
        (hpath.mono fun _ _ _ => (listed_neighbours h).mpr) hwide
      have hpos : p.1.length % 2 ^ 8 ≠ 0 := by
        rw [Nat.mod_eq_of_lt (hlt p hp).1]
        intro hzero
        have hnil := htrail p hp
        rw [List.length_eq_zero_iff.mp hzero] at hnil
        exact hne (hnode ▸ hnil.eq_start)
      have hmem : p ∈ s.results.map (fun hit => (hit.pathTripletIds, hit.node)) := by
        rw [hs.results]
        exact List.mem_filter.mpr ⟨hp, by simpa using hpos⟩
      obtain ⟨hit, hhit, rfl⟩ := List.mem_map.mp hmem
      exact ⟨hit, hhit, hnode⟩
  · have honce := hb.once
    rw [hfound] at honce
    have hfilter : ((b.done.filter fun p => p.1.length % 2 ^ 8 ≠ 0).map (·.2)).Nodup :=
      honce.sublist (List.filter_sublist.map _)
    rw [← hs.results, List.map_map] at hfilter
    exact hfilter
  · refine hordered.imp_of_mem fun hx hy hle => ?_
    rw [(hdone _ hx).2.1, (hdone _ hy).2.1]
    exact hle
  · intro hit hhit
    obtain ⟨hmem, hhops, -⟩ := hdone hit hhit
    rw [hhops]
    exact ⟨⟨_, htrail _ hmem, rfl⟩, hshort _ hmem⟩
  · intro hit hhit
    obtain ⟨hmem, hhops, -⟩ := hdone hit hhit
    exact ⟨htrail _ hmem, hhops.symm⟩

omit [F32 F] in
/-- Results are not breadth-first where there are many hops and a node is at the distance 256. -/
lemma not_isBreadthFirst (hs : StandsFor s b) (hmany : 2 ^ 8 ≤ q.maxHops) {node : String}
    (hdistance : t.AtDistance q start node (2 ^ 8)) : ¬IsBreadthFirst t q start s.results := by
  intro hfirst
  obtain ⟨⟨path, hpath, hlength⟩, hle⟩ := hdistance
  have hne : node ≠ start := by
    rintro rfl
    exact absurd (hle [] .nil) (by decide)
  obtain ⟨hit, hhit, rfl⟩ := (hfirst.complete node).mpr ⟨hne, path, hpath, hlength ▸ hmany⟩
  have heq := (hfirst.distance hit hhit).unique ⟨⟨path, hpath, hlength⟩, hle⟩
  exact absurd (hops_lt hs hit hhit) (heq ▸ Nat.lt_irrefl _)

end Correct

lemma graphTraverse_eq {start : String} (hresults : 0 < q.maxResults) (hedges : 0 < q.maxEdges) :
    t.graphTraverse q start = (t.traversed q start).results := by
  refine if_neg ?_
  rw [Bool.or_eq_true, decide_eq_true_eq, decide_eq_true_eq]
  omega

/-- **Traversal is breadth-first reachability, unless hops overflow.**  Where the limits on edges and
results are not reached, a traversal gives the nodes within the number of hops, except for the start,
each once, by their distances, with shortest ways, and with another limit the first of these, exactly
where the number of hops is below 256 or no node is at the distance 256. -/
theorem breadth_first_iff (t : TripletStore F) (q : TraversalQuery) (start : String) (h : t.PostingsMatch)
    (hresults : (t.traversed q start).results.length < q.maxResults)
    (hedges : (t.traversed q start).edgesInspected < q.maxEdges) :
    (IsBreadthFirst t q start (t.graphTraverse q start) ∧
      ∀ k, t.graphTraverse { q with maxResults := k } start = (t.graphTraverse q start).take k) ↔
    q.maxHops < 256 ∨ ¬∃ node, t.AtDistance q start node 256 := by
  have hstands : StandsFor (t.traversed q start) _ := (standsFor_begin start _).loop _ hresults hedges
  have hleveled : Leveled (t.neighbours q) (Wide q) start _ :=
    leveled_begin.run (2 * t.entries.length + 2)
  rw [graphTraverse_eq (by omega) (by omega)]
  constructor
  · rintro ⟨hfirst, -⟩
    by_contra hbad
    rw [not_or, not_not] at hbad
    obtain ⟨hmany, node, hdistance⟩ := hbad
    exact not_isBreadthFirst hstands (Nat.not_lt.mp hmany) hdistance hfirst
  · intro hcond
    refine ⟨isBreadthFirst_results h hstands hleveled (queue_run_begin t q start) hcond, fun k => ?_⟩
    rcases Nat.eq_zero_or_pos k with rfl | hpos
    · rw [List.take_zero]
      exact if_pos rfl
    · rw [graphTraverse_eq hpos (by dsimp only; omega)]
      exact traverseLoop_limit _ hpos hresults hedges

/-! ## A chain -/

/-- A loop takes as many results as steps, and as many edges as the postings have. -/
lemma traverseLoop_le {c : ℕ}
    (hc : ∀ x, ((t.bySubject x).getD []).length + ((t.byObject x).getD []).length ≤ c) (n : ℕ) :
    (t.traverseLoop q n s).results.length ≤ s.results.length + n ∧
      (t.traverseLoop q n s).edgesInspected ≤ s.edgesInspected + n * c := by
  induction n generalizing s with
  | zero => exact ⟨le_rfl, Nat.le_add_right _ _⟩
  | succ n ih =>
    have hstep : (outcome (t.traverseStep q s)).results.length ≤ s.results.length + 1 ∧
        (outcome (t.traverseStep q s)).edgesInspected ≤ s.edgesInspected + c := by
      unfold traverseStep
      cases s.queue with
      | nil => exact ⟨Nat.le_succ _, Nat.le_add_right _ _⟩
      | cons hit queue =>
        have hcollect : (collect hit { s with queue := queue }).results.length ≤ s.results.length + 1 ∧
            (collect hit { s with queue := queue }).edgesInspected = s.edgesInspected := by
          unfold collect
          split_ifs
          · rw [List.length_append, List.length_singleton]
            exact ⟨le_rfl, rfl⟩
          · exact ⟨Nat.le_succ _, rfl⟩
        obtain ⟨hexpand, hexpand'⟩ := outcome_expand t q hit
          (collect hit { s with queue := queue })
        have hpost := hc hit.node
        dsimp only
        split_ifs
        · exact ⟨hcollect.1, hcollect.2.le.trans (Nat.le_add_right _ _)⟩
        · exact ⟨hcollect.1, hcollect.2.le.trans (Nat.le_add_right _ _)⟩
        · rw [hexpand]
          exact ⟨hcollect.1, by omega⟩
    unfold traverseLoop
    cases hout : t.traverseStep q s with
    | error s₁ =>
      rw [hout] at hstep
      dsimp only [outcome] at hstep ⊢
      rw [Nat.add_mul]
      omega
    | ok s₁ =>
      rw [hout] at hstep
      obtain ⟨hresults, hedges⟩ := ih (s := s₁)
      dsimp only [outcome] at hstep ⊢
      rw [Nat.add_mul]
      omega

end Simulation

/-- The nodes of a chain. -/
def chainNode (i : ℕ) : String := String.ofList (List.replicate i 'a')

/-- A chain of triplets. -/
def chain (n : ℕ) : TripletStore ℚ where
  clean := true
  dirtySubjects := none
  duplicateIds := ∅
  bySourceFile := none
  entries := (List.range n).map fun i => ⟨i, chainNode i, "next", chainNode (i + 1), 1, 1, 0, 0, none, none⟩
  idToIndex id := if id < n then some id else none
  bySubject x := some ((List.range n).filter (chainNode · = x))
  byObject x := some ((List.range n).filter fun i => chainNode (i + 1) = x)
  byPredicate _ := none
  nextId := 0
  supersessionMap _ := none
  ingestionTimes _ := none
  indexesDirty := false
  deferredReplay := none

lemma chainNode_injective {i j : ℕ} (h : chainNode i = chainNode j) : i = j := by
  have hlists := congrArg String.toList h
  rw [chainNode, chainNode, String.toList_ofList, String.toList_ofList] at hlists
  simpa using congrArg List.length hlists

lemma entryById_chain {n id : ℕ} {e : TripletEntry ℚ} : (chain n).entryById id = some e ↔
    id < n ∧ e = ⟨id, chainNode id, "next", chainNode (id + 1), 1, 1, 0, 0, none, none⟩ := by
  unfold Facts.entryById
  dsimp only [chain]
  by_cases hid : id < n
  · rw [if_pos hid, Option.bind_some, List.getElem?_map, List.getElem?_range hid, Option.map_some,
      Option.some.injEq]
    exact ⟨fun h => ⟨hid, h.symm⟩, fun h => h.2.symm⟩
  · rw [if_neg hid]
    exact iff_of_false (Option.some_ne_none e ∘ Eq.symm) fun h => hid h.1

lemma postingsMatch_chain (n : ℕ) : (chain n).PostingsMatch := by
  constructor
  all_goals
    intro x id
    dsimp only [chain, Option.getD_some]
    rw [List.mem_filter, List.mem_range, decide_eq_true_eq]
    constructor
    · rintro ⟨hid, rfl⟩
      exact ⟨_, entryById_chain.mpr ⟨hid, rfl⟩, rfl⟩
    · rintro ⟨e, he, rfl⟩
      obtain ⟨hid, rfl⟩ := entryById_chain.mp he
      exact ⟨hid, rfl⟩

/-- A traversal along the triplets, with room for all. -/
def chainQuery (maxHops room : ℕ) : TraversalQuery := ⟨[], maxHops, room, .outgoing, room, 0⟩

/-- A chain is traversed within the limits. -/
lemma traversed_chain_lt (n maxHops : ℕ) :
    ((chain n).traversed (chainQuery maxHops ((2 * n + 2) * (2 * n) + 2 * n + 3)) "").results.length <
        (2 * n + 2) * (2 * n) + 2 * n + 3 ∧
      ((chain n).traversed (chainQuery maxHops ((2 * n + 2) * (2 * n) + 2 * n + 3)) "").edgesInspected <
        (2 * n + 2) * (2 * n) + 2 * n + 3 := by
  have hpost : ∀ x, (((chain n).bySubject x).getD []).length + (((chain n).byObject x).getD []).length ≤
      2 * n := by
    intro x
    have hsubject := List.length_filter_le (fun i => decide (chainNode i = x)) (List.range n)
    have hobject := List.length_filter_le (fun i => decide (chainNode (i + 1) = x)) (List.range n)
    rw [List.length_range] at hsubject hobject
    dsimp only [chain, Option.getD_some]
    omega
  have hlength : (chain n).entries.length = n := by
    dsimp only [chain]
    rw [List.length_map, List.length_range]
  obtain ⟨hresults, hedges⟩ := traverseLoop_le
    (q := chainQuery maxHops ((2 * n + 2) * (2 * n) + 2 * n + 3))
    (s := ⟨[], {""}, [⟨"", 0, F32.lit 1, []⟩], 0⟩)
    hpost (2 * n + 2)
  unfold traversed
  rw [hlength]
  dsimp only [List.length_nil] at hresults hedges
  omega

/-- The last node of a chain is as far from the first as it is long. -/
lemma atDistance_chain (n maxHops room : ℕ) :
    (chain n).AtDistance (chainQuery maxHops room) "" (chainNode n) n := by
  constructor
  · have htrail : ∀ i ≤ n, Trail ((chain n).Link (chainQuery maxHops room)) "" (List.range i) (chainNode i) := by
      intro i
      induction i with
      | zero => exact fun _ => .nil
      | succ i ih =>
        intro hi
        rw [List.range_succ]
        refine (ih (by omega)).snoc ⟨_, ⟨entryById_chain.mpr ⟨hi, rfl⟩, rfl, rfl, Or.inl rfl⟩, Or.inl ?_⟩
        exact ⟨rfl, rfl, rfl⟩
    exact ⟨_, htrail n le_rfl, List.length_range⟩
  · intro path hpath
    have hreached : ∃ i ≤ path.length, chainNode n = chainNode i := by
      generalize chainNode n = y at hpath
      induction hpath with
      | nil => exact ⟨0, le_rfl, rfl⟩
      | snoc hpath hlink ih =>
        obtain ⟨i, hi, rfl⟩ := ih
        obtain ⟨e, ⟨he, -⟩, ⟨-, hsubject, hobject⟩ | ⟨hback, -⟩⟩ := hlink
        · obtain ⟨-, rfl⟩ := entryById_chain.mp he
          have hid := chainNode_injective hsubject
          refine ⟨i + 1, ?_, ?_⟩
          · rw [List.length_append, List.length_singleton]
            omega
          · rw [← hobject, ← hid]
        · cases hback
    obtain ⟨i, hi, heq⟩ := hreached
    rw [chainNode_injective heq]
    exact hi

/-- The last node of a chain of 256 triplets is not found, though 256 hops are allowed. -/
theorem chain_overflows : (chain 256).PostingsMatch ∧
    ((chain 256).traversed (chainQuery 256 263683) "").results.length < 263683 ∧
    ((chain 256).traversed (chainQuery 256 263683) "").edgesInspected < 263683 ∧
    ¬IsBreadthFirst (chain 256) (chainQuery 256 263683) ""
      ((chain 256).graphTraverse (chainQuery 256 263683) "") := by
  obtain ⟨hresults, hedges⟩ := traversed_chain_lt 256 256
  refine ⟨postingsMatch_chain 256, hresults, hedges, ?_⟩
  rw [graphTraverse_eq (by decide) (by decide)]
  exact not_isBreadthFirst ((standsFor_begin "" _).loop _ hresults hedges) le_rfl
    (atDistance_chain 256 256 263683)

/-- A chain of two triplets is traversed breadth-first. -/
theorem breadth_first_short_chain :
    IsBreadthFirst (chain 2) (chainQuery 5 31) "" ((chain 2).graphTraverse (chainQuery 5 31) "") ∧
      ∀ k, (chain 2).graphTraverse { chainQuery 5 31 with maxResults := k } "" =
        ((chain 2).graphTraverse (chainQuery 5 31) "").take k :=
  (breadth_first_iff (chain 2) (chainQuery 5 31) "" (postingsMatch_chain 2) (traversed_chain_lt 2 5).1
    (traversed_chain_lt 2 5).2).mpr (Or.inl (by decide))

end TripletStore

end ChittaField
