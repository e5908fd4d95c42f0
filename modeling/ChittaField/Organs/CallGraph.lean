import Mathlib.Data.Finset.Sort
import ChittaField.Ops

/-!
# The call graph

A call graph has each edge twice, under its caller and under its callee.  A symbol is removed with
all of its edges, and a project with its symbols.  A single edge is removed by removing its caller
and adding the other callees again; `removeSymCallEdge_exact_iff` says for which graphs nothing else
is lost.
-/

namespace ChittaField

/-- The number of a code symbol. -/
abbrev SymbolId := ℕ

/-- In what order the elements of a set are visited. -/
structure VisitOrder where
  list : Finset SymbolId → List SymbolId
  mem_list : ∀ s x, x ∈ list s ↔ x ∈ s

/-- The elements from the least to the greatest. -/
def VisitOrder.sorted : VisitOrder := ⟨fun s => s.sort (· ≤ ·), fun s _ => Finset.mem_sort (s := s) _⟩

/-! ## The graph -/

/-- Who calls whom. -/
structure CallGraph where
  callees : SymbolId → Option (Finset SymbolId)
  callers : SymbolId → Option (Finset SymbolId)

namespace CallGraph

def new : CallGraph := ⟨fun _ => none, fun _ => none⟩

def addEdge (g : CallGraph) (caller callee : SymbolId) : CallGraph where
  callees := Function.update g.callees caller (some (insert callee ((g.callees caller).getD ∅)))
  callers := Function.update g.callers callee (some (insert caller ((g.callers callee).getD ∅)))

/-- The first half of `removeSymbol`: the edges to the callees. -/
def removeCallees (g : CallGraph) (id : SymbolId) : CallGraph :=
  match g.callees id with
  | none => g
  | some callees =>
    { callees := Function.update g.callees id none
      callers := fun k => if k ∈ callees then (g.callers k).map (·.erase id) else g.callers k }

/-- The second half of `removeSymbol`: the edges from the callers. -/
def removeCallers (g : CallGraph) (id : SymbolId) : CallGraph :=
  match g.callers id with
  | none => g
  | some callers =>
    { callees := fun k => if k ∈ callers then (g.callees k).map (·.erase id) else g.callees k
      callers := Function.update g.callers id none }

/-- Remove a symbol with all of its edges. -/
def removeSymbol (g : CallGraph) (id : SymbolId) : CallGraph :=
  (g.removeCallees id).removeCallers id

def getCallees (o : VisitOrder) (g : CallGraph) (id : SymbolId) : List SymbolId :=
  ((g.callees id).map o.list).getD []

def getCallers (o : VisitOrder) (g : CallGraph) (id : SymbolId) : List SymbolId :=
  ((g.callers id).map o.list).getD []

def hasEdge (g : CallGraph) (caller callee : SymbolId) : Bool :=
  ((g.callees caller).map fun s => decide (callee ∈ s)).getD false

/-- What an operation does to the call graph.  The symbols of a project are those that the index of
symbols finds in its files. -/
def applyOp {F : Type} (o : VisitOrder) (symbolsOf : String → List SymbolId) (g : CallGraph) :
    Op F → CallGraph
  | .removeSymbol r => g.removeSymbol r.symbolId
  | .addSymCallEdge e => g.addEdge e.callerId e.calleeId
  | .removeSymCallEdge e =>
    let callees := g.getCallees o e.callerId
    if e.calleeId ∈ callees then
      let remaining := callees.filter (· ≠ e.calleeId)
      remaining.foldl (fun g callee => g.addEdge e.callerId callee) (g.removeSymbol e.callerId)
    else g
  | .clearProject cp => (symbolsOf cp.project).foldl removeSymbol g
  | _ => g

end CallGraph

/-! ## Edges -/

namespace CallGraph

variable {g : CallGraph} {a b x y : SymbolId}

/-- The edges, as their callers have them. -/
def edges (g : CallGraph) : Set (SymbolId × SymbolId) := {e | ∃ s ∈ g.callees e.1, e.2 ∈ s}

/-- The edges, as their callees have them. -/
def edgesOfCallees (g : CallGraph) : Set (SymbolId × SymbolId) :=
  {e | ∃ s ∈ g.callers e.2, e.1 ∈ s}

/-- The two maps have the same edges. -/
def Mirrored (g : CallGraph) : Prop := g.edgesOfCallees = g.edges

lemma hasEdge_iff : g.hasEdge a b = true ↔ (a, b) ∈ g.edges := by
  unfold hasEdge edges
  cases h : g.callees a <;> simp [h]

lemma mem_getCallees (o : VisitOrder) : b ∈ g.getCallees o a ↔ (a, b) ∈ g.edges := by
  unfold getCallees edges
  cases h : g.callees a <;> simp [h, o.mem_list]

lemma mem_getCallers (o : VisitOrder) : a ∈ g.getCallers o b ↔ (a, b) ∈ g.edgesOfCallees := by
  unfold getCallers edgesOfCallees
  cases h : g.callers b <;> simp [h, o.mem_list]

/-- An added edge is new under its caller. -/
lemma edges_addEdge : (g.addEdge a b).edges = insert (a, b) g.edges := by
  ext ⟨x, y⟩
  by_cases hx : x = a
  · subst hx
    cases h : g.callees x <;> simp [edges, addEdge, h]
  · simp [edges, addEdge, hx]

/-- An added edge is new under its callee. -/
lemma edgesOfCallees_addEdge :
    (g.addEdge a b).edgesOfCallees = insert (a, b) g.edgesOfCallees := by
  ext ⟨x, y⟩
  by_cases hy : y = b
  · subst hy
    cases h : g.callers y <;> simp [edgesOfCallees, addEdge, h]
  · simp [edgesOfCallees, addEdge, hy]

/-- Under the callers, the first half removes what the symbol calls. -/
lemma edges_removeCallees : (g.removeCallees a).edges = {e ∈ g.edges | e.1 ≠ a} := by
  unfold removeCallees
  cases h : g.callees a with
  | none =>
    ext ⟨x, y⟩
    by_cases hx : x = a
    · subst hx
      simp [edges, h]
    · simp [hx]
  | some =>
    ext ⟨x, y⟩
    by_cases hx : x = a
    · subst hx
      simp [edges]
    · simp [edges, hx]

/-- Under the callees, the first half removes the edges that the callers know. -/
lemma edgesOfCallees_removeCallees :
    (g.removeCallees a).edgesOfCallees =
      {e ∈ g.edgesOfCallees | ¬(e.1 = a ∧ e ∈ g.edges)} := by
  unfold removeCallees
  cases h : g.callees a with
  | none =>
    ext ⟨x, y⟩
    have hxy : ¬(x = a ∧ (x, y) ∈ g.edges) := by
      rintro ⟨rfl, hxy⟩
      simp [edges, h] at hxy
    exact ⟨fun hm => ⟨hm, hxy⟩, fun hm => hm.1⟩
  | some callees =>
    ext ⟨x, y⟩
    by_cases hy : y ∈ callees
    · cases hg : g.callers y with
      | none => simp [edgesOfCallees, hy, hg]
      | some s =>
        by_cases hx : x = a
        · subst hx
          simp [edgesOfCallees, edges, hy, hg, h]
        · simp [edgesOfCallees, hy, hg, hx]
    · by_cases hx : x = a
      · subst hx
        simp [edgesOfCallees, edges, hy, h]
      · simp [edgesOfCallees, hy, hx]

/-- Under the callees, the second half removes what calls the symbol. -/
lemma edgesOfCallees_removeCallers :
    (g.removeCallers a).edgesOfCallees = {e ∈ g.edgesOfCallees | e.2 ≠ a} := by
  unfold removeCallers
  cases h : g.callers a with
  | none =>
    ext ⟨x, y⟩
    by_cases hy : y = a
    · subst hy
      simp [edgesOfCallees, h]
    · simp [hy]
  | some =>
    ext ⟨x, y⟩
    by_cases hy : y = a
    · subst hy
      simp [edgesOfCallees]
    · simp [edgesOfCallees, hy]

/-- Under the callers, the second half removes the edges that the callees know. -/
lemma edges_removeCallers :
    (g.removeCallers a).edges = {e ∈ g.edges | ¬(e.2 = a ∧ e ∈ g.edgesOfCallees)} := by
  unfold removeCallers
  cases h : g.callers a with
  | none =>
    ext ⟨x, y⟩
    have hxy : ¬(y = a ∧ (x, y) ∈ g.edgesOfCallees) := by
      rintro ⟨rfl, hxy⟩
      simp [edgesOfCallees, h] at hxy
    exact ⟨fun hm => ⟨hm, hxy⟩, fun hm => hm.1⟩
  | some callers =>
    ext ⟨x, y⟩
    by_cases hx : x ∈ callers
    · cases hg : g.callees x with
      | none => simp [edges, hx, hg]
      | some s =>
        by_cases hy : y = a
        · subst hy
          simp [edgesOfCallees, edges, hx, hg, h]
        · simp [edges, hx, hg, hy]
    · by_cases hy : y = a
      · subst hy
        simp [edgesOfCallees, edges, hx, h]
      · simp [edges, hx, hy]

/-! ## Mirroring -/

lemma new_mirrored : new.Mirrored := by
  simp [Mirrored, new, edges, edgesOfCallees]

/-- An added edge is under both of its ends. -/
lemma Mirrored.addEdge (h : g.Mirrored) (a b : SymbolId) : (g.addEdge a b).Mirrored := by
  unfold Mirrored at *
  rw [edges_addEdge, edgesOfCallees_addEdge, h]

/-- A removed symbol has no edge left. -/
lemma edges_removeSymbol (h : g.Mirrored) :
    (g.removeSymbol a).edges = {e ∈ g.edges | e.1 ≠ a ∧ e.2 ≠ a} := by
  rw [removeSymbol, edges_removeCallers, edges_removeCallees, edgesOfCallees_removeCallees, h]
  ext ⟨x, y⟩
  simp only [Set.mem_ofPred_eq]
  tauto

/-- A removed symbol has no edge left under the callees. -/
lemma edgesOfCallees_removeSymbol (h : g.Mirrored) :
    (g.removeSymbol a).edgesOfCallees = {e ∈ g.edges | e.1 ≠ a ∧ e.2 ≠ a} := by
  rw [removeSymbol, edgesOfCallees_removeCallers, edgesOfCallees_removeCallees, h]
  ext ⟨x, y⟩
  simp only [Set.mem_ofPred_eq]
  tauto

/-- The edges of a removed symbol are gone under both of their ends. -/
lemma Mirrored.removeSymbol (h : g.Mirrored) (a : SymbolId) : (g.removeSymbol a).Mirrored := by
  rw [Mirrored, edges_removeSymbol h, edgesOfCallees_removeSymbol h]

/-- The edges after some callees have been added. -/
lemma edges_foldl_addEdge (l : List SymbolId) :
    (l.foldl (fun g callee => g.addEdge a callee) g).edges =
      g.edges ∪ {e | e.1 = a ∧ e.2 ∈ l} := by
  induction l generalizing g with
  | nil => simp
  | cons b l ih =>
    rw [List.foldl_cons, ih, edges_addEdge]
    ext ⟨x, y⟩
    simp only [Set.mem_union, Set.mem_insert_iff, Prod.mk.injEq, Set.mem_ofPred_eq, List.mem_cons]
    tauto

/-! ## Removing one edge -/

/-- The edges after one was to be removed: what calls the caller is gone as well. -/
lemma edges_removeSymCallEdge {F : Type} (h : g.Mirrored) (o : VisitOrder)
    (symbolsOf : String → List SymbolId) (hab : (a, b) ∈ g.edges) :
    (g.applyOp o symbolsOf (.removeSymCallEdge ⟨a, b⟩ : Op F)).edges =
      {e ∈ g.edges | e ≠ (a, b) ∧ (e.2 = a → e.1 = a)} := by
  simp only [CallGraph.applyOp, mem_getCallees, hab, if_true]
  rw [edges_foldl_addEdge, edges_removeSymbol h]
  ext ⟨x, y⟩
  simp only [Set.mem_union, Set.mem_ofPred_eq, List.mem_filter, mem_getCallees, decide_eq_true_eq,
    Prod.mk.injEq, ne_eq]
  constructor
  · rintro (⟨hxy, hx, hy⟩ | ⟨rfl, hxy, hy⟩)
    · exact ⟨hxy, fun e => hx e.1, fun e => absurd e hy⟩
    · exact ⟨hxy, fun e => hy e.2, fun _ => rfl⟩
  · rintro ⟨hxy, hne, hcall⟩
    by_cases hx : x = a
    · subst hx
      exact Or.inr ⟨rfl, hxy, fun e => hne ⟨rfl, e⟩⟩
    · exact Or.inl ⟨hxy, hx, fun e => hx (hcall e)⟩

/-- A step in the life of a call graph. -/
inductive Edit where
  | addEdge (caller callee : SymbolId)
  | removeSymbol (id : SymbolId)

def Edit.apply (g : CallGraph) : Edit → CallGraph
  | .addEdge caller callee => g.addEdge caller callee
  | .removeSymbol id => g.removeSymbol id

/-- The graph after some steps. -/
def built (edits : List Edit) : CallGraph := edits.foldl Edit.apply new

/-- Every graph that is built has its edges under both ends. -/
theorem built_mirrored (edits : List Edit) : (built edits).Mirrored := by
  refine List.foldlRecOn edits Edit.apply new_mirrored fun g hg e _ => ?_
  cases e with
  | addEdge a b => exact hg.addEdge a b
  | removeSymbol a => exact hg.removeSymbol a

/-- In every graph that is built, the callees and callers mirror each other, and removing an edge
removes just that edge exactly if it is not there or no other symbol calls its caller. -/
theorem removeSymCallEdge_exact_iff {F : Type} (edits : List Edit) (o : VisitOrder)
    (symbolsOf : String → List SymbolId) (a b : SymbolId) :
    (∀ x y, y ∈ (built edits).getCallees o x ↔ x ∈ (built edits).getCallers o y) ∧
      (((built edits).applyOp o symbolsOf (.removeSymCallEdge ⟨a, b⟩ : Op F)).edges =
          (built edits).edges \ {(a, b)} ↔
        ((built edits).hasEdge a b = true → ∀ x ∈ (built edits).getCallers o a, x = a)) := by
  have hm := built_mirrored edits
  generalize built edits = g at hm ⊢
  refine ⟨fun x y => by rw [mem_getCallees, mem_getCallers, hm], ?_⟩
  by_cases hab : (a, b) ∈ g.edges
  · rw [edges_removeSymCallEdge hm o symbolsOf hab, hasEdge_iff]
    simp only [mem_getCallers, hab, true_imp_iff]
    rw [hm]
    constructor
    · intro h x hx
      by_contra hne
      have hmem : (x, a) ∈ g.edges \ {(a, b)} := ⟨hx, fun e => hne (congrArg Prod.fst e)⟩
      rw [← h] at hmem
      exact hne (hmem.2.2 rfl)
    · intro h
      ext ⟨x, y⟩
      constructor
      · rintro ⟨hxy, hne, -⟩
        exact ⟨hxy, hne⟩
      · rintro ⟨hxy, hne⟩
        exact ⟨hxy, hne, by rintro rfl; exact h x hxy⟩
  · have hid : g.applyOp o symbolsOf (.removeSymCallEdge ⟨a, b⟩ : Op F) = g := by
      simp [CallGraph.applyOp, mem_getCallees, hab]
    rw [hid, hasEdge_iff, Set.sdiff_singleton_eq_self hab]
    simp [hab]

/-- Symbol 1 calls symbol 2 and is called by symbol 3: removing the first edge removes the second. -/
theorem removeSymCallEdge_forgets_callers :
    ¬ ∀ (edits : List Edit) (o : VisitOrder) (symbolsOf : String → List SymbolId) (a b : SymbolId),
      (∀ x y, y ∈ (built edits).getCallees o x ↔ x ∈ (built edits).getCallers o y) ∧
        ((built edits).applyOp o symbolsOf (.removeSymCallEdge ⟨a, b⟩ : Op Unit)).edges =
          (built edits).edges \ {(a, b)} := by
  intro h
  have hexact := (h [.addEdge 1 2, .addEdge 3 1] .sorted (fun _ => []) 1 2).2
  have hm := built_mirrored [.addEdge 1 2, .addEdge 3 1]
  have h12 : (1, 2) ∈ (built [.addEdge 1 2, .addEdge 3 1]).edges := hasEdge_iff.mp rfl
  have h31 : (3, 1) ∈ (built [.addEdge 1 2, .addEdge 3 1]).edges := hasEdge_iff.mp rfl
  have hold : (3, 1) ∈ (built [.addEdge 1 2, .addEdge 3 1]).edges \ {(1, 2)} := ⟨h31, by simp⟩
  rw [← hexact, edges_removeSymCallEdge hm .sorted _ h12] at hold
  exact absurd (hold.2.2 rfl) (by decide)

end CallGraph

end ChittaField
