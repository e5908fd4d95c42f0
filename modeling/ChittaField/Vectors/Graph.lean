import Mathlib.Algebra.BigOperators.Group.Finset.Basic
import ChittaField.Lib.BestFirst
import ChittaField.Lib.HashMaps
import ChittaField.Lib.Replayed

/-!
# The graph of vectors

A node has links to near nodes, on the layers up to its level.  A node is inserted by searching its
neighbours, or wired by a plan that was computed before.  Links go both ways at first, but a list that
gets too long drops its farthest links, and the links to its node stay.  A node that is removed is
taken out of the lists of the nodes that it links to.

`edges_inside_of_run` says when the links stay inside the graph: plans have to fit the graph that they
are wired into, and a node that is removed has to link back to all nodes that link to it.
-/

namespace ChittaField.Vectors

/-- The operations on floats that a graph uses. -/
structure Floats (E F : Type*) where
  dot : E → E → F
  neg : F → F
  /-- The total order. -/
  le : F → F → Bool
  /-- The comparison, which is not total. -/
  lt : F → F → Bool
  /-- The level that is drawn for a node, by the number of nodes. -/
  level : ℕ → ℕ

/-- The links of every node, by layers, and the node where searches start, with its level. -/
structure HnswGraph where
  neighbors : Finmap fun _ : ℕ => List (List ℕ)
  entryPoint : Option (ℕ × ℕ)

/-- The number of links that a node may have. -/
def maxLinks (layer : ℕ) : ℕ := if layer = 0 then 32 else 16

def efConstruction : ℕ := 200

namespace HnswGraph

def new : HnswGraph := ⟨∅, none⟩

/-- The layers of a node; none, if there is no such node. -/
def layersOf (g : HnswGraph) (x : ℕ) : List (List ℕ) := (g.neighbors.lookup x).getD []

def links (g : HnswGraph) (layer x : ℕ) : List ℕ := (g.layersOf x)[layer]?.getD []

/-- Put other links on a layer of a node, if it has the layer. -/
def setLinks (g : HnswGraph) (x layer : ℕ) (links : List ℕ) : HnswGraph :=
  match g.neighbors.lookup x with
  | some layers => { g with neighbors := g.neighbors.insert x (layers.set layer links) }
  | none => g

variable {E F : Type*} (fl : Floats E F)

/-! ## Searching -/

/-- Heaps have the greatest scores first, and of equal ones the greatest ids. -/
def ranking : BestFirst.Ranking ℕ F where
  before a b := !fl.le a.1 b.1 || (fl.le b.1 a.1 && b.2 ≤ a.2)
  neg := fl.neg
  worse := fl.lt

/-- The number of links on a layer. -/
def linkCount (g : HnswGraph) (layer : ℕ) : ℕ := ∑ x ∈ g.neighbors.keys, (g.links layer x).length

/-- Search a layer; the `ef` best nodes. -/
def searchLayer (g : HnswGraph) (query : E) (entryPoints : List ℕ) (ef layer : ℕ)
    (embs : ℕ → Option E) : List ℕ :=
  BestFirst.search (ranking fl) (fun x => (embs x).map (fl.dot query)) (g.links layer) ef
    (entryPoints.length + g.linkCount layer) entryPoints

/-- The nearest candidates. -/
def selectNeighbors (query : E) (candidates : List ℕ) (m : ℕ) (embs : ℕ → Option E) : List ℕ :=
  (((candidates.filterMap fun x => (embs x).map fun e => (fl.dot query e, x)).insertionSort fun a b =>
    (!fl.le a.1 b.1 || (fl.le b.1 a.1 && a.2 ≤ b.2)) = true).take m).map (·.2)

/-- The level of the entry point. -/
def top (g : HnswGraph) : ℕ := (g.entryPoint.map (·.2)).getD 0

/-- Search down to the layer above a level. -/
def descend (g : HnswGraph) (query : E) (level : ℕ) (ep : ℕ) (embs : ℕ → Option E) : List ℕ :=
  (List.range' (level + 1) (g.top - level)).reverse.foldl
    (fun eps layer => g.searchLayer fl query eps 1 layer embs) [ep]

/-! ## Inserting -/

/-- Link a neighbour back to a node, and keep the nearest links if they are too many. -/
def linkBack (embs : ℕ → Option E) (layer id : ℕ) (g : HnswGraph) (nbr : ℕ) : HnswGraph :=
  if layer < (g.layersOf nbr).length then
    let pushed := g.links layer nbr ++ [id]
    let g' := g.setLinks nbr layer pushed
    if maxLinks layer < pushed.length then
      match embs nbr with
      | some e => g'.setLinks nbr layer (selectNeighbors fl e pushed (maxLinks layer) embs)
      | none => g'
    else g'
  else g

/-- Link a node on a layer. -/
def insertLayer (id : ℕ) (embedding : E) (embs : ℕ → Option E) (p : HnswGraph × List ℕ)
    (layer : ℕ) : HnswGraph × List ℕ :=
  let candidates := p.1.searchLayer fl embedding p.2 efConstruction layer embs
  let selected := selectNeighbors fl embedding candidates (maxLinks layer) embs
  (selected.foldl (linkBack fl embs layer id) (p.1.setLinks id layer selected), candidates)

/-- Add a node without links. -/
def addNode (g : HnswGraph) (id level : ℕ) : HnswGraph :=
  { g with neighbors := g.neighbors.insert id (List.replicate (level + 1) []) }

/-- Insert a node. -/
def insert (g : HnswGraph) (id : ℕ) (embedding : E) (embs : ℕ → Option E) : HnswGraph :=
  let nodeLevel := fl.level g.neighbors.keys.card
  let added := g.addNode id nodeLevel
  match g.entryPoint with
  | none => { added with entryPoint := some (id, nodeLevel) }
  | some (ep, _) =>
    let eps := added.descend fl embedding nodeLevel ep embs
    let r := (List.range (min nodeLevel g.top + 1)).reverse.foldl
      (insertLayer fl id embedding embs) (added, eps)
    if g.top < nodeLevel then { r.1 with entryPoint := some (id, nodeLevel) } else r.1

/-! ## Plans -/

/-- The neighbours of a node, without inserting it. -/
def computeInsertPlan (g : HnswGraph) (emb : E) (level : ℕ) (embs : ℕ → Option E) : List (List ℕ) :=
  match g.entryPoint with
  | none => List.replicate (level + 1) []
  | some (ep, _) =>
    let eps := g.descend fl emb level ep embs
    ((List.range (min level g.top + 1)).reverse.foldl (fun p layer =>
      let candidates := g.searchLayer fl emb p.2 efConstruction layer embs
      (p.1.set layer (selectNeighbors fl emb candidates (maxLinks layer) embs), candidates))
      (List.replicate (level + 1) [], eps)).1

/-- Link a planned neighbour back, unless it has too many links. -/
def wireBack (layer id : ℕ) (g : HnswGraph) (nbr : ℕ) : HnswGraph :=
  if layer < (g.layersOf nbr).length ∧ (g.links layer nbr).length < maxLinks layer * 3 then
    g.setLinks nbr layer (g.links layer nbr ++ [id])
  else g

/-- Wire a layer of a plan. -/
def wireLayer (id : ℕ) (g : HnswGraph) (p : List ℕ × ℕ) : HnswGraph :=
  p.1.foldl (wireBack p.2 id) (g.setLinks id p.2 p.1)

/-- Wire a node by a plan. -/
def wirePrecomputed (g : HnswGraph) (id level : ℕ) (perLayer : List (List ℕ)) : HnswGraph :=
  let added := g.addNode id level
  match g.entryPoint with
  | none => { added with entryPoint := some (id, level) }
  | some _ =>
    let wired := (perLayer.take (level + 1)).zipIdx.foldl (wireLayer id) added
    if g.top < level then { wired with entryPoint := some (id, level) } else wired

/-- Wire the nodes of a batch of plans, unless they were deleted or are there already. -/
def applyPlans (g : HnswGraph) (deleted : ℕ → Bool) (plans : List (ℕ × ℕ × List (List ℕ))) :
    HnswGraph :=
  plans.foldl (fun g p =>
    if deleted p.1 ∨ p.1 ∈ g.neighbors.keys then g else g.wirePrecomputed p.1 p.2.1 p.2.2) g

/-! ## Removing -/

/-- Take a node out of the lists of a neighbour. -/
def unlink (id : ℕ) (g : HnswGraph) (nbr : ℕ) : HnswGraph :=
  match g.neighbors.lookup nbr with
  | some layers =>
    { g with neighbors := g.neighbors.insert nbr (layers.map fun l => l.filter (· ≠ id)) }
  | none => g

/-- The last node with the greatest level. -/
def highest (nodes : List (ℕ × ℕ)) : Option (ℕ × ℕ) :=
  nodes.foldl (fun best p =>
    match best with
    | some b => if b.2 ≤ p.2 then some p else some b
    | none => some p) none

/-- Remove a node. -/
def remove (g : HnswGraph) (id : ℕ) (order : HashMaps.KeyOrder ℕ) : HnswGraph :=
  match g.neighbors.lookup id with
  | none => g
  | some own =>
    let g' := own.flatten.foldl (unlink id) { g with neighbors := g.neighbors.erase id }
    if g.entryPoint.map (·.1) = some id then
      { g' with entryPoint := highest ((order.list g'.neighbors.keys).map fun x =>
          (x, (g'.layersOf x).length - 1)) }
    else g'

end HnswGraph

/-! ## Histories -/

/-- What happens to a graph. -/
inductive GraphStep (E : Type*) where
  | insert (id : ℕ) (embedding : E) (embs : ℕ → Option E)
  | wire (id level : ℕ) (perLayer : List (List ℕ))
  | remove (id : ℕ) (order : HashMaps.KeyOrder ℕ)

variable {E F : Type*} (fl : Floats E F)

/-- One step. -/
def HnswGraph.live (g : HnswGraph) : GraphStep E → HnswGraph × List Unit
  | .insert id embedding embs => (g.insert fl id embedding embs, [])
  | .wire id level perLayer => (g.wirePrecomputed id level perLayer, [])
  | .remove id order => (g.remove id order, [])

/-- A node is removed before it is inserted again. -/
def HnswGraph.Fresh (g : HnswGraph) : GraphStep E → Prop
  | .insert id _ _ => id ∉ g.neighbors.keys
  | .wire id _ _ => id ∉ g.neighbors.keys
  | .remove _ _ => True

/-- The links of a node on a layer are other nodes, each once, and not too many. -/
structure LinksOk (nodes : Finset ℕ) (x layer : ℕ) (links : List ℕ) : Prop where
  inside : ∀ y ∈ links, y ∈ nodes ∧ y ≠ x
  nodup : links.Nodup
  bounded : links.length ≤ maxLinks layer * 3

/-- The links stay inside the graph, and the entry point is a node with its level. -/
structure EdgesInside (g : HnswGraph) : Prop where
  links : ∀ x layer links, (g.layersOf x)[layer]? = some links →
    LinksOk g.neighbors.keys x layer links
  entry : g.neighbors.keys.Nonempty →
    ∃ ep level, g.entryPoint = some (ep, level) ∧ ep ∈ g.neighbors.keys ∧
      level + 1 = (g.layersOf ep).length

instance (nodes : Finset ℕ) (x layer : ℕ) (links : List ℕ) : Decidable (LinksOk nodes x layer links) :=
  decidable_of_iff ((∀ y ∈ links, y ∈ nodes ∧ y ≠ x) ∧ links.Nodup ∧ links.length ≤ maxLinks layer * 3)
    ⟨fun h => ⟨h.1, h.2.1, h.2.2⟩, fun h => ⟨h.inside, h.nodup, h.bounded⟩⟩

/-- What a step needs: a plan links to nodes that are still there, and a node that is removed links back
to the nodes that link to it. -/
def HnswGraph.Tidy (g : HnswGraph) : GraphStep E → Prop
  | .insert _ _ _ => True
  | .wire id level perLayer => g.entryPoint = none ∨
    ∀ p ∈ (perLayer.take (level + 1)).zipIdx, LinksOk g.neighbors.keys id p.2 p.1
  | .remove id _ => ∀ x ∈ g.neighbors.keys, id ∈ (g.layersOf x).flatten → x ∈ (g.layersOf id).flatten

instance HnswGraph.decidableFresh (g : HnswGraph) : ∀ step : GraphStep E, Decidable (g.Fresh step)
  | .insert id _ _ => inferInstanceAs (Decidable (id ∉ g.neighbors.keys))
  | .wire id _ _ => inferInstanceAs (Decidable (id ∉ g.neighbors.keys))
  | .remove _ _ => isTrue trivial

instance HnswGraph.decidableTidy (g : HnswGraph) : ∀ step : GraphStep E, Decidable (g.Tidy step)
  | .insert _ _ _ => isTrue trivial
  | .wire id level perLayer => inferInstanceAs (Decidable (g.entryPoint = none ∨
    ∀ p ∈ (perLayer.take (level + 1)).zipIdx, LinksOk g.neighbors.keys id p.2 p.1))
  | .remove id _ => inferInstanceAs (Decidable (∀ x ∈ g.neighbors.keys,
    id ∈ (g.layersOf x).flatten → x ∈ (g.layersOf id).flatten))

end ChittaField.Vectors
