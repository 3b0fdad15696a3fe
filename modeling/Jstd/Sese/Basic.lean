import Mathlib.Data.Prod.Lex
import Jstd.Foundation.SortByKey
import Jstd.Sese.CycleClasses

/-!
# SESE — candidates and the program-structure tree

The upper half of `graph/analysis/sese.rs`.  A graph is what the analysis reads of it: its edges,
and the targets each node's children iterator yields, both in whatever order the graph has.

`compute_sese_candidates` and `compute_sese` begin with the same text, which is `buildFlowgraph`
here.  A `BTreeSet` of node numbers is an increasing list.
-/

namespace Jstd

open Foundation

/-- One edge of a graph, with its endpoints. -/
structure GraphEdge (NodeId EdgeId : Type) where
  id : EdgeId
  fromId : NodeId
  toId : NodeId
  deriving DecidableEq, Repr

/-- A graph as the analysis reads it: `edges()`, and `children()` of a node. -/
structure GraphView (NodeId EdgeId : Type) [DecidableEq NodeId] where
  edges : List (GraphEdge NodeId EdgeId)
  children : NodeId → List NodeId
  ids_nodup : (edges.map fun edge => edge.id).Nodup
  /-- The children of a node are the targets of the edges that leave it. -/
  children_perm : ∀ n, (children n).Perm
    ((edges.filter fun edge => edge.fromId = n).map fun edge => edge.toId)

/-- The graph with these edges, which lists children in their order. -/
def GraphView.ofEdges {NodeId EdgeId : Type} [DecidableEq NodeId]
    (edges : List (GraphEdge NodeId EdgeId)) (h : (edges.map fun edge => edge.id).Nodup) :
    GraphView NodeId EdgeId where
  edges := edges
  children n := (edges.filter fun edge => edge.fromId = n).map fun edge => edge.toId
  ids_nodup := h
  children_perm _ := .refl _

structure SeseRegion (NodeId EdgeId : Type) where
  parent : Option Nat
  children : List Nat
  entryEdge : Option EdgeId
  exitEdge : Option EdgeId
  nodes : List NodeId
  containedNodes : List NodeId
  deriving DecidableEq, Repr

structure SeseTree (NodeId EdgeId : Type) where
  regions : List (SeseRegion NodeId EdgeId)
  deriving DecidableEq, Repr

/-- `&self.regions[0]`. -/
def SeseTree.root {NodeId EdgeId : Type} (self : SeseTree NodeId EdgeId) :
    Except Panic (SeseRegion NodeId EdgeId) :=
  index self.regions 0

def SeseTree.hasNontrivialRegions {NodeId EdgeId : Type} (self : SeseTree NodeId EdgeId) : Bool :=
  self.regions.length > 1

structure SeseCandidate (NodeId EdgeId : Type) where
  entryEdge : EdgeId
  exitEdge : EdgeId
  containedNodes : List NodeId
  deriving DecidableEq, Repr

namespace Sese

variable {NodeId EdgeId : Type} [LinearOrder NodeId] [LinearOrder EdgeId]

/-! ## The flow graph of the reachable nodes -/

/-- The breadth-first loop that collects the reachable nodes. -/
def bfs (g : GraphView NodeId EdgeId) :
    Nat → List NodeId → Finset NodeId → List NodeId → Except Panic (List NodeId)
  | 0, _, _, _ => .error .outOfFuel
  | _ + 1, [], _, ids => .ok ids
  | fuel + 1, id :: queue, seen, ids =>
      if id ∈ seen then bfs g fuel queue seen ids
      else
        bfs g fuel (queue ++ sortByKey (fun child => child) (g.children id)) (insert id seen)
          (ids ++ [id])

def reachableIds (g : GraphView NodeId EdgeId) (root : NodeId) : Except Panic (List NodeId) := do
  let ids ← bfs g (g.edges.length + 2) [root] ∅ []
  return sortByKey (fun id => id) ids

/-- `ids.iter().enumerate().map(|(i, id)| (*id, i)).collect()`. -/
def indexIds : List (NodeId × Nat) → HashMap NodeId Nat → HashMap NodeId Nat
  | [], map => map
  | (id, i) :: rest, map => indexIds rest (map.insert id i)

/-- The edges between reachable nodes, self-loops left out, by identifier. -/
def originalEdges (g : GraphView NodeId EdgeId) (numbers : HashMap NodeId Nat) :
    List (GraphEdge NodeId EdgeId) :=
  sortByKey (fun edge => edge.id) (g.edges.filter fun edge =>
    edge.fromId ≠ edge.toId ∧ numbers.containsKey edge.fromId ∧ numbers.containsKey edge.toId)

def internalEdge (numbers : HashMap NodeId Nat) (edge : GraphEdge NodeId EdgeId) :
    Except Panic (Option (IEdge EdgeId)) := do
  let fromNode ← indexMap numbers edge.fromId
  let toNode ← indexMap numbers edge.toId
  return some { fromNode := fromNode, toNode := toNode, original := some edge.id }

/-- `for edge in &edges { has_out[edge.from] = true; }`. -/
def markOut : List (IEdge EdgeId) → List Bool → Except Panic (List Bool)
  | [], hasOut => .ok hasOut
  | edge :: edges, hasOut => do
      let hasOut ← setIndex hasOut edge.fromNode true
      markOut edges hasOut

/-- An edge to the synthetic exit for every node without outgoing edges. -/
def exitEdges (exit : Nat) (hasOut : List Bool) : List (IEdge EdgeId) :=
  hasOut.zipIdx.filterMap fun (outgoing, node) =>
    if outgoing then none else some { fromNode := node, toNode := exit, original := none }

/-- The edge from the synthetic exit to the root, once something leads to the exit. -/
def backEdges (numbers : HashMap NodeId Nat) (root : NodeId) (exit : Nat)
    (exits : List (IEdge EdgeId)) : Except Panic (List (IEdge EdgeId)) :=
  if exits.isEmpty then .ok []
  else do
    let entry ← indexMap numbers root
    return [{ fromNode := exit, toNode := entry, original := none }]

/-- The node numbers stand for `ids`, and `ids.length` for the synthetic exit. -/
structure Flowgraph (NodeId EdgeId : Type) where
  ids : List NodeId
  edges : List (IEdge EdgeId)
  originalCount : Nat
  entry : Nat
  deriving DecidableEq, Repr

def Flowgraph.syntheticExit (self : Flowgraph NodeId EdgeId) : Nat :=
  self.ids.length

/-- `n`. -/
def Flowgraph.size (self : Flowgraph NodeId EdgeId) : Nat :=
  self.ids.length + 1

def buildFlowgraph (g : GraphView NodeId EdgeId) (root : NodeId) :
    Except Panic (Flowgraph NodeId EdgeId) := do
  let ids ← reachableIds g root
  let numbers := indexIds ids.zipIdx .empty
  let edges ← filterMapChecked (internalEdge numbers) (originalEdges g numbers)
  let originalCount := edges.length
  let hasOut ← markOut edges (List.replicate ids.length false)
  let exits := exitEdges ids.length hasOut
  -- A closed graph gets its exit at the last node.
  let exits := if exits.isEmpty ∧ ¬ ids.isEmpty then
      [{ fromNode := ids.length - 1, toNode := ids.length, original := none }]
    else exits
  let back ← backEdges numbers root ids.length exits
  let entry ← indexMap numbers root
  return { ids := ids, edges := edges ++ exits ++ back, originalCount := originalCount,
           entry := entry }

/-! ## Candidates -/

/-- `for a in 0..count { for b in 0..count { .. } }`. -/
def boundaryPairs (count : Nat) : List (Nat × Nat) :=
  (List.range count).flatMap fun a => (List.range count).map fun b => (a, b)

/-- The body of the loop over pairs: the region between the edges, when they are a boundary. -/
def regionBetween (fg : Flowgraph NodeId EdgeId) (cycleClasses : List Nat) (a b : Nat) :
    Except Panic (Option (Nat × Nat × List Nat)) := do
  if a = b then return none
  else do
    let dominates ← edgeDominates fg.edges fg.size fg.entry a b
    if !dominates then return none
    else do
      let postdominates ← edgePostdominates fg.edges fg.size fg.syntheticExit b a
      if !postdominates then return none
      else do
        let classA ← index cycleClasses a
        if classA = 0 then return none
        else do
          let classB ← index cycleClasses b
          if classA ≠ classB then return none
          else do
            let contained ← regionNodes fg.edges fg.size a b
            return if contained.isEmpty then none else some (a, b, contained)

/-- `contained.into_iter().map(|node| ids[node]).collect()`. -/
def nodeIds (fg : Flowgraph NodeId EdgeId) (nodes : List Nat) : Except Panic (List NodeId) :=
  filterMapChecked (fun node => do
    let id ← index fg.ids node
    return some id) nodes

def makeCandidate (fg : Flowgraph NodeId EdgeId) (a b : Nat) (contained : List Nat) :
    Except Panic (SeseCandidate NodeId EdgeId) := do
  let edgeA ← index fg.edges a
  let entryEdge ← unwrap edgeA.original
  let edgeB ← index fg.edges b
  let exitEdge ← unwrap edgeB.original
  let containedNodes ← nodeIds fg contained
  return { entryEdge := entryEdge, exitEdge := exitEdge, containedNodes := containedNodes }

/-- `(Reverse(contained_nodes.len()), entry_edge, exit_edge)`. -/
def candidateKey (candidate : SeseCandidate NodeId EdgeId) : Natᵒᵈ ×ₗ EdgeId ×ₗ EdgeId :=
  toLex (.toDual candidate.containedNodes.length,
    toLex (candidate.entryEdge, candidate.exitEdge))

def computeSeseCandidates (g : GraphView NodeId EdgeId) (root : NodeId) :
    Except Panic (List (SeseCandidate NodeId EdgeId)) := do
  let fg ← buildFlowgraph g root
  let cycleClasses ← jppCycleClasses fg.edges fg.size fg.entry
  let candidates ← filterMapChecked (fun (a, b) => do
    let region ← regionBetween fg cycleClasses a b
    match region with
    | none => return none
    | some (a, b, contained) => do
        let candidate ← makeCandidate fg a b contained
        return some candidate) (boundaryPairs fg.originalCount)
  return sortByKey candidateKey candidates

/-! ## Selection of canonical regions -/

/-- An element of `candidates` in `compute_sese`. -/
abbrev Boundary : Type :=
  Nat × Nat × List Nat

/-- `(nodes.len(), a, b)`. -/
def boundaryKey (candidate : Boundary) : Nat ×ₗ Nat ×ₗ Nat :=
  toLex (candidate.2.2.length, toLex (candidate.1, candidate.2.1))

/-- `(Reverse(nodes.len()), a, b)`. -/
def selectedKey (candidate : Boundary) : Natᵒᵈ ×ₗ Nat ×ₗ Nat :=
  toLex (.toDual candidate.2.2.length, toLex (candidate.1, candidate.2.1))

/-- `entry(key).or_insert(value)`. -/
def orInsert (map : HashMap Nat Nat) (key value : Nat) : HashMap Nat Nat :=
  if map.containsKey key then map else map.insert key value

/-- The loop that fills `smallest_for_boundary`. -/
def smallestForBoundary : List (Boundary × Nat) → HashMap Nat Nat → HashMap Nat Nat
  | [], map => map
  | ((a, b, _), index) :: rest, map =>
      smallestForBoundary rest (orInsert (orInsert map a index) b index)

def isSubset (xs ys : List Nat) : Bool :=
  xs.all fun x => ys.contains x

/-- The condition of the laminarity filter. -/
def crosses (candidate other : List Nat) : Bool :=
  candidate.any (fun node => other.contains node) && !isSubset candidate other &&
    !isSubset other candidate

/-- The candidates kept, from the sorted list of all. -/
def selectCanonical (candidates : List Boundary) : List Boundary :=
  let smallest := smallestForBoundary candidates.zipIdx .empty
  let selected := candidates.zipIdx.filterMap fun (candidate, index) =>
    if smallest.get? candidate.1 = some index ∨ smallest.get? candidate.2.1 = some index then
      some candidate
    else none
  let selected := selected.filter fun candidate =>
    !candidates.any fun other => crosses candidate.2.2 other.2.2
  sortByKey selectedKey selected

/-! ## The tree -/

/-- `min_by_key(|(_, set)| set.len())`, which returns the first of several. -/
def minByLen : List (List Nat × Nat) → Option (List Nat × Nat)
  | [] => none
  | p :: rest =>
      match minByLen rest with
      | none => some p
      | some q => if q.1.length < p.1.length then some q else some p

/-- The first smallest of the sets that satisfy `p`, or region 0. -/
def deepest (sets : List (List Nat)) (p : List Nat → Bool) : Nat :=
  match minByLen (sets.zipIdx.filter fun q => p q.1) with
  | some (_, i) => i
  | none => 0

/-- `regions[i] = f(regions[i])`. -/
def updateAt {α : Type} (xs : List α) (i : Nat) (f : α → α) : Except Panic (List α) := do
  let x ← index xs i
  setIndex xs i (f x)

/-- The loop that appends the selected regions, each below its parent. -/
def buildRegions (fg : Flowgraph NodeId EdgeId) :
    List Boundary → List (SeseRegion NodeId EdgeId) → List (List Nat) →
      Except Panic (List (SeseRegion NodeId EdgeId) × List (List Nat))
  | [], regions, sets => .ok (regions, sets)
  | (a, b, nodes) :: rest, regions, sets => do
      let parent := deepest sets fun set => isSubset nodes set
      let id := regions.length
      let edgeA ← index fg.edges a
      let edgeB ← index fg.edges b
      let containedNodes ← nodeIds fg nodes
      let regions := regions ++
        [{ parent := some parent, children := [], entryEdge := edgeA.original,
           exitEdge := edgeB.original, nodes := [], containedNodes := containedNodes }]
      let regions ← updateAt regions parent fun region =>
        { region with children := region.children ++ [id] }
      buildRegions fg rest regions (sets ++ [nodes])

/-- `region.children.sort_unstable()`. -/
def sortChildren (region : SeseRegion NodeId EdgeId) : SeseRegion NodeId EdgeId :=
  { region with children := sortByKey (fun child => child) region.children }

/-- The loop that gives every node to its deepest region. -/
def assignOwners (sets : List (List Nat)) :
    List (NodeId × Nat) → List (SeseRegion NodeId EdgeId) →
      Except Panic (List (SeseRegion NodeId EdgeId))
  | [], regions => .ok regions
  | (node, nodeIndex) :: rest, regions => do
      let owner := deepest sets fun set => set.contains nodeIndex
      let regions ← updateAt regions owner fun region =>
        { region with nodes := region.nodes ++ [node] }
      assignOwners sets rest regions

def buildTree (fg : Flowgraph NodeId EdgeId) (selected : List Boundary) :
    Except Panic (SeseTree NodeId EdgeId) := do
  let (regions, sets) ← buildRegions fg selected
    [{ parent := none, children := [], entryEdge := none, exitEdge := none, nodes := [],
       containedNodes := fg.ids }]
    [List.range fg.ids.length]
  let regions ← assignOwners sets fg.ids.zipIdx (regions.map sortChildren)
  return { regions := regions }

def computeSese (g : GraphView NodeId EdgeId) (root : NodeId) :
    Except Panic (SeseTree NodeId EdgeId) := do
  let fg ← buildFlowgraph g root
  let originalCount := (fg.edges.takeWhile fun edge => edge.original.isSome).length
  let cycleClasses ← jppCycleClasses fg.edges fg.size fg.entry
  let candidates ← filterMapChecked (fun (a, b) => regionBetween fg cycleClasses a b)
    (boundaryPairs originalCount)
  buildTree fg (selectCanonical (sortByKey boundaryKey candidates))

end Sese
end Jstd
