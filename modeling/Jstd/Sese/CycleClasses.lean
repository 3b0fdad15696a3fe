import Mathlib.Order.Lattice.Nat
import Mathlib.Order.WithBot
import Jstd.Foundation.Method
import Jstd.Panic

/-!
# Cycle classes — reachability and the bracket-list algorithm on edge lists

The lower half of `graph/analysis/sese.rs`: an internal edge joins two node numbers, the search
`reachable` answers every question about walks, and `jpp_cycle_classes` labels the edges.

Numbers that the source initialises with `usize::MAX` are `WithTop Nat`, and `⊤` is that mark: no
vector is long enough to have it as an index.  Every other number is a natural.  `fuel` bounds the
worklist loop, the recursion of `visit` and the loop of `find`; the bounds are given at the calls.
-/

namespace Jstd

open Foundation

/-- An internal edge; a synthetic one has no `original`. -/
structure IEdge (E : Type) where
  fromNode : Nat
  toNode : Nat
  original : Option E
  deriving DecidableEq, Repr

namespace Sese

variable {E : Type}

/-- `if edge.from == node { edge.to } else { edge.from }`. -/
def other (edge : IEdge E) (node : Nat) : Nat :=
  if edge.fromNode = node then edge.toNode else edge.fromNode

/-- `xs[i].push(x)`. -/
def pushAt {α : Type} (xs : List (List α)) (i : Nat) (x : α) : Except Panic (List (List α)) := do
  let row ← index xs i
  setIndex xs i (row ++ [x])

/-! ## Reachability -/

/-- `let (from, to) = if reverse { .. } else { .. }`. -/
def orient (reverse : Bool) (edge : IEdge E) : Nat × Nat :=
  if reverse then (edge.toNode, edge.fromNode) else (edge.fromNode, edge.toNode)

/-- The inner loop of `reachable`; the top of the stack is the head of the list. -/
def pushTargets (seen : List Bool) (skip : Option Nat) (reverse : Bool) (node : Nat) :
    List (IEdge E × Nat) → List Nat → Except Panic (List Nat)
  | [], stack => .ok stack
  | (edge, i) :: rest, stack =>
      if skip = some i then pushTargets seen skip reverse node rest stack
      else if (orient reverse edge).1 = node then do
        let seenTo ← index seen (orient reverse edge).2
        if seenTo then pushTargets seen skip reverse node rest stack
        else pushTargets seen skip reverse node rest ((orient reverse edge).2 :: stack)
      else pushTargets seen skip reverse node rest stack

/-- The outer loop of `reachable`. -/
def search (edges : List (IEdge E)) (skip : Option Nat) (reverse : Bool) :
    Nat → List Bool → List Nat → Except Panic (List Bool)
  | 0, _, _ => .error .outOfFuel
  | _ + 1, seen, [] => .ok seen
  | fuel + 1, seen, node :: stack => do
      let seenNode ← index seen node
      if seenNode then search edges skip reverse fuel seen stack
      else do
        let seen ← setIndex seen node true
        let stack ← pushTargets seen skip reverse node edges.zipIdx stack
        search edges skip reverse fuel seen stack

def reachable (edges : List (IEdge E)) (n start : Nat) (skip : Option Nat) (reverse : Bool) :
    Except Panic (List Bool) :=
  search edges skip reverse (edges.length + 2) (List.replicate n false) [start]

def edgeDominates (edges : List (IEdge E)) (n root a b : Nat) : Except Panic Bool := do
  let seen ← reachable edges n root (some a) false
  let edge ← index edges b
  let seenFrom ← index seen edge.fromNode
  return !seenFrom

def edgePostdominates (edges : List (IEdge E)) (n exit b a : Nat) : Except Panic Bool := do
  let seen ← reachable edges n exit (some b) true
  let edge ← index edges a
  let seenTo ← index seen edge.toNode
  return !seenTo

def cycleEquivalent (edges : List (IEdge E)) (n a b : Nat) : Except Panic Bool := do
  let edgeA ← index edges a
  let fromA ← reachable edges n edgeA.toNode (some b) false
  let aCycleWithoutB ← index fromA edgeA.fromNode
  let edgeB ← index edges b
  let fromB ← reachable edges n edgeB.toNode (some a) false
  let bCycleWithoutA ← index fromB edgeB.fromNode
  return !aCycleWithoutB && !bCycleWithoutA

/-- The set is in increasing order, as a `BTreeSet` is. -/
def regionNodes (edges : List (IEdge E)) (n entry exit : Nat) : Except Panic (List Nat) := do
  let entryEdge ← index edges entry
  let forward ← reachable edges n entryEdge.toNode (some exit) false
  let exitEdge ← index edges exit
  let backward ← reachable edges n exitEdge.fromNode (some entry) true
  filterMapChecked (fun node => do
    let inForward ← index forward node
    if inForward then do
      let inBackward ← index backward node
      return if inBackward then some node else none
    else return none) (List.range (n - 1))

/-! ## The depth-first search of the undirected graph -/

/-- What `visit` writes. -/
structure VisitState where
  parent : List (Option Nat)
  parentEdge : List (Option Nat)
  number : List (WithTop Nat)
  endOf : List Nat
  preorder : List Nat
  tree : List Bool

def VisitState.new (n edgeCount : Nat) : VisitState :=
  { parent := List.replicate n none
    parentEdge := List.replicate n none
    number := List.replicate n ⊤
    endOf := List.replicate n 0
    preorder := []
    tree := List.replicate edgeCount false }

/-- `incident`: every node's edges, a self-loop twice. -/
def fileEdges : List (IEdge E × Nat) → List (List Nat) → Except Panic (List (List Nat))
  | [], incident => .ok incident
  | (edge, id) :: rest, incident => do
      let incident ← pushAt incident edge.fromNode id
      let incident ← pushAt incident edge.toNode id
      fileEdges rest incident

def visit (edges : List (IEdge E)) (incident : List (List Nat)) :
    Nat → Nat → Method Panic VisitState Unit
  | 0, _ => throw .outOfFuel
  | fuel + 1, node => do
      let self ← get
      let number ← setIndex self.number node (WithTop.some self.preorder.length)
      modify fun self => { self with number := number }
      modify fun self => { self with preorder := self.preorder ++ [node] }
      let eids ← index incident node
      Method.forEach (fun eid => do
        let self ← get
        let parentEdge ← index self.parentEdge node
        -- The edge the search came by; a parallel one is a back edge.
        if parentEdge = some eid then pure ()
        else do
          let edge ← index edges eid
          let otherNumber ← index self.number (other edge node)
          -- `usize::MAX` in the source: the other end is not numbered yet.
          if otherNumber = ⊤ then do
            let parent ← setIndex self.parent (other edge node) (some node)
            let parentEdge ← setIndex self.parentEdge (other edge node) (some eid)
            modify fun self => { self with parent := parent, parentEdge := parentEdge }
            visit edges incident fuel (other edge node)
            let self ← get
            let tree ← setIndex self.tree eid true
            modify fun self => { self with tree := tree }
          else pure ()) eids
      let self ← get
      let endOf ← setIndex self.endOf node self.preorder.length
      modify fun self => { self with endOf := endOf }

/-- The closure `is_descendant`. -/
def isDescendant (dfs : VisitState) (node ancestor : Nat) : Except Panic Bool :=
  if node = ancestor then return false
  else do
    let numberAncestor ← index dfs.number ancestor
    let numberNode ← index dfs.number node
    if numberAncestor ≤ numberNode then do
      let endAncestor ← index dfs.endOf ancestor
      return decide (numberNode < WithTop.some endAncestor)
    else return false

/-! ## The bracket lists -/

/-- What the main loop of `jpp_cycle_classes` writes; `edges`, `incident` and `tree` grow with
every capping edge. -/
structure BracketState (E : Type) where
  edges : List (IEdge E)
  incident : List (List Nat)
  tree : List Bool
  hi : List (WithTop Nat)
  brackets : List (List Nat)
  classes : List Nat
  recentSize : List Nat
  recentClass : List Nat
  capping : List Nat
  nextClass : Nat

def BracketState.new (edges : List (IEdge E)) (n : Nat) (incident : List (List Nat))
    (tree : List Bool) : BracketState E :=
  { edges := edges
    incident := incident
    tree := tree
    hi := List.replicate n ⊤
    brackets := List.replicate n []
    classes := List.replicate edges.length 0
    recentSize := List.replicate edges.length 0
    recentClass := List.replicate edges.length 0
    capping := []
    nextClass := 1 }

/-- `min().unwrap_or(usize::MAX)`. -/
def minOrMax : List (WithTop Nat) → WithTop Nat
  | [] => ⊤
  | x :: xs => min x (minOrMax xs)

/-- Numbers of the ancestors that back edges lead to from `node`, in the order of `eids`. -/
def upNumbers (dfs : VisitState) (self : BracketState E) (node : Nat) (eids : List Nat) :
    Except Panic (List (WithTop Nat)) :=
  filterMapChecked (fun eid => do
    let isTree ← index self.tree eid
    if isTree then return none
    else do
      let edge ← index self.edges eid
      let up ← isDescendant dfs node (other edge node)
      if up then do
        let number ← index dfs.number (other edge node)
        return some number
      else return none) eids

/-- `brackets[node].extend(std::mem::take(&mut brackets[child]))`. -/
def takeBrackets (node child : Nat) : Method Panic (BracketState E) Unit := do
  let self ← get
  let childBrackets ← index self.brackets child
  let brackets ← setIndex self.brackets child []
  let nodeBrackets ← index brackets node
  let brackets ← setIndex brackets node (nodeBrackets ++ childBrackets)
  modify fun self => { self with brackets := brackets }

/-- `brackets[node].retain(|candidate| *candidate != eid)`. -/
def dropBracket (node eid : Nat) : Method Panic (BracketState E) Unit := do
  let self ← get
  let nodeBrackets ← index self.brackets node
  let brackets ← setIndex self.brackets node (nodeBrackets.filter fun candidate => candidate ≠ eid)
  modify fun self => { self with brackets := brackets }

/-- A capping edge that comes from below `node` ends here; for a node not on the edge its target
counts as the child. -/
def dropCap (dfs : VisitState) (node eid : Nat) : Method Panic (BracketState E) Unit := do
  let self ← get
  let edge ← index self.edges eid
  let below ← isDescendant dfs (if edge.toNode = node then edge.fromNode else edge.toNode) node
  if below then dropBracket node eid else pure ()

/-- A back edge that comes from below `node` ends here, and has a class from now on. -/
def endBackEdge (dfs : VisitState) (node eid : Nat) : Method Panic (BracketState E) Unit := do
  let self ← get
  let isTree ← index self.tree eid
  if isTree then pure ()
  else do
    let edge ← index self.edges eid
    let below ← isDescendant dfs (other edge node) node
    if below then do
      dropBracket node eid
      let self ← get
      let eidClass ← index self.classes eid
      if eidClass = 0 then do
        let classes ← setIndex self.classes eid self.nextClass
        modify fun self => { self with classes := classes, nextClass := self.nextClass + 1 }
      else pure ()
    else pure ()

/-- A back edge that leads up from `node` begins here. -/
def beginBackEdge (dfs : VisitState) (node eid : Nat) : Method Panic (BracketState E) Unit := do
  let self ← get
  let isTree ← index self.tree eid
  if isTree then pure ()
  else do
    let edge ← index self.edges eid
    let up ← isDescendant dfs node (other edge node)
    if up then do
      let brackets ← pushAt self.brackets node eid
      modify fun self => { self with brackets := brackets }
    else pure ()

/-- `preorder[hi2]`. -/
def preorderAt (dfs : VisitState) : WithTop Nat → Except Panic Nat
  | ⊤ => .error .indexOutOfBounds
  | .some i => index dfs.preorder i

/-- The capping edge from `node` to the vertex numbered `hi2`. -/
def addCap (dfs : VisitState) (node : Nat) (hi2 : WithTop Nat) :
    Method Panic (BracketState E) Unit := do
  let self ← get
  let eid := self.edges.length
  let ancestor ← preorderAt dfs hi2
  let edges := self.edges ++ [{ fromNode := node, toNode := ancestor, original := none }]
  let incident ← pushAt self.incident node eid
  let incident ← pushAt incident ancestor eid
  let brackets ← pushAt self.brackets node eid
  modify fun self =>
    { self with
      edges := edges
      incident := incident
      tree := self.tree ++ [false]
      classes := self.classes ++ [0]
      recentSize := self.recentSize ++ [0]
      recentClass := self.recentClass ++ [0]
      capping := self.capping ++ [eid]
      brackets := brackets }

/-- Name the tree edge to the parent after the topmost bracket and the number of brackets. -/
def nameTreeEdge (parentEid top size : Nat) : Method Panic (BracketState E) Unit := do
  let self ← get
  let topSize ← index self.recentSize top
  (if topSize ≠ size then do
    let recentSize ← setIndex self.recentSize top size
    let recentClass ← setIndex self.recentClass top self.nextClass
    modify fun self =>
      { self with recentSize := recentSize, recentClass := recentClass,
                  nextClass := self.nextClass + 1 }
  else pure ())
  let self ← get
  let topClass ← index self.recentClass top
  let classes ← setIndex self.classes parentEid topClass
  modify fun self => { self with classes := classes }
  let self ← get
  let topSize ← index self.recentSize top
  if topSize = 1 then do
    let parentClass ← index self.classes parentEid
    let classes ← setIndex self.classes top parentClass
    modify fun self => { self with classes := classes }
  else pure ()

/-- The body of the main loop; `false` stands for the early return to the direct classification. -/
def processNode (dfs : VisitState) (node : Nat) : Method Panic (BracketState E) Bool := do
  let children ← filterMapChecked (fun child => do
    let parent ← index dfs.parent child
    return if parent = some node then some child else none) dfs.preorder
  let self ← get
  let eids ← index self.incident node
  let ups ← upNumbers dfs self node eids
  let hi0 := minOrMax ups
  let his ← filterMapChecked (fun child => do
    let hiChild ← index self.hi child
    return some hiChild) children
  let hi1 := minOrMax his
  let hi ← setIndex self.hi node (min hi0 hi1)
  modify fun self => { self with hi := hi }
  let his ← filterMapChecked (fun child => do
    let hiChild ← index hi child
    return some hiChild) children
  -- All but the first child that attains `hi1`.
  let hi2 := minOrMax (his.erase hi1)
  Method.forEach (takeBrackets node) children
  let self ← get
  Method.forEach (dropCap dfs node) self.capping
  Method.forEach (endBackEdge dfs node) eids
  Method.forEach (beginBackEdge dfs node) eids
  (if hi2 < hi0 then addCap dfs node hi2 else pure ())
  let parentEdge ← index dfs.parentEdge node
  match parentEdge with
  | none => return true
  | some parentEid => do
      let self ← get
      let nodeBrackets ← index self.brackets node
      match nodeBrackets.getLast? with
      | none => return false
      | some top => do
          nameTreeEdge parentEid top nodeBrackets.length
          return true

/-- The main loop, over `preorder` in reverse. -/
def bracketLoop (dfs : VisitState) : List Nat → Method Panic (BracketState E) Bool
  | [] => return true
  | node :: nodes => do
      let proper ← processNode dfs node
      if proper then bracketLoop dfs nodes else return false

/-! ## The direct classification -/

/-- The union-find array, and the labels given out so far. -/
structure DirectState where
  parent : List Nat
  labels : HashMap Nat Nat
  next : Nat

/-- `find`, which halves the path it walks. -/
def find : Nat → Nat → Method Panic DirectState Nat
  | 0, _ => throw .outOfFuel
  | fuel + 1, node => do
      let self ← get
      let parentNode ← index self.parent node
      if parentNode = node then return node
      else do
        let grandparent ← index self.parent parentNode
        let parent ← setIndex self.parent node grandparent
        modify fun self => { self with parent := parent }
        let next ← index parent node
        find fuel next

/-- The body of the two loops over pairs of edges. -/
def uniteEquivalent (edges : List (IEdge E)) (n a b : Nat) : Method Panic DirectState Unit := do
  let equivalent ← cycleEquivalent edges n a b
  if equivalent then do
    let ra ← find (edges.length + 1) a
    let rb ← find (edges.length + 1) b
    let self ← get
    let parent ← setIndex self.parent rb ra
    modify fun self => { self with parent := parent }
  else pure ()

/-- `*labels.entry(root).or_insert_with(..)`. -/
def labelOf (fuel edge : Nat) : Method Panic DirectState Nat := do
  let root ← find fuel edge
  let self ← get
  match self.labels.get? root with
  | some label => return label
  | none => do
      modify fun self =>
        { self with labels := self.labels.insert root self.next, next := self.next + 1 }
      return self.next

/-- `.map(..).collect()` over the edges. -/
def labelAll (fuel : Nat) : List Nat → Method Panic DirectState (List Nat)
  | [] => return []
  | edge :: edges => do
      let label ← labelOf fuel edge
      let labels ← labelAll fuel edges
      return label :: labels

def directCycleClasses (edges : List (IEdge E)) (n : Nat) : Except Panic (List Nat) :=
  let loops : Method Panic DirectState (List Nat) := do
    Method.forUp 0 edges.length fun a =>
      Method.forUp (a + 1) (edges.length - (a + 1)) (uniteEquivalent edges n a)
    labelAll (edges.length + 1) (List.range edges.length)
  (loops.run { parent := List.range edges.length, labels := .empty, next := 1 }).1

/-! ## jpp_cycle_classes -/

/-- `valid`: the labels agree with the cycle predicate, on every edge with itself too. -/
def isValid (input : List (IEdge E)) (n : Nat) (classes : List Nat) : Except Panic Bool :=
  allChecked (fun a =>
    allChecked (fun b => do
      let classA ← index classes a
      let classB ← index classes b
      let equivalent ← cycleEquivalent input n a b
      return (classA == classB) == equivalent) (List.range input.length))
    (List.range input.length)

/-- The labels of the bracket lists, unless some node had none. -/
def bracketClasses (input : List (IEdge E)) (n root : Nat) :
    Except Panic (Option (List Nat)) := do
  let incident ← fileEdges input.zipIdx (List.replicate n [])
  match (visit input incident (n + 1) root).run (VisitState.new n input.length) with
  | (.error e, _) => .error e
  | (.ok _, dfs) =>
      match (bracketLoop dfs dfs.preorder.reverse).run
          (BracketState.new input n incident dfs.tree) with
      | (.error e, _) => .error e
      | (.ok false, _) => return none
      | (.ok true, self) => return some (self.classes.take input.length)

def jppCycleClasses (input : List (IEdge E)) (n root : Nat) : Except Panic (List Nat) := do
  let labels ← bracketClasses input n root
  match labels with
  | none => directCycleClasses input n
  | some classes => do
      let valid ← isValid input n classes
      if valid then return classes else directCycleClasses input n

end Sese
end Jstd
