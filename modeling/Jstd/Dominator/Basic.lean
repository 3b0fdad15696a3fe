import Jstd.Foundation.HashMap
import Jstd.Foundation.Method
import Jstd.Foundation.Path
import Jstd.Panic

/-!
# Dominators — the Lengauer–Tarjan algorithm as the source runs it

The model of `graph/analysis/dominator.rs`, over a control-flow graph that is no more than its
successor relation.  All vectors are indexed by 1-based depth-first numbers and every access is
checked.  `fuel` bounds the depth of the recursions and the turns of the worklist loop.
-/

namespace Jstd

open Foundation

/-- The trait `Cfg`: the successors of a node, in the order they are listed. -/
structure Cfg (N : Type) where
  successors : N → List N

namespace Cfg

variable {N : Type}

def Edge (g : Cfg N) (u v : N) : Prop :=
  v ∈ g.successors u

/-- Some walk leads from `root` to `n`. -/
def Reachable (g : Cfg N) (root n : N) : Prop :=
  Reaches g.Edge root n

end Cfg

namespace Dominator

variable {N : Type} [DecidableEq N]

/-! ## Reachability -/

/-- `for succ in successors { if !visited.contains(&succ) { stack.push(succ) } }`; the top of the
stack is the head of the list. -/
def pushUnvisited (visited : Finset N) : List N → List N → List N
  | [], stack => stack
  | succ :: succs, stack =>
      if succ ∈ visited then pushUnvisited visited succs stack
      else pushUnvisited visited succs (succ :: stack)

/-- The loop of `reachable_from_root`. -/
def visitStack (g : Cfg N) : Nat → List N → Finset N → List N → Except Panic (List N)
  | 0, _, _, _ => .error .outOfFuel
  | _ + 1, [], _, order => .ok order
  | fuel + 1, node :: stack, visited, order =>
      if node ∈ visited then visitStack g fuel stack visited order
      else
        visitStack g fuel
          (pushUnvisited (insert node visited) (g.successors node) stack)
          (insert node visited) (order ++ [node])

def reachableFromRoot (fuel : Nat) (g : Cfg N) (root : N) : Except Panic (List N) :=
  visitStack g fuel [root] ∅ []

/-! ## The state of the algorithm -/

/-- Vectors by depth-first number; number 0 is unused. -/
structure LtState (N : Type) where
  number : HashMap N Nat
  vertex : List (Option N)
  parent : List Nat
  semi : List Nat
  idom : List Nat
  ancestor : List Nat
  label : List Nat
  bucket : List (List Nat)
  pred : List (List Nat)

namespace LtState

def new : LtState N :=
  { number := .empty, vertex := [none], parent := [0], semi := [0], idom := [0], ancestor := [0],
    label := [0], bucket := [[]], pred := [[]] }

def lastIndex (self : LtState N) : Nat :=
  self.vertex.length - 1

def pushVertex (node : N) (parent : Nat) : Method Panic (LtState N) Nat := do
  let self ← get
  let idx := self.vertex.length
  modify fun self =>
    { number := self.number.insert node idx
      vertex := self.vertex ++ [some node]
      parent := self.parent ++ [parent]
      semi := self.semi ++ [idx]
      idom := self.idom ++ [0]
      ancestor := self.ancestor ++ [0]
      label := self.label ++ [idx]
      bucket := self.bucket ++ [[]]
      pred := self.pred ++ [[]] }
  return idx

/-- `if let Some(&succ_idx) = self.number.get(&succ) { self.pred[succ_idx].push(node_idx) }`. -/
def recordPred (succ : N) (nodeIdx : Nat) : Method Panic (LtState N) Unit := do
  let self ← get
  match self.number.get? succ with
  | some succIdx => do
      let preds ← index self.pred succIdx
      modify fun self => { self with pred := self.pred.set succIdx (preds ++ [nodeIdx]) }
  | none => pure ()

def dfs (g : Cfg N) (nodeSet : Finset N) : Nat → N → Nat → Method Panic (LtState N) Unit
  | 0, _, _ => throw .outOfFuel
  | fuel + 1, node, parent => do
      let self ← get
      if self.number.containsKey node ∨ node ∉ nodeSet then pure ()
      else do
        let nodeIdx ← pushVertex node parent
        Method.forEach (fun succ =>
          if succ ∉ nodeSet then pure ()
          else do
            let self ← get
            (if self.number.containsKey succ then pure () else dfs g nodeSet fuel succ nodeIdx)
            recordPred succ nodeIdx) (g.successors node)

def link (parent child : Nat) : Method Panic (LtState N) Unit := do
  let self ← get
  let ancestor ← setIndex self.ancestor child parent
  modify fun self => { self with ancestor := ancestor }

/-- `if self.semi[self.label[a]] < self.semi[self.label[v]] { self.label[v] = self.label[a] }`. -/
def takeLabel (a v : Nat) : Method Panic (LtState N) Unit := do
  let self ← get
  let labelA ← index self.label a
  let semiA ← index self.semi labelA
  let labelV ← index self.label v
  let semiV ← index self.semi labelV
  if semiA < semiV then do
    let label ← setIndex self.label v labelA
    modify fun self => { self with label := label }
  else pure ()

def compress : Nat → Nat → Method Panic (LtState N) Unit
  | 0, _ => throw .outOfFuel
  | fuel + 1, v => do
      let self ← get
      let a ← index self.ancestor v
      if a = 0 then pure ()
      else do
        let aa ← index self.ancestor a
        if aa = 0 then pure ()
        else do
          compress fuel a
          takeLabel a v
          let self ← get
          let aa ← index self.ancestor a
          let ancestor ← setIndex self.ancestor v aa
          modify fun self => { self with ancestor := ancestor }

def eval (fuel v : Nat) : Method Panic (LtState N) Nat := do
  let self ← get
  let a ← index self.ancestor v
  if a = 0 then do
    let label ← index self.label v
    return label
  else do
    compress fuel v
    let self ← get
    let a ← index self.ancestor v
    (if a = 0 then pure () else takeLabel a v)
    let self ← get
    let label ← index self.label v
    return label

end LtState

/-! ## The algorithm -/

open LtState

/-- One predecessor `v` of `w`: lower `semi[w]`. -/
def lowerSemi (fuel w v : Nat) : Method Panic (LtState N) Unit := do
  let u ← eval fuel v
  let state ← get
  let semiU ← index state.semi u
  let semiW ← index state.semi w
  if semiU < semiW then do
    let semi ← setIndex state.semi w semiU
    modify fun state => { state with semi := semi }
  else pure ()

/-- One vertex `v` of the bucket of `p`: decide `idom[v]`, perhaps only up to the second pass. -/
def emptyBucket (fuel p v : Nat) : Method Panic (LtState N) Unit := do
  let u ← eval fuel v
  let state ← get
  let semiU ← index state.semi u
  let semiV ← index state.semi v
  let idom ← setIndex state.idom v (if semiU < semiV then u else p)
  modify fun state => { state with idom := idom }

/-- The body of the main loop. -/
def processVertex (fuel w : Nat) : Method Panic (LtState N) Unit := do
  let state ← get
  let preds ← index state.pred w
  Method.forEach (lowerSemi fuel w) preds
  let state ← get
  let semiW ← index state.semi w
  let bucketSemi ← index state.bucket semiW
  let bucket ← setIndex state.bucket semiW (bucketSemi ++ [w])
  modify fun state => { state with bucket := bucket }
  let state ← get
  let p ← index state.parent w
  link p w
  let state ← get
  let bucketParent ← index state.bucket p
  let bucket ← setIndex state.bucket p []
  modify fun state => { state with bucket := bucket }
  Method.forEach (emptyBucket fuel p) bucketParent

/-- The body of the second pass. -/
def settleIdom (w : Nat) : Method Panic (LtState N) Unit := do
  let state ← get
  let idomW ← index state.idom w
  let semiW ← index state.semi w
  if idomW = semiW then pure ()
  else do
    let idom ← index state.idom idomW
    let idoms ← setIndex state.idom w idom
    modify fun state => { state with idom := idoms }

/-- Numbering, main loop and second pass. -/
def tarjanPasses (fuel : Nat) (g : Cfg N) (nodeSet : Finset N) (root : N) :
    Method Panic (LtState N) Unit := do
  dfs g nodeSet fuel root 0
  let state ← get
  Method.forDown 2 (processVertex fuel) (state.lastIndex - 1)
  Method.forUp 2 (state.lastIndex - 1) settleIdom

structure TarjanResult (N : Type) where
  idom : HashMap N N
  preds : HashMap N (List N)

/-- The node a number stands for. -/
def vertexAt (state : LtState N) (text : String) (i : Nat) : Except Panic N := do
  let node ← index state.vertex i
  expect text node

/-- `state.pred[w].iter().map(..).collect()`. -/
def predNodes (state : LtState N) : List Nat → Except Panic (List N)
  | [] => .ok []
  | i :: is => do
      let node ← vertexAt state "pred index must map to a node" i
      let nodes ← predNodes state is
      return node :: nodes

/-- The loop that converts numbers back to nodes. -/
def recordVertices (state : LtState N) :
    List Nat → TarjanResult N → Except Panic (TarjanResult N)
  | [], result => .ok result
  | w :: ws, result => do
      let node ← vertexAt state "DFS index must map to a node" w
      let idomIdx ← index state.idom w
      let idomNode ← vertexAt state "idom index must map to a node" idomIdx
      let pred ← index state.pred w
      let nodes ← predNodes state pred
      recordVertices state ws
        { idom := result.idom.insert node idomNode, preds := result.preds.insert node nodes }

def runLengauerTarjan (fuel : Nat) (g : Cfg N) (nodeSet : Finset N) (root : N) :
    Except Panic (TarjanResult N) :=
  match (tarjanPasses fuel g nodeSet root).run LtState.new with
  | (.error e, _) => .error e
  | (.ok _, state) =>
      if state.lastIndex = 0 then .ok { idom := .empty, preds := .empty }
      else do
        let rootNode ← vertexAt state "root must have DFS index 1" 1
        recordVertices state (List.range' 2 (state.lastIndex - 1))
          { idom := .empty, preds := HashMap.empty.insert rootNode [] }

/-- The tree; the sets and maps the source caches are functions of these fields. -/
structure DominatorTree (N : Type) where
  root : N
  idom : HashMap N N
  preds : HashMap N (List N)

def DominatorTree.immediateDominator (self : DominatorTree N) (node : N) : Option N :=
  self.idom.get? node

def computeDominators (fuel : Nat) (g : Cfg N) (root : N) : Except Panic (DominatorTree N) := do
  let nodes ← reachableFromRoot fuel g root
  let result ← runLengauerTarjan fuel g nodes.toFinset root
  return { root := root, idom := result.idom, preds := result.preds }

end Dominator
end Jstd
