import Jstd.Dominator.Basic

/-!
# Post-dominators — the iteration of the source

The model of `graph/analysis/post_dominator.rs`: the sets start full, except at the exits, and the
sweeps over `nodes` update them in place until nothing changes.  `fuel` bounds the sweeps.
-/

namespace Jstd
namespace PostDominator

open Foundation

variable {N : Type} [DecidableEq N]

/-- The map, and the flag of the sweep. -/
structure PdomState (N : Type) where
  pdom : HashMap N (Finset N)
  changed : Bool

/-- `acc.retain(|value| set.contains(value))` with every set but the first. -/
def retainAll (acc : Finset N) : List (Finset N) → Finset N
  | [] => acc
  | set :: sets => retainAll (acc.filter (· ∈ set)) sets

def intersectSets : List (Finset N) → Finset N
  | [] => ∅
  | first :: sets => retainAll first sets

/-- `successors.iter().map(|succ| &pdom[succ])`. -/
def lookupAll (pdom : HashMap N (Finset N)) : List N → Except Panic (List (Finset N))
  | [] => .ok []
  | succ :: succs => do
      let set ← indexMap pdom succ
      let sets ← lookupAll pdom succs
      return set :: sets

/-- `if successors.is_empty() { HashSet::default() } else { intersect_sets(..) }`. -/
def meetSuccessors (pdom : HashMap N (Finset N)) (successors : List N) :
    Except Panic (Finset N) :=
  if successors = [] then .ok ∅
  else do
    let sets ← lookupAll pdom successors
    return intersectSets sets

/-- `graph.successors(node).filter(|child| node_set.contains(child)).collect()`. -/
def successorsIn (g : Cfg N) (nodeSet : Finset N) (node : N) : List N :=
  (g.successors node).filter (· ∈ nodeSet)

/-- The first loop. -/
def initialSets (all exitSet : Finset N) : List N → HashMap N (Finset N) → HashMap N (Finset N)
  | [], pdom => pdom
  | node :: nodes, pdom =>
      initialSets all exitSet nodes
        (pdom.insert node (if node ∈ exitSet then {node} else all))

/-- The body of the sweep. -/
def updateNode (g : Cfg N) (nodeSet exitSet : Finset N) (node : N) :
    Method Panic (PdomState N) Unit :=
  if node ∈ exitSet then pure ()
  else do
    let self ← get
    let meet ← meetSuccessors self.pdom (successorsIn g nodeSet node)
    let old ← indexMap self.pdom node
    if insert node meet ≠ old then
      modify fun self => { pdom := self.pdom.insert node (insert node meet), changed := true }
    else pure ()

/-- `while changed { .. }`; the flag is up when the loop starts. -/
def sweeps (g : Cfg N) (nodes : List N) (nodeSet exitSet : Finset N) :
    Nat → Method Panic (PdomState N) Unit
  | 0 => throw .outOfFuel
  | fuel + 1 => do
      modify fun self => { self with changed := false }
      Method.forEach (updateNode g nodeSet exitSet) nodes
      let self ← get
      if self.changed then sweeps g nodes nodeSet exitSet fuel else pure ()

def computePostdominators (fuel : Nat) (g : Cfg N) (nodes : List N)
    (nodeSet exitSet : Finset N) : Except Panic (HashMap N (Finset N)) :=
  match (sweeps g nodes nodeSet exitSet fuel).run
      { pdom := initialSets nodes.toFinset exitSet nodes .empty, changed := true } with
  | (.error e, _) => .error e
  | (.ok _, self) => .ok self.pdom

end PostDominator
end Jstd
