import Jstd.Foundation.Method
import Jstd.Foundation.Simulation
import Jstd.Panic
import Jstd.Identifier
import Jstd.StableArena.Basic
import Jstd.StableArena.Invariant
import Jstd.Foundation.OptionList
import Jstd.StableArena.Refinement
import Jstd.StableArena.Identity
import Jstd.StableArena.Wire
import Jstd.StableArena.Rollback
import Jstd.RecyclingArena.Basic
import Jstd.RecyclingArena.Refinement
import Jstd.RecyclingArena.Reuse
import Jstd.Registry.Basic
import Jstd.Registry.Layout
import Jstd.Registry.Operations
import Jstd.Registry.Selection
import Jstd.Registry.Runs
import Jstd.Registry.Buffers
import Jstd.Foundation.HashMap
import Jstd.OwningGraph.Basic
import Jstd.OwningGraph.Consistency
import Jstd.OwningGraph.Runs
import Jstd.OwningGraph.Merge
import Jstd.OwningGraph.Issue
import Jstd.OwningGraph.Enumeration
import Jstd.Intern.Basic
import Jstd.Intern.Correctness
import Jstd.Foundation.Text
import Jstd.Parse.Basic
import Jstd.Parse.Grammar
import Jstd.Parse.Meaning
import Jstd.Parse.Correctness
import Jstd.Parse.Rendering
import Jstd.Foundation.Path
import Jstd.Foundation.DepthFirst
import Jstd.Foundation.Dominance
import Jstd.Foundation.Contraction
import Jstd.Foundation.Semidominator
import Jstd.Foundation.Chaotic
import Jstd.Dominator.Basic
import Jstd.Dominator.Search
import Jstd.Dominator.Numbering
import Jstd.Dominator.IndexGraph
import Jstd.Dominator.Forest
import Jstd.Dominator.Passes
import Jstd.Dominator.Correctness
import Jstd.Dominator.Sets
import Jstd.Dominator.Frontier
import Jstd.Dominator.Tree
import Jstd.Foundation.OnceCell
import Jstd.Dominator.Cache
import Jstd.OwningGraph.Traversal
import Jstd.OwningGraph.MergeFlow
import Jstd.Foundation.LabelledGraph
import Jstd.OwningGraph.Handles
import Jstd.OwningGraph.Refinement
import Jstd.Foundation.ExtraEdge
import Jstd.OwningGraph.EdgeFlow
import Jstd.Foundation.Embedding
import Jstd.Parse.Lookup
import Jstd.Parse.Append
import Jstd.PostDominator.Basic
import Jstd.PostDominator.Correctness
import Jstd.Foundation.Reversal
import Jstd.PostDominator.Duality
import Jstd.Foundation.Reroot
import Jstd.Dominator.Subtree
import Jstd.Dominator.Equations
import Jstd.Foundation.Without
import Jstd.OwningGraph.NodeFlow
import Jstd.OwningGraph.SearchOrder
import Jstd.Foundation.Worklist
import Jstd.Foundation.StackSearch
import Jstd.Foundation.Multigraph
import Jstd.Foundation.Cut
import Jstd.Foundation.DepthFirstTree
import Jstd.Foundation.BracketList
import Jstd.Foundation.BracketKey
import Jstd.Foundation.Region
import Jstd.Sese.CycleClasses
import Jstd.Sese.Basic
import Jstd.Sese.Reachable
import Jstd.Sese.DirectClasses
import Jstd.Sese.Validation
import Jstd.Sese.SelfCap
import Jstd.Sese.Visit
import Jstd.Sese.DepthFirst
import Jstd.Sese.SearchTree
import Jstd.Sese.BracketBounds
import Jstd.Sese.BracketRows
import Jstd.Sese.BracketInvariant
import Jstd.Sese.BracketTurn
import Jstd.Sese.BracketLabels
import Jstd.Sese.BracketNames
import Jstd.Sese.BracketRun
import Jstd.Foundation.SortByKey
import Jstd.Sese.Augmented
import Jstd.Sese.Numbers
import Jstd.Sese.Candidates
import Jstd.Sese.Borders
import Jstd.Sese.Selection
import Jstd.Foundation.Laminar
import Jstd.Sese.Tree
import Jstd.Sese.Decomposition
import Jstd.Sese.Correctness
import Jstd.Sese.Canonical
import Jstd.Sese.Retain
import Jstd.Sese.Orders
import Jstd.Sese.Locality
import Jstd.Sese.Sequences
import Jstd.Sese.Dominance
