import Mathlib.Data.Option.Basic

/-!
# LabelledGraph — directed multigraphs with labelled nodes and edges

What a graph is, before how it is stored: each node has a label, each edge has two ends and a label,
and both ends of an edge are nodes.  Several edges may share their ends, and an edge may be a loop.

Adding and erasing keep the ends in place; there is no way to build a graph with an edge that hangs.
-/

namespace Jstd
namespace Foundation

/-- An edge: where it leads, and its label. -/
structure Link (N B : Type) where
  source : N
  target : N
  label : B

/-- The node is one of the ends. -/
def Link.Touches {N B : Type} (link : Link N B) (n : N) : Prop :=
  n = link.source ∨ n = link.target

instance {N B : Type} [DecidableEq N] (link : Link N B) (n : N) : Decidable (link.Touches n) :=
  inferInstanceAs (Decidable (_ ∨ _))

/-- A graph over nodes `N` and edges `E`, with labels in `A` and `B`. -/
structure LabelledGraph (N E A B : Type) where
  node : N → Option A
  edge : E → Option (Link N B)
  ends : ∀ {e : E} {link : Link N B}, edge e = some link →
    ∀ n, link.Touches n → (node n).isSome

namespace LabelledGraph

variable {N E A B C D : Type}

/-- No nodes, no edges. -/
def empty : LabelledGraph N E A B where
  node _ := none
  edge _ := none
  ends := nofun

/-- The labels mapped, the graph the same. -/
def map (f : A → C) (h : B → D) (G : LabelledGraph N E A B) : LabelledGraph N E C D where
  node n := (G.node n).map f
  edge e := (G.edge e).map fun link => ⟨link.source, link.target, h link.label⟩
  ends := by
    intro e link hlink n hn
    obtain ⟨old, hold, rfl⟩ := Option.map_eq_some_iff.1 hlink
    rw [Option.isSome_map]
    exact G.ends hold n hn

variable [DecidableEq N] [DecidableEq E]

/-- Label a node, which may be new. -/
def putNode (G : LabelledGraph N E A B) (n : N) (a : A) : LabelledGraph N E A B where
  node m := if m = n then some a else G.node m
  edge := G.edge
  ends := by
    intro e link hlink m hm
    split
    · rfl
    · exact G.ends hlink m hm

/-- Put an edge between two nodes, in place of the one that was there, if any. -/
def putEdge (G : LabelledGraph N E A B) (e : E) (link : Link N B)
    (hlink : ∀ n, link.Touches n → (G.node n).isSome) : LabelledGraph N E A B where
  node := G.node
  edge e' := if e' = e then some link else G.edge e'
  ends := by
    intro e' link' h n hn
    split at h
    · cases h
      exact hlink n hn
    · exact G.ends h n hn

/-- Take an edge away. -/
def eraseEdge (G : LabelledGraph N E A B) (e : E) : LabelledGraph N E A B where
  node := G.node
  edge e' := if e' = e then none else G.edge e'
  ends := by
    intro e' link h n hn
    split at h
    · cases h
    · exact G.ends h n hn

/-- Take a node away, and with it the edges that touch it. -/
def eraseNode (G : LabelledGraph N E A B) (n : N) : LabelledGraph N E A B where
  node m := if m = n then none else G.node m
  edge e := (G.edge e).filter fun link => ¬ link.Touches n
  ends := by
    intro e link h m hm
    obtain ⟨hlink, hn⟩ := Option.filter_eq_some_iff.1 h
    rw [if_neg]
    · exact G.ends hlink m hm
    · rintro rfl
      exact (of_decide_eq_true hn) hm

end LabelledGraph
end Foundation
end Jstd
