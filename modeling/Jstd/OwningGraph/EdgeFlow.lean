import Jstd.Foundation.ExtraEdge
import Jstd.OwningGraph.MergeFlow

/-!
# One edge and the dominator tree

What `make_edge` and `remove_edge` do to dominance, told by the trees alone: the tree with the edge
follows from the tree without it and from the tree that starts at the target of the edge.

An edge back to a dominator of its source, as the one that closes a natural loop, can come and go
without the tree being computed again.
-/

namespace Jstd
namespace OwningGraph

open Foundation Dominator

/-! ## The trees with and without an edge -/

section

variable {N : Type} [DecidableEq N] {g g' : Cfg N} {root u v : N} {fuel : Nat}
  {tree beyond tree' : DominatorTree N}

/-- How `tree'`, with an edge from `u` to `v`, follows from `tree`, without it, and from `beyond`,
the tree without it that starts at `v`. -/
structure EdgeAdded (fuel : Nat) (u v : N) (tree beyond tree' : DominatorTree N) : Prop where
  misses : ∀ n, tree'.Misses fuel n ↔
    tree.Misses fuel n ∧ (tree.Misses fuel u ∨ beyond.Misses fuel n)
  passes : ∀ d n, tree'.Passes fuel d n ↔
    tree.Passes fuel d n ∧ (tree.Passes fuel d u ∨ beyond.Passes fuel d n)
  unchanged : tree.Passes fuel v u ∨ tree'.Passes fuel v u →
    tree.idom = tree'.idom ∧ ∀ (order order' : HashOrder N) (n : N),
      tree.dominatorSet fuel order n = tree'.dominatorSet fuel order' n

theorem edgeAdded_of_extra (h : tree.Computed g root) (hbeyond : beyond.Computed g v)
    (h' : tree'.Computed g' root) (hedge : g'.Edge = Extra g.Edge u v)
    (hfinite : {n | g.Reachable root n}.Finite) (hfinite₁ : {n | g.Reachable v n}.Finite)
    (hfinite' : {n | g'.Reachable root n}.Finite)
    (hfuel : {n | g.Reachable root n}.ncard < fuel)
    (hfuel₁ : {n | g.Reachable v n}.ncard < fuel)
    (hfuel' : {n | g'.Reachable root n}.ncard < fuel) :
    EdgeAdded fuel u v tree beyond tree' := by
  have hpasses : ∀ d n, tree'.Passes fuel d n ↔
      tree.Passes fuel d n ∧ (tree.Passes fuel d u ∨ beyond.Passes fuel d n) := by
    intro d n
    calc tree'.Passes fuel d n
        ↔ Dominates g'.Edge root d n := h'.passes_iff hfinite' hfuel'
      _ ↔ Dominates g.Edge root d n ∧ (Dominates g.Edge root d u ∨ Dominates g.Edge v d n) := by
          rw [hedge]
          exact Extra.dominates_iff
      _ ↔ _ := by
          rw [h.passes_iff hfinite hfuel, h.passes_iff hfinite hfuel,
            hbeyond.passes_iff hfinite₁ hfuel₁]
  refine ⟨fun n => ?_, hpasses, fun hback => ?_⟩
  · rw [h'.misses_iff hfinite' hfuel', h.misses_iff hfinite hfuel, h.misses_iff hfinite hfuel,
      hbeyond.misses_iff hfinite₁ hfuel₁]
    -- What the new edge leads to is reached through `u`.
    have hreach : g'.Reachable root n ↔
        g.Reachable root n ∨ g.Reachable root u ∧ g.Reachable v n := by
      rw [Cfg.Reachable, hedge]
      exact Extra.reaches_iff
    tauto
  · -- With the edge there is no more dominance, so the edge may be looked at in either tree.
    have hdom : Dominates g.Edge root v u :=
      (h.passes_iff hfinite hfuel).1 (hback.elim id fun hback => ((hpasses v u).1 hback).1)
    have hsame := hedge ▸ Extra.sameDominance hdom
    exact ⟨h.idom_eq h' hsame,
      h.dominatorSet_agree h' hsame hfinite hfinite' hfuel hfuel'⟩

end

/-! ## The two methods -/

variable {NodeId EdgeId NodeData EdgeData : Type} [DecidableEq NodeId] [DecidableEq EdgeId]
  [Identifier NodeId] [Identifier EdgeId] {g g' : OwningGraph NodeId EdgeId NodeData EdgeData}
  {u v : NodeId}

/-- Two consistent graphs that differ in an edge from `u` to `v`: the trees, and what the walks are
that their sets tell. -/
theorem exists_edgeAdded (hg : g.Consistent) (hg' : g'.Consistent)
    (hedges : ∀ a b, (∃ e, g'.edges.get? e = some { fromId := a, toId := b }) ↔
      (∃ e, g.edges.get? e = some { fromId := a, toId := b }) ∨ a = u ∧ b = v)
    (orders orders' : NodeId → HashOrder EdgeId) (root : NodeId) :
    ∃ enough, ∀ fuel, enough ≤ fuel → ∃ tree beyond tree',
      computeDominators fuel (g.cfg orders) root = .ok tree ∧
      computeDominators fuel (g.cfg orders) v = .ok beyond ∧
      computeDominators fuel (g'.cfg orders') root = .ok tree' ∧
      tree.Tells fuel (g.cfg orders) root ∧ tree'.Tells fuel (g'.cfg orders') root ∧
      EdgeAdded fuel u v tree beyond tree' := by
  have hedge : (g'.cfg orders').Edge = Extra (g.cfg orders).Edge u v := by
    funext a b
    refine propext ?_
    rw [hg'.cfg_edge_iff, Extra, hg.cfg_edge_iff]
    exact hedges a b
  have hfinite := hg.finite_reachable orders root
  have hfinite₁ := hg.finite_reachable orders v
  have hfinite' := hg'.finite_reachable orders' root
  obtain ⟨enough, h⟩ := computeDominators_spec (g.cfg orders) root hfinite
  obtain ⟨enough₁, h₁⟩ := computeDominators_spec (g.cfg orders) v hfinite₁
  obtain ⟨enough', h'⟩ := computeDominators_spec (g'.cfg orders') root hfinite'
  refine ⟨enough + enough₁ + enough' + {n | (g.cfg orders).Reachable root n}.ncard +
    {n | (g.cfg orders).Reachable v n}.ncard + {n | (g'.cfg orders').Reachable root n}.ncard + 1,
    ?_⟩
  intro fuel hfuel
  obtain ⟨tree, hrun, htree⟩ := h fuel (by omega)
  obtain ⟨beyond, hrun₁, hbeyond⟩ := h₁ fuel (by omega)
  obtain ⟨tree', hrun', htree'⟩ := h' fuel (by omega)
  refine ⟨tree, beyond, tree', hrun, hrun₁, hrun', htree.tells hfinite (by omega),
    htree'.tells hfinite' (by omega), ?_⟩
  exact edgeAdded_of_extra htree hbeyond htree' hedge hfinite hfinite₁ hfinite' (by omega)
    (by omega) (by omega)

/-- `make_edge`: the tree afterwards, from two trees before. -/
theorem makeEdge_dominators (hg : g.Consistent) (hu : g.IsNode u) (hv : g.IsNode v)
    (hfresh : ¬ g.IsEdge (fromUsize g.nextEdgeId)) (data : EdgeData)
    (orders orders' : NodeId → HashOrder EdgeId) (root : NodeId) :
    ∃ g', (OwningGraph.makeEdge u v data).run g = (.ok (fromUsize g.nextEdgeId), g') ∧
      ∃ enough, ∀ fuel, enough ≤ fuel → ∃ tree beyond tree',
        computeDominators fuel (g.cfg orders) root = .ok tree ∧
        computeDominators fuel (g.cfg orders) v = .ok beyond ∧
        computeDominators fuel (g'.cfg orders') root = .ok tree' ∧
        tree.Tells fuel (g.cfg orders) root ∧ tree'.Tells fuel (g'.cfg orders') root ∧
        EdgeAdded fuel u v tree beyond tree' := by
  obtain ⟨g', hrun, -, -, hcons⟩ := hg.makeEdge hu hv data
  obtain ⟨nodes, hrun', -⟩ := makeEdge_spec (hg.mem_nodes hu) (hg.mem_nodes hv) data
  have heq := (Prod.mk.inj (hrun.symm.trans hrun')).2
  refine ⟨g', hrun, exists_edgeAdded hg (hcons hfresh) ?_ orders orders' root⟩
  -- The new entry is the only change to the map of ends.
  have hget : ∀ e, g'.edges.get? e =
      if e = fromUsize g.nextEdgeId then some { fromId := u, toId := v } else g.edges.get? e := by
    intro e
    rw [heq]
    exact HashMap.get?_insert _ _ _ _
  intro a b
  constructor
  · rintro ⟨e, he⟩
    rw [hget] at he
    split at he
    · cases he
      exact .inr ⟨rfl, rfl⟩
    · exact .inl ⟨e, he⟩
  · rintro (⟨e, he⟩ | ⟨rfl, rfl⟩)
    · refine ⟨e, ?_⟩
      -- An edge that was live keeps its ends, as its id is not the new one.
      rw [hget, if_neg]
      · exact he
      · rintro rfl
        have hkey := HashMap.mem_keys_of_get? he
        rw [hg.edge_keys] at hkey
        exact hfresh hkey
    · exact ⟨_, by rw [hget, if_pos rfl]⟩

/-- The diamond from node 1, which leads to node 3 only, and a way from there back to the top. -/
theorem makeEdge_dominators_diamondGraph :
    ∃ g', (OwningGraph.makeEdge (.ofNat .u32 3) (.ofNat .u32 0) ()).run diamondGraph =
        (.ok (fromUsize diamondGraph.nextEdgeId), g') ∧
      ∃ enough, ∀ fuel, enough ≤ fuel → ∃ tree beyond tree',
        computeDominators fuel (diamondGraph.cfg fun _ => byRaw .usize) (.ofNat .u32 1) =
          .ok tree ∧
        computeDominators fuel (diamondGraph.cfg fun _ => byRaw .usize) (.ofNat .u32 0) =
          .ok beyond ∧
        computeDominators fuel (g'.cfg fun _ => byRaw .usize) (.ofNat .u32 1) = .ok tree' ∧
        tree.Tells fuel (diamondGraph.cfg fun _ => byRaw .usize) (.ofNat .u32 1) ∧
        tree'.Tells fuel (g'.cfg fun _ => byRaw .usize) (.ofNat .u32 1) ∧
        EdgeAdded fuel (.ofNat .u32 3) (.ofNat .u32 0) tree beyond tree' :=
  makeEdge_dominators diamondGraph_consistent (by unfold IsNode; decide)
    (by unfold IsNode; decide) (by unfold IsEdge; decide) () _ _ _

/-- `remove_edge`: the tree before, from two trees afterwards. -/
theorem removeEdge_dominators (hg : g.Consistent) {e : EdgeId}
    (he : g.edges.get? e = some { fromId := u, toId := v })
    (orders orders' : NodeId → HashOrder EdgeId) (root : NodeId) :
    ∃ g', (OwningGraph.removeEdge e).run g = (.ok (), g') ∧
      ∃ enough, ∀ fuel, enough ≤ fuel → ∃ tree' beyond tree,
        computeDominators fuel (g'.cfg orders') root = .ok tree' ∧
        computeDominators fuel (g'.cfg orders') v = .ok beyond ∧
        computeDominators fuel (g.cfg orders) root = .ok tree ∧
        tree'.Tells fuel (g'.cfg orders') root ∧ tree.Tells fuel (g.cfg orders) root ∧
        EdgeAdded fuel u v tree' beyond tree := by
  obtain ⟨g', hrun, hcons, -, hedges, -⟩ := hg.removeEdge he
  refine ⟨g', hrun, exists_edgeAdded hcons hg ?_ orders' orders root⟩
  -- The removed entry is the only change to the map of ends.
  have hget : ∀ e', g'.edges.get? e' = if e' = e then none else g.edges.get? e' := by
    intro e'
    rw [hedges]
    exact HashMap.get?_remove _ _ _
  intro a b
  constructor
  · rintro ⟨e', he'⟩
    by_cases heq : e' = e
    · subst heq
      rw [he] at he'
      cases he'
      exact .inr ⟨rfl, rfl⟩
    · exact .inl ⟨e', by rw [hget, if_neg heq, he']⟩
  · rintro (⟨e', he'⟩ | ⟨rfl, rfl⟩)
    · rw [hget] at he'
      split at he'
      · cases he'
      · exact ⟨e', he'⟩
    · exact ⟨e, he⟩

/-- The diamond without the way to node 2: node 1 then dominates node 3. -/
theorem removeEdge_dominators_diamondGraph :
    ∃ g', (OwningGraph.removeEdge (.ofNat .usize 2)).run diamondGraph = (.ok (), g') ∧
      ∃ enough, ∀ fuel, enough ≤ fuel → ∃ tree' beyond tree,
        computeDominators fuel (g'.cfg fun _ => byRaw .usize) (.ofNat .u32 0) = .ok tree' ∧
        computeDominators fuel (g'.cfg fun _ => byRaw .usize) (.ofNat .u32 2) = .ok beyond ∧
        computeDominators fuel (diamondGraph.cfg fun _ => byRaw .usize) (.ofNat .u32 0) =
          .ok tree ∧
        tree'.Tells fuel (g'.cfg fun _ => byRaw .usize) (.ofNat .u32 0) ∧
        tree.Tells fuel (diamondGraph.cfg fun _ => byRaw .usize) (.ofNat .u32 0) ∧
        EdgeAdded fuel (.ofNat .u32 0) (.ofNat .u32 2) tree' beyond tree :=
  removeEdge_dominators diamondGraph_consistent (by decide) _ _ _

end OwningGraph
end Jstd
