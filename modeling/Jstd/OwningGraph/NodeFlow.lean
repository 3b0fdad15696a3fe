import Jstd.Foundation.Without
import Jstd.OwningGraph.MergeFlow

/-!
# Removing a node and the dominator tree

What `remove_node` does to dominance.  The nodes that can no longer be reached are exactly those in
the removed node's set in the dominator tree before; for the rest dominance can only grow, and it
does so only where the removed node led to.
-/

namespace Jstd
namespace OwningGraph

open Foundation Dominator

/-! ## The trees with and without a node -/

section

variable {N : Type} [DecidableEq N] {g g' : Cfg N} {root x : N} {fuel : Nat}
  {tree beyond tree' : DominatorTree N}

/-- How `tree'`, without the node `x`, follows from `tree`, with it, and from `beyond`, the tree
with it that starts there. -/
structure NodeRemoved (fuel : Nat) (x : N) (tree beyond tree' : DominatorTree N) : Prop where
  misses : ∀ n, tree'.Misses fuel n ↔ tree.Passes fuel x n
  passes : ∀ d n, tree.Passes fuel d n → tree'.Passes fuel d n
  unchanged : ∀ n, beyond.Misses fuel n →
    (∀ d, tree'.Passes fuel d n ↔ tree.Passes fuel d n) ∧
      tree'.immediateDominator n = tree.immediateDominator n

theorem nodeRemoved_of_without (h : tree.Computed g root) (hbeyond : beyond.Computed g x)
    (h' : tree'.Computed g' root) (hedge : g'.Edge = Without g.Edge x) (hroot : root ≠ x)
    (hfinite : {n | g.Reachable root n}.Finite) (hfinite₁ : {n | g.Reachable x n}.Finite)
    (hfinite' : {n | g'.Reachable root n}.Finite)
    (hfuel : {n | g.Reachable root n}.ncard < fuel)
    (hfuel₁ : {n | g.Reachable x n}.ncard < fuel)
    (hfuel' : {n | g'.Reachable root n}.ncard < fuel) :
    NodeRemoved fuel x tree beyond tree' := by
  have hpasses : ∀ d n, tree.Passes fuel d n ↔ Dominates g.Edge root d n :=
    fun d n => h.passes_iff hfinite hfuel
  have hpasses' : ∀ d n, tree'.Passes fuel d n ↔ Dominates (Without g.Edge x) root d n := by
    intro d n
    rw [← hedge]
    exact h'.passes_iff hfinite' hfuel'
  have hreach : ∀ n, g'.Reachable root n ↔ ¬ Dominates g.Edge root x n := by
    intro n
    rw [Cfg.Reachable, hedge]
    exact Without.reaches_iff hroot
  refine ⟨fun n => ?_, fun d n hdn => ?_, fun n hn => ⟨fun d => ?_, ?_⟩⟩
  · rw [h'.misses_iff hfinite' hfuel', hreach, not_not, hpasses]
  · exact (hpasses' d n).2 (Without.dominates_of ((hpasses d n).1 hdn))
  · have hx : ¬ Reaches g.Edge x n := (hbeyond.misses_iff hfinite₁ hfuel₁).1 hn
    rw [hpasses, hpasses', Without.dominates_iff_of_unreached hx]
  · have hx : ¬ Reaches g.Edge x n := (hbeyond.misses_iff hfinite₁ hfuel₁).1 hn
    have hsame : g'.Reachable root n ↔ g.Reachable root n := by
      rw [Cfg.Reachable, hedge]
      refine ⟨Without.reaches_of, fun hreached => (Without.reaches_iff hroot).2 fun hdom => ?_⟩
      exact hx (hdom.reaches_from hreached)
    refine Option.ext fun d => ?_
    calc tree'.idom.get? n = some d
        ↔ g'.Reachable root n ∧ n ≠ root ∧ IsIdom g'.Edge root d n := h'.idom_iff n d
      _ ↔ g.Reachable root n ∧ n ≠ root ∧ IsIdom (Without g.Edge x) root d n := by
          rw [hsame, hedge]
      _ ↔ g.Reachable root n ∧ n ≠ root ∧ IsIdom g.Edge root d n :=
          and_congr_right fun hreached => and_congr_right fun _ =>
            Without.isIdom_iff_of_unreached hx hreached
      _ ↔ tree.idom.get? n = some d := (h.idom_iff n d).symm

end

/-! ## The method -/

variable {NodeId EdgeId NodeData EdgeData : Type} [DecidableEq NodeId] [DecidableEq EdgeId]
  [Identifier NodeId] [Identifier EdgeId] {g g' : OwningGraph NodeId EdgeId NodeData EdgeData}
  {x : NodeId}

/-- The edges that are left are those with neither end at the node. -/
theorem Consistent.removeNode_edges (hg : g.Consistent) (hg' : g'.Consistent)
    (hleft : ∀ e, g'.edges.get? e = if e ∈ incident g.nodes x then none else g.edges.get? e)
    (orders orders' : NodeId → HashOrder EdgeId) :
    (g'.cfg orders').Edge = Without (g.cfg orders).Edge x := by
  funext a b
  refine propext ?_
  rw [hg'.cfg_edge_iff, Without, hg.cfg_edge_iff]
  constructor
  · rintro ⟨e, he⟩
    rw [hleft] at he
    split at he
    · cases he
    · rename_i hnot
      refine ⟨⟨e, he⟩, ?_, ?_⟩
      · rintro rfl
        exact hnot ((hg.incident_iff a e).2 ⟨_, he, .inl rfl⟩)
      · rintro rfl
        exact hnot ((hg.incident_iff b e).2 ⟨_, he, .inr rfl⟩)
  · rintro ⟨⟨e, he⟩, ha, hb⟩
    refine ⟨e, ?_⟩
    rw [hleft, if_neg]
    · exact he
    · intro hmem
      obtain ⟨edge, hedge, hend⟩ := (hg.incident_iff x e).1 hmem
      rw [he] at hedge
      cases hedge
      rcases hend with rfl | rfl
      · exact ha rfl
      · exact hb rfl

/-- `remove_node`: what the tree before tells about the tree afterwards, where both tell the walks of
their graph. -/
theorem removeNode_dominators (hg : g.Consistent) (hx : g.IsNode x) (order : HashOrder EdgeId)
    (orders orders' : NodeId → HashOrder EdgeId) {root : NodeId} (hroot : root ≠ x) :
    ∃ g', (OwningGraph.removeNode order x).run g = (.ok (), g') ∧
      ∃ enough, ∀ fuel, enough ≤ fuel → ∃ tree beyond tree',
        computeDominators fuel (g.cfg orders) root = .ok tree ∧
        computeDominators fuel (g.cfg orders) x = .ok beyond ∧
        computeDominators fuel (g'.cfg orders') root = .ok tree' ∧
        tree.Tells fuel (g.cfg orders) root ∧ tree'.Tells fuel (g'.cfg orders') root ∧
        NodeRemoved fuel x tree beyond tree' := by
  obtain ⟨g', hrun, hcons, hleft, -⟩ := hg.removeNode order hx
  refine ⟨g', hrun, ?_⟩
  have hedge := hg.removeNode_edges hcons hleft orders orders'
  have hfinite := hg.finite_reachable orders root
  have hfinite₁ := hg.finite_reachable orders x
  have hfinite' := hcons.finite_reachable orders' root
  obtain ⟨enough, h⟩ := computeDominators_spec (g.cfg orders) root hfinite
  obtain ⟨enough₁, h₁⟩ := computeDominators_spec (g.cfg orders) x hfinite₁
  obtain ⟨enough', h'⟩ := computeDominators_spec (g'.cfg orders') root hfinite'
  refine ⟨enough + enough₁ + enough' + {n | (g.cfg orders).Reachable root n}.ncard +
    {n | (g.cfg orders).Reachable x n}.ncard + {n | (g'.cfg orders').Reachable root n}.ncard + 1,
    ?_⟩
  intro fuel hfuel
  obtain ⟨tree, hrun, htree⟩ := h fuel (by omega)
  obtain ⟨beyond, hrun₁, hbeyond⟩ := h₁ fuel (by omega)
  obtain ⟨tree', hrun', htree'⟩ := h' fuel (by omega)
  refine ⟨tree, beyond, tree', hrun, hrun₁, hrun', htree.tells hfinite (by omega),
    htree'.tells hfinite' (by omega), ?_⟩
  exact nodeRemoved_of_without htree hbeyond htree' hedge hroot hfinite hfinite₁ hfinite'
    (by omega) (by omega) (by omega)

/-- Without node 1 the diamond still leads to node 3, through node 2 alone. -/
theorem removeNode_dominators_diamondGraph :
    ∃ g', (OwningGraph.removeNode (byRaw .usize) (.ofNat .u32 1)).run diamondGraph =
        (.ok (), g') ∧
      ∃ enough, ∀ fuel, enough ≤ fuel → ∃ tree beyond tree',
        computeDominators fuel (diamondGraph.cfg fun _ => byRaw .usize) (.ofNat .u32 0) =
          .ok tree ∧
        computeDominators fuel (diamondGraph.cfg fun _ => byRaw .usize) (.ofNat .u32 1) =
          .ok beyond ∧
        computeDominators fuel (g'.cfg fun _ => byRaw .usize) (.ofNat .u32 0) = .ok tree' ∧
        tree.Tells fuel (diamondGraph.cfg fun _ => byRaw .usize) (.ofNat .u32 0) ∧
        tree'.Tells fuel (g'.cfg fun _ => byRaw .usize) (.ofNat .u32 0) ∧
        NodeRemoved fuel (.ofNat .u32 1) tree beyond tree' :=
  removeNode_dominators diamondGraph_consistent (by unfold IsNode; decide) _ _ _ (by decide)

end OwningGraph
end Jstd
