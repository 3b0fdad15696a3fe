import Jstd.OwningGraph.MergeFlow

/-!
# The order of the search and dominance

A pass over the nodes in the order of `dfs`, or of `reachable_from_root`, meets every node after all
nodes that dominate it: each visit is along an edge from an earlier one, so the nodes visited up to
some point hold a walk to each of them.
-/

namespace Jstd
namespace OwningGraph

open Foundation Dominator

variable {NodeId EdgeId NodeData EdgeData : Type} [DecidableEq NodeId] [DecidableEq EdgeId]
  [Identifier NodeId] [Identifier EdgeId] {g : OwningGraph NodeId EdgeId NodeData EdgeData}

/-- The edges the directed search goes along are those of the flow graph. -/
theorem Consistent.arc_eq_cfg_edge (hg : g.Consistent) (order : NodeId → HashOrder EdgeId) :
    (fun u w => ∃ e, g.Arc .directed u e w) = (g.cfg order).Edge :=
  funext fun u => funext fun _ => propext (hg.mem_childIds (order u)).symm

/-- `d` stands in the list before `n`. -/
def Before (nodes : List NodeId) (d n : NodeId) : Prop :=
  ∃ i j : Nat, i < j ∧ nodes[i]? = some d ∧ nodes[j]? = some n

/-- Under any hash orders, `dfs` and `reachable_from_root` list the reachable nodes in one order, in
which every node comes after the other nodes that dominate it. -/
theorem dfs_dominators_first (hg : g.Consistent) {root : NodeId} (hroot : g.IsNode root)
    (order orders : NodeId → HashOrder EdgeId) :
    ∃ enough, ∀ fuel, enough ≤ fuel → ∃ visits tree,
      dfs order g fuel root = .ok visits ∧
      reachableFromRoot fuel (g.cfg order) root = .ok (visits.map Prod.snd) ∧
      computeDominators fuel (g.cfg orders) root = .ok tree ∧ (visits.map Prod.snd).Nodup ∧
      (∀ n, n ∈ visits.map Prod.snd ↔ (g.cfg orders).Reachable root n) ∧
      (∀ hashOrder d n, ∃ answer, tree.dominates fuel hashOrder d n = .ok answer ∧
        (answer = true ↔
          (g.cfg orders).Reachable root n ∧ Dominates (g.cfg orders).Edge root d n) ∧
        (answer = true → d = n ∨ Before (visits.map Prod.snd) d n)) ∧
      ∀ n, (g.cfg orders).Reachable root n → n ≠ root →
        ∃ d, tree.immediateDominator n = some d ∧ Before (visits.map Prod.snd) d n := by
  obtain ⟨visits, hdone, hrun⟩ := hg.traverse_spec .directed order hroot
  have hfinite := hg.finite_reachable orders root
  obtain ⟨enough, h⟩ := computeDominators_spec (g.cfg orders) root hfinite
  have hvisited : ∀ (order : NodeId → HashOrder EdgeId) (n : NodeId),
      n ∈ visits.map Prod.snd ↔ (g.cfg order).Reachable root n := by
    intro order n
    rw [hdone.mem_iff, hg.arc_eq_cfg_edge order, Cfg.Reachable]
  -- The visits are the nodes that `reachable_from_root` looks for.
  have hreach : ∀ n, n ∈ (visits.map Prod.snd).toFinset ↔ (g.cfg order).Reachable root n :=
    fun n => List.mem_toFinset.trans (hvisited order n)
  refine ⟨enough + g.nodeData.keys.card + {n | (g.cfg orders).Reachable root n}.ncard +
    pendingEdges (g.cfg order) (visits.map Prod.snd).toFinset ∅ + 2, ?_⟩
  intro fuel hfuel
  obtain ⟨tree, htree, hcomputed⟩ := h fuel (by omega)
  obtain ⟨nodes, hnodes, -, -⟩ :=
    reachableFromRoot_spec (g.cfg order) root hreach fuel (by omega)
  have hsame : nodes = visits.map Prod.snd :=
    visitStack_eq [(none, root)] hnodes (hrun fuel (by omega))
  rw [hsame] at hnodes
  have hfirst : ∀ d n, (g.cfg orders).Reachable root n →
      Dominates (g.cfg orders).Edge root d n → d = n ∨ Before (visits.map Prod.snd) d n := by
    intro d n hn hdom
    rw [← hg.arc_eq_cfg_edge orders] at hdom
    obtain ⟨j, hj⟩ := List.mem_iff_getElem?.1 ((hvisited orders n).2 hn)
    obtain ⟨i, hij, hi⟩ := hdone.dominator_first hj hdom
    rcases Nat.eq_or_lt_of_le hij with rfl | hlt
    · exact .inl (Option.some.inj (hi.symm.trans hj))
    · exact .inr ⟨i, j, hlt, hi, hj⟩
  refine ⟨visits, tree, hrun fuel (by omega), hnodes, htree, hdone.once, hvisited orders, ?_, ?_⟩
  · intro hashOrder d n
    obtain ⟨answer, hrun, hiff⟩ :=
      hcomputed.dominates_eq hfinite (by omega : _ < fuel) hashOrder d n
    refine ⟨answer, hrun, hiff, fun hanswer => ?_⟩
    obtain ⟨hn, hdom⟩ := hiff.1 hanswer
    exact hfirst d n hn hdom
  · intro n hn hne
    obtain ⟨d, hd⟩ := hcomputed.exists_idom n hn hne
    have hidom := ((hcomputed.idom_iff n d).1 hd).2.2
    exact ⟨d, hd, (hfirst d n hn hidom.dominates).resolve_left hidom.ne⟩

theorem dfs_dominators_first_diamondGraph :
    ∃ enough, ∀ fuel, enough ≤ fuel → ∃ visits tree,
      dfs (fun _ => byRaw .usize) diamondGraph fuel (.ofNat .u32 0) = .ok visits ∧
      reachableFromRoot fuel (diamondGraph.cfg fun _ => byRaw .usize) (.ofNat .u32 0) =
        .ok (visits.map Prod.snd) ∧
      computeDominators fuel (diamondGraph.cfg fun _ => byRaw .usize) (.ofNat .u32 0) =
        .ok tree ∧ (visits.map Prod.snd).Nodup ∧
      (∀ n, n ∈ visits.map Prod.snd ↔
        (diamondGraph.cfg fun _ => byRaw .usize).Reachable (.ofNat .u32 0) n) ∧
      (∀ hashOrder d n, ∃ answer, tree.dominates fuel hashOrder d n = .ok answer ∧
        (answer = true ↔ (diamondGraph.cfg fun _ => byRaw .usize).Reachable (.ofNat .u32 0) n ∧
          Dominates (diamondGraph.cfg fun _ => byRaw .usize).Edge (.ofNat .u32 0) d n) ∧
        (answer = true → d = n ∨ Before (visits.map Prod.snd) d n)) ∧
      ∀ n, (diamondGraph.cfg fun _ => byRaw .usize).Reachable (.ofNat .u32 0) n →
        n ≠ .ofNat .u32 0 →
        ∃ d, tree.immediateDominator n = some d ∧ Before (visits.map Prod.snd) d n :=
  dfs_dominators_first diamondGraph_consistent (by unfold IsNode; decide) _ _

end OwningGraph
end Jstd
