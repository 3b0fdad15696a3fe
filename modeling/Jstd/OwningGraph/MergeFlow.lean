import Jstd.Dominator.Tree
import Jstd.Foundation.Contraction
import Jstd.OwningGraph.Traversal

/-!
# Merging along the only edge — what it does to control flow

A block that only one edge enters may be merged into the block the edge comes from.  As control flow
this contracts the edge (`Merged.edge_iff`), and the dominator tree afterwards is the one from
before with the merged node taken out: its children are handed to its parent, and nothing else
moves.
-/

namespace Jstd
namespace OwningGraph

open Foundation Dominator

variable {NodeId EdgeId NodeData EdgeData : Type} [DecidableEq NodeId] [DecidableEq EdgeId]
  {g g' : OwningGraph NodeId EdgeId NodeData EdgeData} {keep remove root : NodeId}
  {directEdge : EdgeId}

/-! ## Control flow of a graph -/

/-- A node that is not there has no successors. -/
theorem childIds_of_get?_none (order : HashOrder EdgeId) {n : NodeId}
    (hn : g.nodes.get? n = none) : childIds order g n = [] := by
  simp [childIds, children, edgeIds, indexMap, hn, Bind.bind, Except.bind]

theorem Lists.mem_childIds {order : HashOrder EdgeId} {n : NodeId} {P : EdgeId → NodeId → Prop}
    (h : Lists (children order g n) P) {v : NodeId} :
    v ∈ childIds order g n ↔ ∃ e, P e v := by
  obtain ⟨items, hrun, -, hmem⟩ := h
  simp only [childIds, hrun, List.mem_map]
  constructor
  · rintro ⟨⟨e, w⟩, hitem, rfl⟩
    exact ⟨e, (hmem e w).1 hitem⟩
  · rintro ⟨e, hP⟩
    exact ⟨⟨e, v⟩, (hmem e v).2 hP, rfl⟩

section

variable [Identifier NodeId] [Identifier EdgeId]

/-- The edges of the `Cfg` are those of the graph, whatever the order of the incident sets. -/
theorem Consistent.cfg_edge_iff (hg : g.Consistent) (order : NodeId → HashOrder EdgeId)
    {u v : NodeId} :
    (g.cfg order).Edge u v ↔ ∃ e, g.edges.get? e = some { fromId := u, toId := v } :=
  hg.mem_childIds (order u)

theorem Consistent.finite_reachable (hg : g.Consistent) (order : NodeId → HashOrder EdgeId)
    (root : NodeId) : {n | (g.cfg order).Reachable root n}.Finite := by
  refine (Finset.finite_toSet (insert root g.nodeData.keys)).subset ?_
  intro n hn
  -- A node that is not the root is the target of an edge.
  cases hn with
  | refl => exact Finset.mem_insert_self root _
  | tail _ hedge =>
      obtain ⟨e, he⟩ := (hg.cfg_edge_iff order).1 hedge
      exact Finset.mem_insert_of_mem (hg.endpoints he).2

end

/-! ## Contraction -/

/-- What the merge lists leaves a node that is there. -/
theorem Merged.isNode_of_rewired (h : Merged g keep remove directEdge g') (hg : g.Linked)
    (hkeep : keep ∈ g.nodes.keys) {e : EdgeId} {u v : NodeId}
    (he : Rewired g keep remove directEdge e u v) : g'.IsNode u := by
  obtain ⟨-, he⟩ := he
  obtain ⟨⟨a, b⟩, hedge, hmoved⟩ := Option.map_eq_some_iff.1 he
  have hlive : u ∈ g.nodes.keys := by
    unfold moved at hmoved
    split at hmoved
    · cases hmoved
      exact hkeep
    · cases hmoved
      exact (hg.endpoints hedge).1
  rw [IsNode, h.nodeData, ← hg.node_keys]
  exact hlive

theorem Merged.mem_childIds (h : Merged g keep remove directEdge g') (hg : g.Linked)
    (hne : keep ≠ remove) (hkeep : keep ∈ g.nodes.keys) (order : HashOrder EdgeId)
    {u v : NodeId} :
    v ∈ childIds order g' u ↔ ∃ e, Rewired g keep remove directEdge e u v := by
  by_cases hu : g'.IsNode u
  · exact (h.children_lists hg hne order hu).mem_childIds
  · constructor
    · intro hv
      have hnone : g'.nodes.get? u = none := by
        rw [Option.eq_none_iff_forall_not_mem]
        intro raw hraw
        have hlive := HashMap.mem_keys_of_get? hraw
        rw [h.node_keys, hg.node_keys, ← h.nodeData] at hlive
        exact hu hlive
      rw [childIds_of_get?_none order hnone] at hv
      cases hv
    · rintro ⟨e, he⟩
      exact absurd (h.isNode_of_rewired hg hkeep he) hu

section

variable [Identifier NodeId] [Identifier EdgeId]

/-- Merging along the only edge that enters a node contracts that edge. -/
theorem Merged.edge_iff (h : Merged g keep remove directEdge g') (hg : g.Consistent)
    (hdirect : g.edges.get? directEdge = some { fromId := keep, toId := remove })
    (hne : keep ≠ remove)
    (honly : ∀ e u, g.edges.get? e = some { fromId := u, toId := remove } → e = directEdge)
    (order order' : NodeId → HashOrder EdgeId) {u v : NodeId} :
    (g'.cfg order').Edge u v ↔ Contracted (g.cfg order).Edge keep remove u v := by
  have hkeep := (hg.linked.endpoints hdirect).1
  simp only [Contracted, hg.cfg_edge_iff order]
  refine (h.mem_childIds hg.linked hne hkeep (order' u)).trans ?_
  constructor
  · rintro ⟨e, hnot, he⟩
    obtain ⟨⟨a, b⟩, hedge, hmoved⟩ := Option.map_eq_some_iff.1 he
    -- An edge that enters `remove` is the direct one, which was left out.
    have hb : b ≠ remove := by
      rintro rfl
      exact hnot (honly e a hedge)
    unfold moved at hmoved
    split at hmoved
    · rename_i ha
      change a = remove at ha
      obtain ⟨hu, hv⟩ := RawEdge.mk.inj hmoved
      rw [ha] at hedge
      exact hv ▸ ⟨hb, .inr ⟨hu.symm, e, hedge⟩⟩
    · rename_i ha
      obtain ⟨hu, hv⟩ := RawEdge.mk.inj hmoved
      exact hu ▸ hv ▸ ⟨hb, .inl ⟨ha, e, hedge⟩⟩
  · rintro ⟨hv, ⟨hu, e, hedge⟩ | ⟨rfl, e, hedge⟩⟩
    · refine ⟨e, ?_, by rw [hedge, Option.map_some, moved, if_neg hu]⟩
      rintro rfl
      rw [hdirect] at hedge
      cases hedge
      exact hv rfl
    · refine ⟨e, ?_, by rw [hedge, Option.map_some, moved, if_pos rfl]⟩
      rintro rfl
      rw [hdirect] at hedge
      cases hedge
      exact hne rfl

theorem Consistent.onlyPred (hg : g.Consistent)
    (hdirect : g.edges.get? directEdge = some { fromId := keep, toId := remove })
    (hne : keep ≠ remove)
    (honly : ∀ e u, g.edges.get? e = some { fromId := u, toId := remove } → e = directEdge)
    (order : NodeId → HashOrder EdgeId) : OnlyPred (g.cfg order).Edge keep remove where
  ne := hne
  edge := (hg.cfg_edge_iff order).2 ⟨directEdge, hdirect⟩
  only := by
    intro u hu
    obtain ⟨e, he⟩ := (hg.cfg_edge_iff order).1 hu
    obtain rfl := honly e u he
    rw [hdirect] at he
    cases he
    rfl

end

/-! ## The dominator tree -/

/-- What is left of a tree when `remove` is merged into its parent `keep`. -/
structure TreeMerged (keep remove : NodeId) (fuel : Nat) (tree tree' : DominatorTree NodeId) :
    Prop where
  immediateDominator : ∀ n, tree'.immediateDominator n =
    if n = remove then none
    else (tree.immediateDominator n).map fun d => if d = remove then keep else d
  dominatorSet : ∀ (order order' : HashOrder NodeId) (n : NodeId),
    tree'.dominatorSet fuel order' n =
      if n = remove then .ok none
      else (tree.dominatorSet fuel order n).map (Option.map fun set => set.erase remove)

/-- A contraction of control flow takes one node out of the dominator tree. -/
theorem treeMerged_of_contracted {cfg cfg' : Cfg NodeId} {tree tree' : DominatorTree NodeId}
    (h : tree.Computed cfg root) (h' : tree'.Computed cfg' root)
    (hpred : OnlyPred cfg.Edge keep remove)
    (hedge : ∀ u v, cfg'.Edge u v ↔ Contracted cfg.Edge keep remove u v)
    (hroot : root ≠ remove) (hfinite : {n | cfg.Reachable root n}.Finite) {fuel : Nat}
    (hfuel : {n | cfg.Reachable root n}.ncard < fuel) : TreeMerged keep remove fuel tree tree' := by
  have heq : cfg'.Edge = Contracted cfg.Edge keep remove :=
    funext fun u => funext fun v => propext (hedge u v)
  have hreach : ∀ n, cfg'.Reachable root n ↔ n ≠ remove ∧ cfg.Reachable root n := by
    intro n
    rw [Cfg.Reachable, heq]
    exact hpred.reaches_iff hroot
  have hsub : {n | cfg'.Reachable root n} ⊆ {n | cfg.Reachable root n} :=
    fun n hn => ((hreach n).1 hn).2
  have hle := Set.ncard_le_ncard hsub hfinite
  constructor
  · intro n
    show tree'.idom.get? n = if n = remove then none
      else (tree.idom.get? n).map fun d => if d = remove then keep else d
    by_cases hn : n = remove
    · rw [if_pos hn, h'.idom_eq_none]
      exact .inr fun hreached => ((hreach n).1 hreached).1 hn
    · rw [if_neg hn]
      cases hget : tree.idom.get? n with
      | none =>
          -- The root, or a node that nothing leads to: it is so after the merge.
          rw [Option.map_none, h'.idom_eq_none]
          refine (h.idom_eq_none.1 hget).imp id fun hnot hreached => ?_
          exact hnot ((hreach n).1 hreached).2
      | some d =>
          obtain ⟨hreached, hnroot, hidom⟩ := (h.idom_iff n d).1 hget
          rw [Option.map_some, h'.idom_iff, heq]
          exact ⟨(hreach n).2 ⟨hn, hreached⟩, hnroot,
            (hpred.isIdom_iff hroot hn hreached hidom).2 rfl⟩
  · intro order order' n
    obtain ⟨answer, hrun, hsome, hnone⟩ := h.dominatorSet_eq hfinite hfuel order n
    obtain ⟨answer', hrun', hsome', hnone'⟩ :=
      h'.dominatorSet_eq (hfinite.subset hsub) (Nat.lt_of_le_of_lt hle hfuel) order' n
    rw [hrun, hrun']
    by_cases hn : n = remove
    · rw [if_pos hn]
      cases answer' with
      | none => rfl
      | some set' => exact absurd hn ((hreach n).1 (hsome' set' rfl).1).1
    · rw [if_neg hn]
      refine congrArg Except.ok ?_
      cases answer with
      | none =>
          cases answer' with
          | none => rfl
          | some set' => exact absurd ((hreach n).1 (hsome' set' rfl).1).2 (hnone rfl)
      | some set =>
          obtain ⟨hreached, hmem⟩ := hsome set rfl
          have hreached' := (hreach n).2 ⟨hn, hreached⟩
          cases answer' with
          | none => exact absurd hreached' (hnone' rfl)
          | some set' =>
              refine congrArg some (Finset.ext fun d => ?_)
              rw [(hsome' set' rfl).2, Finset.mem_erase, hmem, heq]
              by_cases hd : d = remove
              · subst hd
                refine ⟨fun hdom => ?_, fun hdom => absurd rfl hdom.1⟩
                rw [Cfg.Reachable, heq] at hreached'
                exact absurd hdom (hpred.not_dominates hroot hreached')
              · rw [hpred.dominates_iff hroot hd hn, and_iff_right hd]

section

variable [Identifier NodeId] [Identifier EdgeId]

/-- Merging a node other than the root along the only edge that enters it takes the node out of the
dominator tree: whatever it dominated immediately goes to the node it is merged into, and every
dominator set loses it and nothing else. -/
theorem mergeNodes_dominators (hg : g.Consistent)
    (hdirect : g.edges.get? directEdge = some { fromId := keep, toId := remove })
    (hne : keep ≠ remove) (hroot : root ≠ remove)
    (honly : ∀ e u, g.edges.get? e = some { fromId := u, toId := remove } → e = directEdge)
    (order : HashOrder EdgeId) (orders orders' : NodeId → HashOrder EdgeId) :
    ∃ g', (mergeNodes order keep remove directEdge).run g = (.ok (), g') ∧
      ∃ enough, ∀ fuel, enough ≤ fuel → ∃ tree tree',
        computeDominators fuel (g.cfg orders) root = .ok tree ∧
        computeDominators fuel (g'.cfg orders') root = .ok tree' ∧
        tree.Tells fuel (g.cfg orders) root ∧ tree'.Tells fuel (g'.cfg orders') root ∧
        TreeMerged keep remove fuel tree tree' := by
  obtain ⟨g', hrun, hmerged⟩ := mergeNodes_spec hg.linked hdirect hne order
  have hpred := hg.onlyPred hdirect hne honly orders
  have hedge : ∀ u v, (g'.cfg orders').Edge u v ↔
      Contracted (g.cfg orders).Edge keep remove u v := fun u v =>
    hmerged.edge_iff hg hdirect hne honly orders orders'
  have hfinite := hg.finite_reachable orders root
  have hfinite' : {n | (g'.cfg orders').Reachable root n}.Finite := by
    refine hfinite.subset fun n hn => hpred.reaches_of_contracted ?_
    exact Relation.ReflTransGen.mono (fun u v huv => (hedge u v).1 huv) _ _ hn
  obtain ⟨enough, h⟩ := computeDominators_spec (g.cfg orders) root hfinite
  obtain ⟨enough', h'⟩ := computeDominators_spec (g'.cfg orders') root hfinite'
  refine ⟨g', hrun, enough + enough' + {n | (g.cfg orders).Reachable root n}.ncard +
    {n | (g'.cfg orders').Reachable root n}.ncard + 1, ?_⟩
  intro fuel hfuel
  obtain ⟨tree, hcompute, htree⟩ := h fuel (by omega)
  obtain ⟨tree', hcompute', htree'⟩ := h' fuel (by omega)
  exact ⟨tree, tree', hcompute, hcompute', htree.tells hfinite (by omega),
    htree'.tells hfinite' (by omega),
    treeMerged_of_contracted htree htree' hpred hedge hroot hfinite (by omega)⟩

/-- In the diamond node 2 has one edge in and two out, and goes into node 0. -/
theorem mergeNodes_dominators_diamondGraph :
    ∃ g', (mergeNodes (byRaw .usize) (.ofNat .u32 0) (.ofNat .u32 2) (.ofNat .usize 2)).run
        diamondGraph = (.ok (), g') ∧
      ∃ enough, ∀ fuel, enough ≤ fuel → ∃ tree tree',
        computeDominators fuel (diamondGraph.cfg fun _ => byRaw .usize) (.ofNat .u32 0) =
          .ok tree ∧
        computeDominators fuel (g'.cfg fun _ => byRaw .usize) (.ofNat .u32 0) = .ok tree' ∧
        tree.Tells fuel (diamondGraph.cfg fun _ => byRaw .usize) (.ofNat .u32 0) ∧
        tree'.Tells fuel (g'.cfg fun _ => byRaw .usize) (.ofNat .u32 0) ∧
        TreeMerged (.ofNat .u32 0) (.ofNat .u32 2) fuel tree tree' := by
  refine mergeNodes_dominators diamondGraph_consistent (by decide) (by decide) (by decide) ?_
    (byRaw .usize) _ _
  intro e u he
  have hmem : e ∈ diamondGraph.edges.keys := HashMap.mem_keys_of_get? he
  -- Of the five edges one ends in node 2.
  have hkeys : ∀ e ∈ diamondGraph.edges.keys,
      (diamondGraph.edges.get? e).map RawEdge.toId = some (.ofNat .u32 2) →
        e = .ofNat .usize 2 := by decide
  exact hkeys e hmem (by rw [he, Option.map_some])

end

end OwningGraph
end Jstd
