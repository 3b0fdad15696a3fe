import Jstd.OwningGraph.Traversal
import Jstd.Sese.Borders

/-!
# SESE analysis does not see the order of iteration

Two views of one graph list the same edges, each in an order of its own, and so the children of
every node.  `buildFlowgraph` sorts whatever it reads before it numbers anything, and the later
stages read only the flow graph, so the results are the same lists.

`OwningGraph.view` is where such views come from: one for each order of its hash tables.
-/

namespace Jstd

open Foundation

/-! ## Two views of one graph -/

namespace GraphView

variable {NodeId EdgeId : Type} [DecidableEq NodeId] {g g' : GraphView NodeId EdgeId}

theorem children_perm_of_edges (h : g.edges.Perm g'.edges) (n : NodeId) :
    (g.children n).Perm (g'.children n) :=
  (g.children_perm n).trans (((h.filter _).map _).trans (g'.children_perm n).symm)

end GraphView

namespace Sese

variable {NodeId EdgeId : Type} [LinearOrder NodeId] [LinearOrder EdgeId]
  {g g' : GraphView NodeId EdgeId}

omit [LinearOrder EdgeId] in
theorem bfs_congr (h : g.edges.Perm g'.edges) (fuel : Nat) :
    ∀ queue seen ids, bfs g fuel queue seen ids = bfs g' fuel queue seen ids := by
  induction fuel with
  | zero =>
      intro queue seen ids
      rfl
  | succ fuel ih =>
      intro queue seen ids
      cases queue with
      | nil => rfl
      | cons id queue =>
          -- The children of a node are sorted before they join the queue.
          have hchildren : sortByKey (fun child => child) (g.children id) =
              sortByKey (fun child => child) (g'.children id) :=
            sortByKey_eq_of_perm (GraphView.children_perm_of_edges h id) fun _ _ _ _ heq => heq
          rw [bfs, bfs, hchildren]
          split
          · exact ih _ _ _
          · exact ih _ _ _

omit [LinearOrder EdgeId] in
theorem reachableIds_congr (h : g.edges.Perm g'.edges) (root : NodeId) :
    reachableIds g root = reachableIds g' root := by
  rw [reachableIds, reachableIds, h.length_eq, bfs_congr h]

theorem originalEdges_congr (h : g.edges.Perm g'.edges) (numbers : HashMap NodeId Nat) :
    originalEdges g numbers = originalEdges g' numbers := by
  refine sortByKey_eq_of_perm (h.filter _) ?_
  intro e he f hf heq
  exact GraphView.edge_eq_of_id (List.mem_of_mem_filter he) (List.mem_of_mem_filter hf) heq

theorem buildFlowgraph_congr (h : g.edges.Perm g'.edges) (root : NodeId) :
    buildFlowgraph g root = buildFlowgraph g' root := by
  rw [buildFlowgraph, buildFlowgraph, reachableIds_congr h]
  simp only [originalEdges_congr h]

/-- Both analyses give equal results on any two views of one graph, orders included. -/
theorem compute_order_irrelevant (h : g.edges.Perm g'.edges) (root : NodeId) :
    computeSese g root = computeSese g' root ∧
      computeSeseCandidates g root = computeSeseCandidates g' root := by
  refine ⟨?_, ?_⟩
  · rw [computeSese, computeSese, buildFlowgraph_congr h]
  · rw [computeSeseCandidates, computeSeseCandidates, buildFlowgraph_congr h]

/-- The same edges, listed from the other end. -/
def sandwichReversed : GraphView Nat Nat :=
  .ofEdges [⟨5, 4, 5⟩, ⟨4, 3, 4⟩, ⟨3, 2, 3⟩, ⟨2, 2, 3⟩, ⟨1, 1, 2⟩, ⟨0, 0, 1⟩] (by decide)

theorem compute_order_irrelevant_sandwich :
    computeSese sandwich 0 = computeSese sandwichReversed 0 ∧
      computeSeseCandidates sandwich 0 = computeSeseCandidates sandwichReversed 0 :=
  compute_order_irrelevant (List.reverse_perm sandwichReversed.edges) 0

end Sese

/-! ## The views of an OwningGraph -/

namespace OwningGraph

variable {NodeId EdgeId NodeData EdgeData : Type} [DecidableEq NodeId] [DecidableEq EdgeId]

/-- The edges of some ids, with their endpoints. -/
def edgeList (self : OwningGraph NodeId EdgeId NodeData EdgeData) (ids : List EdgeId) :
    List (GraphEdge NodeId EdgeId) :=
  ids.filterMap fun id => (self.edges.get? id).map fun edge =>
    { id := id, fromId := edge.fromId, toId := edge.toId }

variable {g : OwningGraph NodeId EdgeId NodeData EdgeData}

omit [DecidableEq NodeId] in
theorem mem_edgeList {ids : List EdgeId} {edge : GraphEdge NodeId EdgeId} :
    edge ∈ g.edgeList ids ↔
      edge.id ∈ ids ∧ g.edges.get? edge.id = some { fromId := edge.fromId, toId := edge.toId } := by
  rw [edgeList, List.mem_filterMap]
  constructor
  · rintro ⟨id, hid, h⟩
    obtain ⟨raw, hraw, rfl⟩ := Option.map_eq_some_iff.1 h
    exact ⟨hid, hraw⟩
  · rintro ⟨hid, h⟩
    exact ⟨edge.id, hid, by rw [h]; rfl⟩

omit [DecidableEq NodeId] in
theorem edgeList_ids_nodup {ids : List EdgeId} (h : ids.Nodup) :
    ((g.edgeList ids).map fun edge => edge.id).Nodup := by
  refine List.Nodup.sublist ?_ h
  rw [edgeList, List.map_filterMap]
  induction ids with
  | nil => exact .slnil
  | cons id ids ih =>
      obtain ⟨-, hnodup⟩ := List.nodup_cons.1 h
      rw [List.filterMap_cons]
      cases g.edges.get? id with
      | none => exact (ih hnodup).cons id
      | some raw => exact (ih hnodup).cons_cons id

variable [Identifier NodeId] [Identifier EdgeId]

theorem Consistent.childIds_perm (hg : g.Consistent) (order : HashOrder EdgeId)
    {ids : List EdgeId} (hids : ids.Nodup) (hmem : ∀ e, e ∈ ids ↔ g.IsEdge e) (n : NodeId) :
    (childIds order g n).Perm
      (((g.edgeList ids).filter fun edge => edge.fromId = n).map fun edge => edge.toId) := by
  have hsource : ∀ edge, edge ∈ (g.edgeList ids).filter (fun edge => edge.fromId = n) ↔
      edge.fromId = n ∧ g.edges.get? edge.id = some { fromId := n, toId := edge.toId } := by
    intro edge
    rw [List.mem_filter, mem_edgeList, decide_eq_true_iff, hmem]
    constructor
    · rintro ⟨⟨-, h⟩, rfl⟩
      exact ⟨rfl, h⟩
    · rintro ⟨rfl, h⟩
      have hlive := HashMap.mem_keys_of_get? h
      rw [hg.edge_keys] at hlive
      exact ⟨⟨hlive, h⟩, rfl⟩
  by_cases hn : g.IsNode n
  · obtain ⟨items, hrun, hnodup, hiff⟩ := hg.children_spec order hn
    have hinj : Function.Injective fun item : EdgeItem NodeId EdgeId =>
        ({ id := item.edge, fromId := n, toId := item.node } : GraphEdge NodeId EdgeId) := by
      rintro ⟨e, m⟩ ⟨e', m'⟩ heq
      cases heq
      rfl
    have hperm : (items.map fun item =>
        ({ id := item.edge, fromId := n, toId := item.node } : GraphEdge NodeId EdgeId)).Perm
          ((g.edgeList ids).filter fun edge => edge.fromId = n) := by
      refine (List.perm_ext_iff_of_nodup ((List.Nodup.of_map _ hnodup).map hinj)
        ((List.Nodup.of_map _ (edgeList_ids_nodup hids)).filter _)).2 fun edge => ?_
      rw [hsource, List.mem_map]
      constructor
      · rintro ⟨⟨e, m⟩, hitem, rfl⟩
        exact ⟨rfl, (hiff e m).1 hitem⟩
      · rintro ⟨rfl, h⟩
        exact ⟨⟨edge.id, edge.toId⟩, (hiff _ _).2 h, rfl⟩
    have hmap := hperm.map fun edge => edge.toId
    rw [List.map_map] at hmap
    rw [childIds, hrun]
    exact hmap
  · -- A dead id has no children, and no live edge leaves it.
    have hnil : (g.edgeList ids).filter (fun edge => edge.fromId = n) = [] := by
      rw [List.eq_nil_iff_forall_not_mem]
      intro edge hedge
      exact hn (hg.endpoints ((hsource edge).1 hedge).2).1
    rw [hg.childIds_dead order hn, hnil]
    exact .nil

/-- A consistent graph as the analyses read it, in the orders of its hash tables. -/
def view (g : OwningGraph NodeId EdgeId NodeData EdgeData) (hg : g.Consistent)
    (edgeOrder : HashOrder EdgeId) (incidentOrder : NodeId → HashOrder EdgeId) :
    GraphView NodeId EdgeId where
  edges := g.edgeList (edgeOrder.list g.edgeData.keys)
  children n := childIds (incidentOrder n) g n
  ids_nodup := edgeList_ids_nodup (edgeOrder.nodup _)
  children_perm n :=
    hg.childIds_perm (incidentOrder n) (edgeOrder.nodup _) (fun _ => edgeOrder.mem_list) n

/-- However its tables are seeded, an `OwningGraph` has one program-structure tree. -/
theorem Consistent.views_agree {NodeId EdgeId NodeData EdgeData : Type}
    [LinearOrder NodeId] [LinearOrder EdgeId] [Identifier NodeId] [Identifier EdgeId]
    {g : OwningGraph NodeId EdgeId NodeData EdgeData} (hg : g.Consistent)
    (edgeOrder edgeOrder' : HashOrder EdgeId)
    (incidentOrder incidentOrder' : NodeId → HashOrder EdgeId) (root : NodeId) :
    Sese.computeSese (g.view hg edgeOrder incidentOrder) root =
        Sese.computeSese (g.view hg edgeOrder' incidentOrder') root ∧
      Sese.computeSeseCandidates (g.view hg edgeOrder incidentOrder) root =
        Sese.computeSeseCandidates (g.view hg edgeOrder' incidentOrder') root := by
  refine Sese.compute_order_irrelevant (List.Perm.filterMap _ ?_) root
  exact (List.perm_ext_iff_of_nodup (edgeOrder.nodup _) (edgeOrder'.nodup _)).2 fun e => by
    rw [edgeOrder.mem_list, edgeOrder'.mem_list]

end OwningGraph
end Jstd
