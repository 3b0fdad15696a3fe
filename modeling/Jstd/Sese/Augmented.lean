import Mathlib.Data.List.GetD
import Jstd.Foundation.Region
import Jstd.Sese.Basic
import Jstd.Sese.Reachable

/-!
# The augmented graph

`augmented g root` is the flow graph in the terms of the graph itself: its vertices are the
reachable nodes and one synthetic exit (`none`), its edges are the edges between different reachable
nodes, an edge from every node where control can end to the exit, and one from the exit back to the
root.  `buildFlowgraph` numbers this graph (`Numbers`), so that walks in the edge list it builds are
walks of the augmented graph.
-/

namespace Jstd

open Foundation

namespace GraphView

variable {NodeId EdgeId : Type} [DecidableEq NodeId] (g : GraphView NodeId EdgeId)

def Edge (u v : NodeId) : Prop :=
  ∃ edge ∈ g.edges, edge.fromId = u ∧ edge.toId = v

/-- Some walk leads from `root` to `n`. -/
def Reachable (root n : NodeId) : Prop :=
  Reaches g.Edge root n

theorem mem_children {u v : NodeId} : v ∈ g.children u ↔ g.Edge u v := by
  rw [(g.children_perm u).mem_iff, List.mem_map]
  constructor
  · rintro ⟨edge, hmem, hto⟩
    obtain ⟨hmem, hfrom⟩ := List.mem_filter.1 hmem
    exact ⟨edge, hmem, by simpa using hfrom, hto⟩
  · rintro ⟨edge, hmem, hfrom, hto⟩
    exact ⟨edge, List.mem_filter.2 ⟨hmem, by simpa using hfrom⟩, hto⟩

theorem children_length (u : NodeId) :
    (g.children u).length = g.edges.countP fun edge => edge.fromId = u := by
  rw [(g.children_perm u).length_eq, List.length_map, List.countP_eq_length_filter]

variable {g}

theorem Reachable.step {root : NodeId} {edge : GraphEdge NodeId EdgeId}
    (h : g.Reachable root edge.fromId) (hmem : edge ∈ g.edges) : g.Reachable root edge.toId :=
  h.tail ⟨edge, hmem, rfl, rfl⟩

/-- Edges with one id are one edge. -/
theorem edge_eq_of_id {e f : GraphEdge NodeId EdgeId} (he : e ∈ g.edges) (hf : f ∈ g.edges)
    (h : e.id = f.id) : e = f :=
  List.inj_on_of_nodup_map g.ids_nodup he hf h

end GraphView

namespace Sese

variable {NodeId EdgeId : Type} [LinearOrder NodeId]

/-- An edge of the augmented graph. -/
inductive FlowEdge (NodeId EdgeId : Type)
  | original (edge : GraphEdge NodeId EdgeId)
  /-- From a node to the synthetic exit. -/
  | leave (node : NodeId)
  /-- From the synthetic exit to the root. -/
  | back

namespace FlowEdge

variable {NodeId EdgeId : Type}

/-- Where the edge starts, `none` being the synthetic exit. -/
def src : FlowEdge NodeId EdgeId → Option NodeId
  | .original edge => some edge.fromId
  | .leave v => some v
  | .back => none

def dst (root : NodeId) : FlowEdge NodeId EdgeId → Option NodeId
  | .original edge => some edge.toId
  | .leave _ => none
  | .back => some root

/-- The edge of the graph it is. -/
def edgeId : FlowEdge NodeId EdgeId → Option EdgeId
  | .original edge => some edge.id
  | .leave _ => none
  | .back => none

end FlowEdge

/-- A reachable node from which no edge leads to another. -/
def IsSink (g : GraphView NodeId EdgeId) (root v : NodeId) : Prop :=
  g.Reachable root v ∧ ∀ edge ∈ g.edges, edge.fromId = v → edge.toId = v

/-- The sinks lead to the synthetic exit; without sinks, the last reachable node does. -/
def IsLeaving (g : GraphView NodeId EdgeId) (root v : NodeId) : Prop :=
  IsSink g root v ∨
    ((∀ u, ¬ IsSink g root u) ∧ g.Reachable root v ∧ ∀ u, g.Reachable root u → u ≤ v)

/-- The edges that are there. -/
def IsFlowEdge (g : GraphView NodeId EdgeId) (root : NodeId) : FlowEdge NodeId EdgeId → Prop
  | .original edge =>
      edge ∈ g.edges ∧ edge.fromId ≠ edge.toId ∧ g.Reachable root edge.fromId
  | .leave v => IsLeaving g root v
  | .back => True

def augmented (g : GraphView NodeId EdgeId) (root : NodeId) :
    Multigraph (Option NodeId) (FlowEdge NodeId EdgeId) where
  src := FlowEdge.src
  dst := FlowEdge.dst root
  IsEdge := IsFlowEdge g root

/-! ## The reachable nodes -/

variable {g : GraphView NodeId EdgeId} {root : NodeId}

open Classical in
/-- The reachable nodes are targets of edges, apart from the root. -/
theorem exists_reach (g : GraphView NodeId EdgeId) (root : NodeId) :
    ∃ reach : Finset NodeId, ∀ v, v ∈ reach ↔ g.Reachable root v := by
  refine ⟨(insert root (g.edges.map fun edge => edge.toId).toFinset).filter fun v =>
    g.Reachable root v, fun v => ?_⟩
  rw [Finset.mem_filter, Finset.mem_insert, List.mem_toFinset, List.mem_map]
  constructor
  · exact fun h => h.2
  · intro h
    refine ⟨?_, h⟩
    cases h with
    | refl => exact .inl rfl
    | tail _ hstep =>
        obtain ⟨edge, hmem, -, hto⟩ := hstep
        exact .inr ⟨edge, hmem, hto⟩

theorem exists_isLeaving (g : GraphView NodeId EdgeId) (root : NodeId) :
    ∃ v, IsLeaving g root v := by
  by_cases hsink : ∃ u, IsSink g root u
  · obtain ⟨u, hu⟩ := hsink
    exact ⟨u, .inl hu⟩
  · obtain ⟨reach, hreach⟩ := exists_reach g root
    obtain ⟨v, hv, hmax⟩ := reach.exists_max_image (fun v => v) ⟨root, (hreach root).2 .refl⟩
    refine ⟨v, .inr ⟨fun u hu => hsink ⟨u, hu⟩, (hreach v).1 hv, fun u hu => ?_⟩⟩
    exact hmax u ((hreach u).2 hu)

theorem IsLeaving.reachable {v : NodeId} (h : IsLeaving g root v) : g.Reachable root v := by
  rcases h with h | h
  · exact h.1
  · exact h.2.1

/-- The synthetic edges add no nodes. -/
theorem connected_iff {v : NodeId} :
    (augmented g root).Connected (some root) (some v) ↔ g.Reachable root v := by
  constructor
  · intro h
    -- A synthetic edge leads to the exit, which is no node, or back to the root.
    refine Multigraph.Walk.stays h (S := {x | ∀ u, x = some u → g.Reachable root u}) ?_ ?_ v rfl
    · rintro u heq
      obtain rfl := Option.some.inj heq
      exact .refl
    · rintro i hi - - u hu
      cases i with
      | original edge =>
          obtain rfl := Option.some.inj hu
          exact hi.2.2.step hi.1
      | leave _ => cases hu
      | back =>
          obtain rfl := Option.some.inj hu
          exact .refl
  · intro h
    induction h with
    | refl => exact .refl _
    | tail hreach hstep ih =>
        -- The flow graph has no self-loops, and needs none to get there.
        obtain ⟨edge, hmem, rfl, rfl⟩ := hstep
        by_cases hne : edge.fromId = edge.toId
        · rwa [← hne]
        · have hedge : (augmented g root).IsEdge (.original edge) := ⟨hmem, hne, hreach⟩
          exact ih.trans (.edge hedge trivial)

theorem augmented_flow (g : GraphView NodeId EdgeId) (root : NodeId) :
    (augmented g root).Flow (some root) none where
  reached i hi := by
    cases i with
    | original edge => exact connected_iff.2 hi.2.2
    | leave v => exact connected_iff.2 (IsLeaving.reachable hi)
    | back =>
        obtain ⟨v, hv⟩ := exists_isLeaving g root
        have hleave : (augmented g root).IsEdge (.leave v) := hv
        exact (connected_iff.2 hv.reachable).trans (.edge hleave trivial)
  back := ⟨.back, trivial, rfl, rfl⟩

/-- The edges between nodes are the original ones. -/
theorem exists_original {f : FlowEdge NodeId EdgeId} (h : (augmented g root).Inner none f) :
    ∃ edge, f = .original edge := by
  cases f with
  | original edge => exact ⟨edge, rfl⟩
  | leave _ => exact absurd rfl h.dst_ne
  | back => exact absurd rfl h.src_ne

theorem inner_original {edge : GraphEdge NodeId EdgeId} (h : IsFlowEdge g root (.original edge)) :
    (augmented g root).Inner none (.original edge) :=
  ⟨h, Option.some_ne_none _, Option.some_ne_none _⟩

theorem bfs_spec {reach : Finset NodeId} (hreach : ∀ v, v ∈ reach ↔ g.Reachable root v)
    (fuel : Nat) :
    ∀ queue seen ids, Worklist g.Edge root seen queue → (∀ v, v ∈ ids ↔ v ∈ seen) → ids.Nodup →
      queue.length + pendingDegree (fun v => g.edges.countP fun edge => edge.fromId = v) reach
        seen < fuel →
      ∃ ids', bfs g fuel queue seen ids = .ok ids' ∧ ids'.Nodup ∧
        ∀ v, v ∈ ids' ↔ g.Reachable root v := by
  induction fuel with
  | zero =>
      intro queue seen ids _ _ _ hlt
      exact absurd hlt (Nat.not_lt_zero _)
  | succ fuel ih =>
      intro queue seen ids h hids hnodup hlt
      cases queue with
      | nil =>
          refine ⟨ids, rfl, hnodup, fun v => ?_⟩
          rw [hids]
          exact h.final v
      | cons id queue =>
          rw [List.length_cons] at hlt
          rw [bfs]
          -- A node popped for the second time only shortens the queue.
          by_cases hid : id ∈ seen
          · rw [if_pos hid]
            exact ih _ _ _ (h.skip hid) hids hnodup (by omega)
          · rw [if_neg hid]
            refine ih _ _ _ (h.visit ?_ ?_ ?_) ?_ ?_ ?_
            · intro v hv
              exact List.mem_append_left _ hv
            · intro v hv
              rcases List.mem_append.1 hv with hv | hv
              · exact .inl hv
              · exact .inr (g.mem_children.1 (mem_sortByKey.1 hv))
            · intro v hv
              exact .inr (List.mem_append_right _ (mem_sortByKey.2 (g.mem_children.2 hv)))
            · intro v
              simp [hids, or_comm]
            · refine List.nodup_append.2 ⟨hnodup, List.nodup_singleton _, ?_⟩
              intro a ha b hb
              obtain rfl := List.mem_singleton.1 hb
              rintro rfl
              exact hid ((hids a).1 ha)
            · -- The edges pushed are paid for by the node that is no longer pending.
              have hsum := pendingDegree_insert
                (fun v => g.edges.countP fun edge => edge.fromId = v)
                ((hreach id).2 (h.pending_reached id List.mem_cons_self)) hid
              rw [List.length_append, length_sortByKey, g.children_length]
              omega

theorem reachableIds_spec (g : GraphView NodeId EdgeId) (root : NodeId) :
    ∃ ids, reachableIds g root = .ok ids ∧ ids.Pairwise (· < ·) ∧
      ∀ v, v ∈ ids ↔ g.Reachable root v := by
  obtain ⟨reach, hreach⟩ := exists_reach g root
  have hsum := sum_countP_le (fun edge : GraphEdge NodeId EdgeId => edge.fromId) g.edges reach
  obtain ⟨ids, hrun, hnodup, hmem⟩ := bfs_spec hreach (g.edges.length + 2) [root] ∅ []
    (.init _ _) (by simp) List.nodup_nil (by
      rw [pendingDegree, Finset.sdiff_empty, List.length_singleton]
      omega)
  refine ⟨sortByKey (fun id => id) ids, ?_, ?_, ?_⟩
  · rw [reachableIds, hrun]
    rfl
  · exact pairwise_lt_sortByKey (by simpa using hnodup)
  · intro v
    rw [mem_sortByKey, hmem]

theorem indexIds_of_notMem {v : NodeId} (pairs : List (NodeId × Nat)) :
    ∀ map, (∀ i, (v, i) ∉ pairs) → (indexIds pairs map).get? v = map.get? v := by
  induction pairs with
  | nil =>
      intro map _
      rfl
  | cons p pairs ih =>
      obtain ⟨id, i⟩ := p
      intro map hv
      rw [indexIds, ih _ fun j hj => hv j (List.mem_cons_of_mem _ hj), HashMap.get?_insert, if_neg]
      rintro rfl
      exact hv i List.mem_cons_self

theorem indexIds_of_mem {v : NodeId} {i : Nat} (pairs : List (NodeId × Nat)) :
    ∀ map, (pairs.map Prod.fst).Nodup → (v, i) ∈ pairs →
      (indexIds pairs map).get? v = some i := by
  induction pairs with
  | nil =>
      intro map _ hv
      cases hv
  | cons p pairs ih =>
      obtain ⟨id, j⟩ := p
      intro map hnodup hv
      rw [List.map_cons, List.nodup_cons] at hnodup
      rw [indexIds]
      rcases List.mem_cons.1 hv with heq | hv
      · obtain ⟨rfl, rfl⟩ := Prod.mk.inj heq
        rw [indexIds_of_notMem, HashMap.get?_insert_self]
        intro k hk
        exact hnodup.1 (List.mem_map.2 ⟨(v, k), hk, rfl⟩)
      · exact ih _ hnodup.2 hv

/-- `index[&id]` is the position of `id`. -/
theorem indexIds_get? {ids : List NodeId} (hnodup : ids.Nodup) (v : NodeId) :
    (indexIds ids.zipIdx .empty).get? v = if v ∈ ids then some (ids.idxOf v) else none := by
  by_cases hv : v ∈ ids
  · rw [if_pos hv]
    refine indexIds_of_mem _ _ (by rw [List.zipIdx_map_fst]; exact hnodup) ?_
    exact List.mk_mem_zipIdx_iff_getElem?.2 (List.getElem?_idxOf hv)
  · rw [if_neg hv, indexIds_of_notMem, HashMap.get?_empty]
    intro i hi
    exact hv (List.mem_of_getElem? (List.mk_mem_zipIdx_iff_getElem?.1 hi))

/-! ## The edges -/

theorem markOut_spec (edges : List (IEdge EdgeId)) :
    ∀ hasOut : List Bool, (∀ edge ∈ edges, edge.fromNode < hasOut.length) →
      ∃ hasOut', markOut edges hasOut = .ok hasOut' ∧ hasOut'.length = hasOut.length ∧
        ∀ v, hasOut'.getD v false = true ↔
          hasOut.getD v false = true ∨ ∃ edge ∈ edges, edge.fromNode = v := by
  induction edges with
  | nil =>
      intro hasOut _
      exact ⟨hasOut, rfl, rfl, by simp⟩
  | cons edge edges ih =>
      intro hasOut hlt
      have hedge := hlt edge List.mem_cons_self
      obtain ⟨hasOut', hrun, hlen, hmem⟩ := ih (hasOut.set edge.fromNode true) (by
        intro f hf
        rw [List.length_set]
        exact hlt f (List.mem_cons_of_mem _ hf))
      refine ⟨hasOut', ?_, by rw [hlen, List.length_set], fun v => ?_⟩
      · rw [markOut, setIndex_of_lt hedge]
        exact hrun
      · rw [hmem, getD_set, List.exists_mem_cons_iff]
        by_cases hv : edge.fromNode = v
        · simp [hv, hv ▸ hedge]
        · simp [hv]

/-- The nodes `exit_edges` starts from. -/
def exitNodes (hasOut : List Bool) : List Nat :=
  hasOut.zipIdx.filterMap fun (outgoing, node) => if outgoing then none else some node

theorem exitEdges_eq (exit : Nat) (hasOut : List Bool) :
    exitEdges exit hasOut =
      (exitNodes hasOut).map fun node =>
        ({ fromNode := node, toNode := exit, original := none } : IEdge EdgeId) := by
  rw [exitEdges, exitNodes, List.map_filterMap]
  refine List.filterMap_congr fun p _ => ?_
  obtain ⟨outgoing, node⟩ := p
  cases outgoing with
  | true => rfl
  | false => rfl

theorem mem_exitNodes {hasOut : List Bool} {v : Nat} :
    v ∈ exitNodes hasOut ↔ hasOut[v]? = some false := by
  rw [exitNodes, List.mem_filterMap]
  constructor
  · rintro ⟨⟨outgoing, i⟩, hp, hv⟩
    cases outgoing with
    | true => cases hv
    | false =>
        obtain rfl := Option.some.inj hv
        exact List.mk_mem_zipIdx_iff_getElem?.1 hp
  · intro hv
    exact ⟨(false, v), List.mk_mem_zipIdx_iff_getElem?.2 hv, rfl⟩

theorem exitNodes_nodup (hasOut : List Bool) : (exitNodes hasOut).Nodup := by
  have hzip : hasOut.zipIdx.Nodup := by
    refine List.Nodup.of_map Prod.snd ?_
    rw [List.zipIdx_map_snd]
    exact List.nodup_range'
  refine hzip.filterMap ?_
  rintro ⟨_ | _, i⟩ ⟨_ | _, j⟩ k hi hj
  · obtain rfl : i = k := Option.some.inj hi
    obtain rfl : j = i := Option.some.inj hj
    rfl
  all_goals simp at hi hj

/-! ## The numbering -/

/-- `index[&v]`, or `ids.len()` for the synthetic exit. -/
def vertexNumber (ids : List NodeId) : Option NodeId → Nat
  | some v => ids.idxOf v
  | none => ids.length

def numberEdge (root : NodeId) (ids : List NodeId) (f : FlowEdge NodeId EdgeId) : IEdge EdgeId where
  fromNode := vertexNumber ids f.src
  toNode := vertexNumber ids (f.dst root)
  original := f.edgeId

/-- The edges of the augmented graph in the order `build_flowgraph` lists them. -/
def edgeNames (originals : List (GraphEdge NodeId EdgeId)) (leaving : List NodeId) :
    List (FlowEdge NodeId EdgeId) :=
  originals.map .original ++ leaving.map .leave ++ [.back]

variable [LinearOrder EdgeId]

/-- `fg` lists the edges of the augmented graph, with numbers for its vertices. -/
structure Numbers (g : GraphView NodeId EdgeId) (root : NodeId) (fg : Flowgraph NodeId EdgeId)
    (originals : List (GraphEdge NodeId EdgeId)) (leaving : List NodeId) : Prop where
  ids_lt : fg.ids.Pairwise (· < ·)
  mem_ids : ∀ v, v ∈ fg.ids ↔ g.Reachable root v
  entry : fg.entry = fg.ids.idxOf root
  originals_lt : originals.Pairwise fun e f => e.id < f.id
  mem_originals : ∀ e, e ∈ originals ↔ IsFlowEdge g root (.original e)
  leaving_nodup : leaving.Nodup
  mem_leaving : ∀ v, v ∈ leaving ↔ IsLeaving g root v
  count : fg.originalCount = originals.length
  edges : fg.edges = (edgeNames originals leaving).map (numberEdge root fg.ids)

section

variable {ids : List NodeId} (hlt : ids.Pairwise (· < ·))
  (hids : ∀ v, v ∈ ids ↔ g.Reachable root v)

include hlt hids

theorem mem_originalEdges {e : GraphEdge NodeId EdgeId} :
    e ∈ originalEdges g (indexIds ids.zipIdx .empty) ↔ IsFlowEdge g root (.original e) := by
  have hkey : ∀ v, (indexIds ids.zipIdx .empty).containsKey v = true ↔ g.Reachable root v := by
    intro v
    rw [HashMap.containsKey, indexIds_get? hlt.nodup, ← hids]
    by_cases hv : v ∈ ids
    · simp [hv]
    · simp [hv]
  rw [originalEdges, mem_sortByKey, List.mem_filter, decide_eq_true_eq, hkey, hkey]
  constructor
  · rintro ⟨hmem, hne, hfrom, -⟩
    exact ⟨hmem, hne, hfrom⟩
  · rintro ⟨hmem, hne, hfrom⟩
    exact ⟨hmem, hne, hfrom, hfrom.step hmem⟩

omit [LinearOrder EdgeId] hids in
theorem lt_of_idxOf_lt {u v : NodeId} (hu : u ∈ ids) (hv : v ∈ ids)
    (h : ids.idxOf u < ids.idxOf v) : u < v := by
  have := List.pairwise_iff_getElem.1 hlt _ _ (List.idxOf_lt_length_of_mem hu)
    (List.idxOf_lt_length_of_mem hv) h
  rwa [List.getElem_idxOf, List.getElem_idxOf] at this

variable (EdgeId) (root) in
omit [LinearOrder EdgeId] hids in
/-- The nodes with given numbers. -/
theorem nodes_of_numbers {nodes : List Nat} (hnodup : nodes.Nodup)
    (hbound : ∀ i ∈ nodes, i < ids.length) :
    ∃ leaving : List NodeId, leaving.Nodup ∧ leaving.length = nodes.length ∧
      (∀ v, v ∈ leaving ↔ v ∈ ids ∧ ids.idxOf v ∈ nodes) ∧
      nodes.map (fun i =>
          ({ fromNode := i, toNode := ids.length, original := none } : IEdge EdgeId)) =
        (leaving.map .leave).map (numberEdge root ids) := by
  have hidx : ∀ i ∈ nodes, ids.idxOf (ids.getD i root) = i := by
    intro i hi
    rw [List.getD_eq_getElem _ _ (hbound i hi), hlt.nodup.idxOf_getElem]
  refine ⟨nodes.map fun i => ids.getD i root, ?_, List.length_map .., ?_, ?_⟩
  · refine hnodup.map_on fun i hi j hj heq => ?_
    rw [← hidx i hi, ← hidx j hj, heq]
  · intro v
    rw [List.mem_map]
    constructor
    · rintro ⟨i, hi, rfl⟩
      rw [hidx i hi]
      refine ⟨?_, hi⟩
      rw [List.getD_eq_getElem _ _ (hbound i hi)]
      exact List.getElem_mem _
    · rintro ⟨hv, hi⟩
      refine ⟨_, hi, ?_⟩
      rw [List.getD_eq_getElem?_getD, List.getElem?_idxOf hv]
      rfl
  · rw [List.map_map, List.map_map]
    refine List.map_congr_left fun i hi => ?_
    simp only [Function.comp, numberEdge, FlowEdge.src, FlowEdge.dst, FlowEdge.edgeId,
      vertexNumber, hidx i hi]

omit [LinearOrder EdgeId] in
/-- The exits, whatever branch adds them, start from the leaving nodes. -/
theorem exits_spec {originals : List (GraphEdge NodeId EdgeId)}
    (hmem : ∀ e, e ∈ originals ↔ IsFlowEdge g root (.original e)) {hasOut : List Bool}
    (hlen : hasOut.length = ids.length)
    (hout : ∀ v, hasOut.getD v false = true ↔ ∃ e ∈ originals, ids.idxOf e.fromId = v) :
    ∃ leaving : List NodeId, leaving.Nodup ∧ leaving ≠ [] ∧
      (∀ v, v ∈ leaving ↔ IsLeaving g root v) ∧
      (if (exitEdges ids.length hasOut : List (IEdge EdgeId)).isEmpty ∧ ¬ ids.isEmpty then
          [{ fromNode := ids.length - 1, toNode := ids.length, original := none }]
        else exitEdges ids.length hasOut) =
        (leaving.map .leave : List (FlowEdge NodeId EdgeId)).map (numberEdge root ids) := by
  -- The flags mark the nodes that have an edge out.
  have hsink : ∀ v, v ∈ ids ∧ ids.idxOf v ∈ exitNodes hasOut ↔ IsSink g root v := by
    intro v
    rw [mem_exitNodes, IsSink, ← hids]
    refine and_congr_right fun hv => ?_
    have hv' : ids.idxOf v < hasOut.length := by
      rw [hlen]
      exact List.idxOf_lt_length_of_mem hv
    rw [List.getElem?_eq_getElem hv', Option.some.injEq, ← List.getD_eq_getElem _ false hv',
      ← Bool.not_eq_true, hout]
    constructor
    · intro h edge hedge hfrom
      by_contra hne
      refine h ⟨edge, (hmem edge).2 ⟨hedge, fun heq => hne (heq ▸ hfrom), ?_⟩, by rw [hfrom]⟩
      rw [hfrom]
      exact (hids v).1 hv
    · rintro h ⟨edge, hedge, heq⟩
      obtain ⟨hedge, hne, -⟩ := (hmem edge).1 hedge
      obtain rfl := (List.idxOf_inj hv).1 heq.symm
      exact hne (h edge hedge rfl).symm
  -- Where no node is a sink the last one gets the edge to the exit.
  by_cases hnone : exitNodes hasOut = []
  · have hempty : ids ≠ [] := List.ne_nil_of_mem ((hids root).2 .refl)
    have hpos := List.length_pos_iff.2 hempty
    obtain ⟨leaving, hnodup, hlength, hleaving, hmap⟩ := nodes_of_numbers EdgeId root hlt
      (List.nodup_singleton (ids.length - 1)) (by simp only [List.mem_singleton]; omega)
    have hno : ∀ u, ¬ IsSink g root u := by
      intro u hu
      have hu := ((hsink u).2 hu).2
      rw [hnone] at hu
      exact List.not_mem_nil hu
    refine ⟨leaving, hnodup, List.ne_nil_of_length_pos (by rw [hlength]; exact Nat.one_pos), ?_, ?_⟩
    · intro v
      rw [hleaving, List.mem_singleton, IsLeaving, or_iff_right (hno v), and_iff_right hno, ← hids]
      refine and_congr_right fun hv => ?_
      constructor
      · intro hlast u hu
        rw [← hids] at hu
        by_contra hlt'
        have hlength := List.idxOf_lt_length_of_mem hu
        have hne : ids.idxOf u ≠ ids.idxOf v := fun heq => hlt' ((List.idxOf_inj hu).1 heq).le
        exact hlt' (lt_of_idxOf_lt hlt hu hv (by omega)).le
      · intro hmax
        have hmem : ids[ids.length - 1] ∈ ids := List.getElem_mem (by omega)
        have hlength := List.idxOf_lt_length_of_mem hv
        by_contra hne
        refine absurd (hmax _ ((hids _).1 hmem)) (not_le.2 (lt_of_idxOf_lt hlt hv hmem ?_))
        rw [hlt.nodup.idxOf_getElem]
        omega
    · rw [if_pos ⟨by rw [exitEdges_eq, hnone]; rfl, by simpa using hempty⟩]
      exact hmap
  · obtain ⟨leaving, hnodup, hlength, hleaving, hmap⟩ := nodes_of_numbers EdgeId root hlt
      (exitNodes_nodup hasOut) (by
        intro i hi
        rw [← hlen]
        exact (List.getElem?_eq_some_iff.1 (mem_exitNodes.1 hi)).1)
    have hpos : 0 < (exitNodes hasOut).length := List.length_pos_iff.2 hnone
    refine ⟨leaving, hnodup, List.ne_nil_of_length_pos (by omega), ?_, ?_⟩
    · intro v
      rw [hleaving, hsink, IsLeaving]
      refine ⟨.inl, ?_⟩
      rintro (hv | ⟨hno, -⟩)
      · exact hv
      · obtain ⟨u, hu⟩ := List.exists_mem_of_ne_nil leaving (List.ne_nil_of_length_pos (by omega))
        exact absurd ((hsink u).1 ((hleaving u).1 hu)) (hno u)
    · rw [if_neg, exitEdges_eq]
      · exact hmap
      · rintro ⟨h, -⟩
        rw [exitEdges_eq, List.isEmpty_iff, List.map_eq_nil_iff] at h
        exact hnone h

end

theorem buildFlowgraph_spec (g : GraphView NodeId EdgeId) (root : NodeId) :
    ∃ fg originals leaving, buildFlowgraph g root = .ok fg ∧
      Numbers g root fg originals leaving := by
  obtain ⟨ids, hrun, hlt, hids⟩ := reachableIds_spec g root
  have hget := indexIds_get? hlt.nodup
  have hroot : root ∈ ids := (hids root).2 .refl
  have hmem : ∀ e, e ∈ originalEdges g (indexIds ids.zipIdx .empty) ↔
      IsFlowEdge g root (.original e) := fun e => mem_originalEdges hlt hids
  -- Both ends of an edge among the nodes have a number.
  have hinternal := filterMapChecked_of_ok (f := internalEdge (indexIds ids.zipIdx .empty))
    (g := fun e => some (numberEdge root ids (.original e)))
    (originalEdges g (indexIds ids.zipIdx .empty)) (by
      intro e he
      obtain ⟨he, -, hfrom⟩ := (hmem e).1 he
      have hto := hfrom.step he
      rw [← hids] at hfrom hto
      rw [internalEdge, indexMap, hget, if_pos hfrom, indexMap, hget, if_pos hto]
      rfl)
  rw [List.filterMap_eq_map'] at hinternal
  obtain ⟨hasOut, hmark, hlength, hout⟩ := markOut_spec
    ((originalEdges g (indexIds ids.zipIdx .empty)).map fun e => numberEdge root ids (.original e))
    (List.replicate ids.length false) (by
      intro edge hedge
      obtain ⟨e, he, rfl⟩ := List.mem_map.1 hedge
      rw [List.length_replicate]
      exact List.idxOf_lt_length_of_mem ((hids _).2 ((hmem e).1 he).2.2))
  rw [List.length_replicate] at hlength
  obtain ⟨leaving, hnodup, hne, hleaving, hexits⟩ := exits_spec hlt hids hmem hlength (by
    intro v
    rw [hout]
    simp [numberEdge, FlowEdge.src, vertexNumber])
  have hback : backEdges (indexIds ids.zipIdx .empty) root ids.length
      ((leaving.map .leave).map (numberEdge root ids)) =
        .ok [numberEdge root ids (.back : FlowEdge NodeId EdgeId)] := by
    rw [backEdges, if_neg (by simpa using hne), indexMap, hget, if_pos hroot]
    rfl
  refine ⟨⟨ids, (edgeNames _ leaving).map (numberEdge root ids), _, ids.idxOf root⟩,
    originalEdges g (indexIds ids.zipIdx .empty), leaving, ?_,
    hlt, hids, rfl, ?_, hmem, hnodup, hleaving, rfl, rfl⟩
  · rw [buildFlowgraph, hrun]
    show (filterMapChecked _ _ >>= _) = _
    rw [hinternal]
    show (markOut _ _ >>= _) = _
    rw [hmark]
    show (backEdges _ _ _ _ >>= _) = _
    rw [hexits, hback, indexMap, hget, if_pos hroot]
    show Except.ok _ = _
    simp [edgeNames]
  · exact pairwise_lt_sortByKey ((g.ids_nodup.sublist (List.filter_sublist.map _)))

end Sese
end Jstd
