import Jstd.OwningGraph.Consistency

/-!
# Runs of OwningGraph

A run starts at the empty graph, makes calls on live ids, and may change the payload types on the
way.  No call of a run panics, every graph a run reaches is consistent, and on a consistent graph the
traversal iterators list each edge where it belongs, once.
-/

namespace Jstd
namespace OwningGraph

open Foundation

variable {NodeId EdgeId NodeData EdgeData : Type} [DecidableEq NodeId] [DecidableEq EdgeId]
  [Identifier NodeId] [Identifier EdgeId]

/-! ## Calls -/

/-- The mutating methods; `removeNode` is given the order its worklist is read in. -/
inductive Call (NodeId EdgeId NodeData EdgeData : Type)
  | makeNode (data : NodeData)
  | makeEdge (fromId toId : NodeId) (data : EdgeData)
  | removeEdge (id : EdgeId)
  | editEdge (id : EdgeId) (newFrom newTo : NodeId)
  | removeNode (order : HashOrder EdgeId) (id : NodeId)

/-- What a call returns. -/
inductive Issued (NodeId EdgeId : Type)
  | node (id : NodeId)
  | edge (id : EdgeId)
  | nothing

/-- Every id the call is made with is live. -/
def Call.Live (g : OwningGraph NodeId EdgeId NodeData EdgeData) :
    Call NodeId EdgeId NodeData EdgeData → Prop
  | .makeNode _ => True
  | .makeEdge fromId toId _ => g.IsNode fromId ∧ g.IsNode toId
  | .removeEdge id => g.IsEdge id
  | .editEdge id newFrom newTo => g.IsEdge id ∧ g.IsNode newFrom ∧ g.IsNode newTo
  | .removeNode _ id => g.IsNode id

def Call.perform : Call NodeId EdgeId NodeData EdgeData →
    Method Panic (OwningGraph NodeId EdgeId NodeData EdgeData) (Issued NodeId EdgeId)
  | .makeNode data => Issued.node <$> OwningGraph.makeNode data
  | .makeEdge fromId toId data => Issued.edge <$> OwningGraph.makeEdge fromId toId data
  | .removeEdge id => (fun _ => Issued.nothing) <$> OwningGraph.removeEdge id
  | .editEdge id newFrom newTo =>
      (fun _ => Issued.nothing) <$> OwningGraph.editEdge id newFrom newTo
  | .removeNode order id => (fun _ => Issued.nothing) <$> OwningGraph.removeNode order id

/-- The graphs that calls on live ids reach from the empty graph. -/
inductive Reachable :
    {NodeData EdgeData : Type} → OwningGraph NodeId EdgeId NodeData EdgeData → Prop
  | empty {NodeData EdgeData : Type} :
      Reachable (empty : OwningGraph NodeId EdgeId NodeData EdgeData)
  | call {NodeData EdgeData : Type} {g : OwningGraph NodeId EdgeId NodeData EdgeData}
      (h : Reachable g) (c : Call NodeId EdgeId NodeData EdgeData) (hlive : c.Live g) :
      Reachable (c.perform.run g).2
  | reinterpret {NodeData EdgeData NewNodeData NewEdgeData σ : Type}
      {g : OwningGraph NodeId EdgeId NodeData EdgeData} (h : Reachable g)
      (nodeOrder : HashOrder NodeId) (edgeOrder : HashOrder EdgeId)
      (nodeDataMap : NodeData → StateM σ NewNodeData)
      (edgeDataMap : EdgeData → StateM σ NewEdgeData) (s : σ) :
      Reachable ((g.reinterpret nodeOrder edgeOrder nodeDataMap edgeDataMap).run s).1

/-- The identifier types keep apart the ids the counters of `g` have issued. -/
structure IdsInjective (g : OwningGraph NodeId EdgeId NodeData EdgeData) : Prop where
  node : Set.InjOn (fromUsize : Nat → NodeId) {k | k < g.nextNodeId}
  edge : Set.InjOn (fromUsize : Nat → EdgeId) {k | k < g.nextEdgeId}

omit [DecidableEq NodeId] [DecidableEq EdgeId] [Identifier NodeId] [Identifier EdgeId] in
/-- Derived identifiers stay apart until the backing integer runs out. -/
theorem idsInjective_of_le {b c : Backing}
    {g : OwningGraph (DerivedId b) (DerivedId c) NodeData EdgeData}
    (hnode : g.nextNodeId ≤ b.max + 1) (hedge : g.nextEdgeId ≤ c.max + 1) : g.IdsInjective := by
  have hinj : ∀ (d : Backing) (k : Nat), k ≤ d.max + 1 →
      Set.InjOn (fromUsize : Nat → DerivedId d) {i | i < k} := by
    intro d k hk i hi j hj heq
    have hraw : i % (d.max + 1) = j % (d.max + 1) := congrArg DerivedId.raw heq
    rwa [Nat.mod_eq_of_lt (Nat.lt_of_lt_of_le hi hk),
      Nat.mod_eq_of_lt (Nat.lt_of_lt_of_le hj hk)] at hraw
  exact ⟨hinj b _ hnode, hinj c _ hedge⟩

/-! ## One call -/

/-- No call turns a counter back, not even one that panics. -/
def CountersFrom (k l : Nat) (g : OwningGraph NodeId EdgeId NodeData EdgeData) : Prop :=
  k ≤ g.nextNodeId ∧ l ≤ g.nextEdgeId

section

omit [Identifier NodeId] [Identifier EdgeId]

variable {k l : Nat}

theorem addEdgeId_counters (n : NodeId) (e : EdgeId) :
    Method.Keeps (CountersFrom k l)
      (addEdgeId n e : Method Panic (OwningGraph NodeId EdgeId NodeData EdgeData) Unit) :=
  .bind .get fun _ => .bind (.liftM _) fun _ => .modify fun _ h => h

theorem removeEdgeId_counters (n : NodeId) (e : EdgeId) :
    Method.Keeps (CountersFrom k l)
      (removeEdgeId n e : Method Panic (OwningGraph NodeId EdgeId NodeData EdgeData) Unit) :=
  .bind .get fun _ => .bind (.liftM _) fun _ => .modify fun _ h => h

theorem removeEdge_counters (e : EdgeId) :
    Method.Keeps (CountersFrom k l)
      (OwningGraph.removeEdge e :
        Method Panic (OwningGraph NodeId EdgeId NodeData EdgeData) Unit) :=
  .bind .get fun _ => .bind (.liftM _) fun edge => .bind (.modify fun _ h => h) fun _ =>
    .bind (.modify fun _ h => h) fun _ => .bind (removeEdgeId_counters edge.fromId e) fun _ =>
      removeEdgeId_counters edge.toId e

end

theorem Call.counters (c : Call NodeId EdgeId NodeData EdgeData) {k l : Nat} :
    Method.Keeps (CountersFrom k l) c.perform := by
  cases c with
  | makeNode data =>
      exact .map _ <| .bind .get fun _ =>
        .bind (.modify fun _ h => ⟨Nat.le_succ_of_le h.1, h.2⟩) fun _ =>
          .bind (.modify fun _ h => h) fun _ => .bind (.modify fun _ h => h) fun _ => .pure _
  | makeEdge u v data =>
      exact .map _ <| .bind .get fun _ =>
        .bind (.modify fun _ h => ⟨h.1, Nat.le_succ_of_le h.2⟩) fun _ =>
          .bind (.modify fun _ h => h) fun _ => .bind (.modify fun _ h => h) fun _ =>
            .bind (addEdgeId_counters u _) fun _ => .bind (addEdgeId_counters v _) fun _ => .pure _
  | removeEdge e => exact .map _ (removeEdge_counters e)
  | editEdge e u v =>
      exact .map _ <| .bind .get fun _ => .bind (.liftM _) fun edge =>
        .bind (removeEdgeId_counters edge.fromId e) fun _ =>
          .bind (removeEdgeId_counters edge.toId e) fun _ => .bind (.modify fun _ h => h) fun _ =>
            .bind (addEdgeId_counters u e) fun _ => addEdgeId_counters v e
  | removeNode order n =>
      exact .map _ <| .bind .get fun _ => .bind (.liftM _) fun raw =>
        .bind (.forEach removeEdge_counters (order.list raw.edges)) fun _ =>
          .bind .get fun _ => .bind (.liftM _) fun _ => .bind (.modify fun _ h => h) fun _ =>
            .modify fun _ h => h

theorem IdsInjective.of_call {g : OwningGraph NodeId EdgeId NodeData EdgeData}
    (c : Call NodeId EdgeId NodeData EdgeData) (h : (c.perform.run g).2.IdsInjective) :
    g.IdsInjective := by
  obtain ⟨hnode, hedge⟩ := c.counters g ⟨Nat.le_refl _, Nat.le_refl _⟩
  exact
    { node := h.node.mono fun _ hk => Nat.lt_of_lt_of_le hk hnode
      edge := h.edge.mono fun _ hk => Nat.lt_of_lt_of_le hk hedge }

/-- A call on live ids returns, and leaves a consistent graph while the ids stay apart. -/
theorem Consistent.perform {g : OwningGraph NodeId EdgeId NodeData EdgeData} (hg : g.Consistent)
    (c : Call NodeId EdgeId NodeData EdgeData) (hlive : c.Live g) :
    ∃ out g', c.perform.run g = (.ok out, g') ∧ (g'.IdsInjective → g'.Consistent) := by
  cases c with
  | makeNode data =>
      obtain ⟨g', hrun, hnode, -, hcons⟩ := hg.makeNode data
      refine ⟨.node (fromUsize g.nextNodeId), g', ?_, ?_⟩
      · rw [Call.perform, Method.run_map, hrun, Except.map]
      -- The new id is not in use while the issued ids are apart.
      · intro hids
        have hinj := hids.node
        rw [hnode] at hinj
        exact hcons (hg.fresh_node hinj)
  | makeEdge u v data =>
      obtain ⟨g', hrun, -, hedge, hcons⟩ := hg.makeEdge hlive.1 hlive.2 data
      refine ⟨.edge (fromUsize g.nextEdgeId), g', ?_, ?_⟩
      · rw [Call.perform, Method.run_map, hrun, Except.map]
      · intro hids
        have hinj := hids.edge
        rw [hedge] at hinj
        exact hcons (hg.fresh_edge hinj)
  | removeEdge e =>
      obtain ⟨edge, he⟩ := hg.exists_edge hlive
      obtain ⟨g', hrun, hg', -⟩ := hg.removeEdge he
      exact ⟨.nothing, g', by rw [Call.perform, Method.run_map, hrun, Except.map], fun _ => hg'⟩
  | editEdge e u v =>
      obtain ⟨edge, he⟩ := hg.exists_edge hlive.1
      obtain ⟨g', hrun, hg', -⟩ := hg.editEdge he hlive.2.1 hlive.2.2
      exact ⟨.nothing, g', by rw [Call.perform, Method.run_map, hrun, Except.map], fun _ => hg'⟩
  | removeNode order n =>
      obtain ⟨g', hrun, hg', -⟩ := hg.removeNode order hlive
      exact ⟨.nothing, g', by rw [Call.perform, Method.run_map, hrun, Except.map], fun _ => hg'⟩

/-! ## Whole runs -/

theorem Reachable.consistent {NodeData EdgeData : Type}
    {g : OwningGraph NodeId EdgeId NodeData EdgeData} (h : Reachable g)
    (hids : g.IdsInjective) : g.Consistent := by
  induction h with
  | empty => exact empty_consistent
  | call h c hlive ih =>
      obtain ⟨out, g', hrun, hcons⟩ := (ih (hids.of_call c)).perform c hlive
      rw [hrun] at hids ⊢
      exact hcons hids
  | reinterpret h nodeOrder edgeOrder nodeDataMap edgeDataMap s ih =>
      exact (ih ⟨hids.node, hids.edge⟩).reinterpret nodeOrder edgeOrder nodeDataMap edgeDataMap s

/-! ## Traversal -/

section

omit [DecidableEq NodeId] [Identifier NodeId] [Identifier EdgeId]

/-- An iterator over live edges keeps, for each, what its mode selects. -/
theorem collect_spec {g : OwningGraph NodeId EdgeId NodeData EdgeData}
    (mode : EdgeId → RawEdge NodeId → Option (EdgeItem NodeId EdgeId))
    (hmode : ∀ {id edge item}, mode id edge = some item → item.edge = id) {ids : List EdgeId}
    (hlive : ∀ id ∈ ids, ∃ edge, g.edges.get? id = some edge) (hnodup : ids.Nodup) :
    ∃ items, collect g mode ids = .ok items ∧ (items.map EdgeItem.edge).Nodup ∧
      ∀ item, item ∈ items ↔
        item.edge ∈ ids ∧ ∃ edge, g.edges.get? item.edge = some edge ∧
          mode item.edge edge = some item := by
  induction ids with
  | nil => exact ⟨[], rfl, List.nodup_nil, by simp⟩
  | cons id ids ih =>
      obtain ⟨hnotin, hnodup⟩ := List.nodup_cons.1 hnodup
      obtain ⟨edge, hedge⟩ := hlive id List.mem_cons_self
      obtain ⟨items, hrun, hitems, hmem⟩ :=
        ih (fun id' hid' => hlive id' (List.mem_cons_of_mem _ hid')) hnodup
      have hcollect : collect g mode (id :: ids) = .ok ((mode id edge).toList ++ items) := by
        simp only [collect, indexMap, hedge, hrun, Bind.bind, Except.bind]
        rfl
      refine ⟨_, hcollect, ?_, ?_⟩
      · cases hitem : mode id edge with
        | none => exact hitems
        | some item =>
            refine List.nodup_cons.2 ⟨?_, hitems⟩
            -- An item names its edge, and the edge occurs once.
            intro h
            obtain ⟨item', hitem', heq⟩ := List.mem_map.1 h
            rw [hmode hitem] at heq
            exact hnotin (heq ▸ ((hmem item').1 hitem').1)
      · intro item
        rw [List.mem_append, hmem, List.mem_cons, Option.mem_toList]
        constructor
        · rintro (h | ⟨hids, h⟩)
          · have hid := hmode h
            rw [hid]
            exact ⟨.inl rfl, edge, hedge, h⟩
          · exact ⟨.inr hids, h⟩
        · rintro ⟨hid | hids, edge', hedge', h⟩
          · rw [hid, hedge, Option.some.injEq] at hedge'
            rw [hid, ← hedge'] at h
            exact .inl h
          · exact .inr ⟨hids, edge', hedge', h⟩

end

/-- The edges an iterator lists, each once, with the node at the other end. -/
def Lists (result : Except Panic (List (EdgeItem NodeId EdgeId)))
    (P : EdgeId → NodeId → Prop) : Prop :=
  ∃ items, result = .ok items ∧ (items.map EdgeItem.edge).Nodup ∧
    ∀ e m, ⟨e, m⟩ ∈ items ↔ P e m

omit [DecidableEq NodeId] [DecidableEq EdgeId] [Identifier NodeId] [Identifier EdgeId] in
theorem Lists.congr {result : Except Panic (List (EdgeItem NodeId EdgeId))}
    {P Q : EdgeId → NodeId → Prop} (h : Lists result P) (hPQ : ∀ e m, P e m ↔ Q e m) :
    Lists result Q := by
  obtain ⟨items, hrun, hnodup, hmem⟩ := h
  exact ⟨items, hrun, hnodup, fun e m => (hmem e m).trans (hPQ e m)⟩

section

omit [Identifier NodeId] [Identifier EdgeId]

variable {g : OwningGraph NodeId EdgeId NodeData EdgeData} (order : HashOrder EdgeId) {n : NodeId}
  (hn : n ∈ g.nodes.keys)
  (hlive : ∀ e ∈ incident g.nodes n, ∃ edge, g.edges.get? e = some edge)

include hn

omit [DecidableEq EdgeId] in
theorem edgeIds_spec :
    ∃ ids, edgeIds order g n = .ok ids ∧ ids.Nodup ∧ ∀ e, e ∈ ids ↔ e ∈ incident g.nodes n := by
  obtain ⟨raw, hraw⟩ := HashMap.exists_of_mem_keys hn
  refine ⟨order.list raw.edges, ?_, order.nodup _, ?_⟩
  · simp only [edgeIds, indexMap, hraw, Bind.bind, Except.bind]
    rfl
  · intro e
    rw [order.mem_list, incident_of_get? hraw]

include hlive

/-- Each traversal lists what its mode selects of the incident edges. -/
theorem iter_lists (mode : EdgeId → RawEdge NodeId → Option (EdgeItem NodeId EdgeId))
    (hmode : ∀ {id edge item}, mode id edge = some item → item.edge = id) :
    Lists (do let ids ← edgeIds order g n; collect g mode ids) fun e m =>
      e ∈ incident g.nodes n ∧ ∃ edge, g.edges.get? e = some edge ∧ mode e edge = some ⟨e, m⟩ := by
  obtain ⟨ids, hids, hnodup, hmem⟩ := edgeIds_spec order hn
  obtain ⟨items, hrun, hitems, hiff⟩ := collect_spec (g := g) mode hmode
    (fun id hid => hlive id ((hmem id).1 hid)) hnodup
  refine ⟨items, ?_, hitems, ?_⟩
  · simp only [hids, Bind.bind, Except.bind, hrun]
  · intro e m
    rw [hiff, hmem]

/-- A mode that selects the edges with given ends lists those. -/
theorem iter_lists_ends (mode : EdgeId → RawEdge NodeId → Option (EdgeItem NodeId EdgeId))
    (ends : NodeId → RawEdge NodeId)
    (hmode : ∀ {e edge item}, mode e edge = some item ↔ item.edge = e ∧ edge = ends item.node) :
    Lists (do let ids ← edgeIds order g n; collect g mode ids) fun e m =>
      e ∈ incident g.nodes n ∧ g.edges.get? e = some (ends m) := by
  refine (iter_lists order hn hlive mode fun h => (hmode.1 h).1).congr ?_
  refine fun e m => and_congr_right fun _ => ?_
  constructor
  · rintro ⟨edge, hedge, h⟩
    rw [hedge, (hmode.1 h).2]
  · intro hedge
    exact ⟨ends m, hedge, hmode.2 ⟨rfl, rfl⟩⟩

/-- `children` lists the incident edges that leave the node, with their targets. -/
theorem children_lists :
    Lists (children order g n) fun e m =>
      e ∈ incident g.nodes n ∧ g.edges.get? e = some { fromId := n, toId := m } := by
  refine iter_lists_ends order hn hlive (childItem n) (fun m => { fromId := n, toId := m }) ?_
  rintro e ⟨u, v⟩ ⟨e', m⟩
  rw [childItem, Option.ite_none_right_eq_some]
  simp only [Option.some.injEq, EdgeItem.mk.injEq, RawEdge.mk.injEq]
  tauto

/-- `parents` lists the incident edges that enter the node, with their sources. -/
theorem parents_lists :
    Lists (parents order g n) fun e m =>
      e ∈ incident g.nodes n ∧ g.edges.get? e = some { fromId := m, toId := n } := by
  refine iter_lists_ends order hn hlive (parentItem n) (fun m => { fromId := m, toId := n }) ?_
  rintro e ⟨u, v⟩ ⟨e', m⟩
  rw [parentItem, Option.ite_none_right_eq_some]
  simp only [Option.some.injEq, EdgeItem.mk.injEq, RawEdge.mk.injEq]
  tauto

end

variable {g : OwningGraph NodeId EdgeId NodeData EdgeData}

/-- In a consistent graph `children` lists exactly the edges that leave the node. -/
theorem Consistent.children_spec (hg : g.Consistent) (order : HashOrder EdgeId) {n : NodeId}
    (hn : g.IsNode n) :
    Lists (children order g n) fun e m => g.edges.get? e = some { fromId := n, toId := m } := by
  refine (children_lists order (hg.mem_nodes hn) ?_).congr ?_
  · intro e he
    exact ((hg.incident_iff n e).1 he).imp fun _ h => h.1
  · intro e m
    rw [hg.incident_iff]
    exact ⟨And.right, fun hedge => ⟨⟨_, hedge, .inl rfl⟩, hedge⟩⟩

/-- And `parents` exactly the edges that enter it. -/
theorem Consistent.parents_spec (hg : g.Consistent) (order : HashOrder EdgeId) {n : NodeId}
    (hn : g.IsNode n) :
    Lists (parents order g n) fun e m => g.edges.get? e = some { fromId := m, toId := n } := by
  refine (parents_lists order (hg.mem_nodes hn) ?_).congr ?_
  · intro e he
    exact ((hg.incident_iff n e).1 he).imp fun _ h => h.1
  · intro e m
    rw [hg.incident_iff]
    exact ⟨And.right, fun hedge => ⟨⟨_, hedge, .inr rfl⟩, hedge⟩⟩

/-- A graph reached by calls on live ids, while the ids issued stay apart: it is consistent, no
further call on live ids panics, and traversal lists each edge exactly where it belongs. -/
theorem reachable_consistent (hg : Reachable g) (hids : g.IdsInjective) :
    g.Consistent ∧
      (∀ c : Call NodeId EdgeId NodeData EdgeData, c.Live g →
        ∃ out g', c.perform.run g = (.ok out, g')) ∧
      ∀ (order : HashOrder EdgeId) (n : NodeId), g.IsNode n →
        Lists (children order g n)
            (fun e m => g.edges.get? e = some { fromId := n, toId := m }) ∧
          Lists (parents order g n)
            (fun e m => g.edges.get? e = some { fromId := m, toId := n }) := by
  have hcons := hg.consistent hids
  refine ⟨hcons, ?_, ?_⟩
  · intro c hlive
    obtain ⟨out, g', hrun, -⟩ := hcons.perform c hlive
    exact ⟨out, g', hrun⟩
  · intro order n hn
    exact ⟨hcons.children_spec order hn, hcons.parents_spec order hn⟩

/-- One node and a self-loop on it, over ids that `#[derive(Identifier)]` generates. -/
theorem reachable_consistent_loop :
    ∃ g : OwningGraph (DerivedId .u32) (DerivedId .usize) Unit Unit,
      g.IsEdge ⟨0, by decide⟩ ∧ g.Consistent := by
  have hnode : Reachable ((Call.makeNode ()).perform.run
      (empty : OwningGraph (DerivedId .u32) (DerivedId .usize) Unit Unit)).2 :=
    .call .empty _ trivial
  have hloop := hnode.call (.makeEdge ⟨0, by decide⟩ ⟨0, by decide⟩ ())
    ⟨by unfold IsNode; decide, by unfold IsNode; decide⟩
  refine ⟨_, ?_, (reachable_consistent hloop (idsInjective_of_le ?_ ?_)).1⟩
  · unfold IsEdge
    decide
  · decide
  · decide

end OwningGraph
end Jstd
