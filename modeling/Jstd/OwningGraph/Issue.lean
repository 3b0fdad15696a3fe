import Jstd.OwningGraph.Merge
import Jstd.Registry.Runs

/-!
# Issued ids — when a counter outgrows the id type

`Registry::push`, `make_node` and `make_edge` convert a `usize` counter to an id and do not look at
what the conversion kept.  Up to the largest value of the backing integer the ids are new; the next
one of a `u32` backing is id 0 again, live or not.

Runs here take any calls, on live ids or dead ones, and go on after a panic.
-/

namespace Jstd
namespace OwningGraph

open Foundation

variable {NodeId EdgeId NodeData EdgeData : Type} [DecidableEq NodeId] [DecidableEq EdgeId]
  [Identifier NodeId] [Identifier EdgeId]

/-! ## Runs of any calls -/

/-- The graphs that any calls lead to from the empty graph, whether they return or panic. -/
inductive Arising :
    {NodeData EdgeData : Type} → OwningGraph NodeId EdgeId NodeData EdgeData → Prop
  | empty {NodeData EdgeData : Type} :
      Arising (empty : OwningGraph NodeId EdgeId NodeData EdgeData)
  | call {NodeData EdgeData : Type} {g : OwningGraph NodeId EdgeId NodeData EdgeData}
      (h : Arising g) (c : Call NodeId EdgeId NodeData EdgeData) :
      Arising (c.perform.run g).2
  | mergeNodes {NodeData EdgeData : Type} {g : OwningGraph NodeId EdgeId NodeData EdgeData}
      (h : Arising g) (order : HashOrder EdgeId) (keep remove : NodeId) (directEdge : EdgeId) :
      Arising ((OwningGraph.mergeNodes order keep remove directEdge).run g).2
  | addEdgeId {NodeData EdgeData : Type} {g : OwningGraph NodeId EdgeId NodeData EdgeData}
      (h : Arising g) (n : NodeId) (e : EdgeId) : Arising ((OwningGraph.addEdgeId n e).run g).2
  | removeEdgeId {NodeData EdgeData : Type} {g : OwningGraph NodeId EdgeId NodeData EdgeData}
      (h : Arising g) (n : NodeId) (e : EdgeId) : Arising ((OwningGraph.removeEdgeId n e).run g).2
  | setFrom {NodeData EdgeData : Type} {g : OwningGraph NodeId EdgeId NodeData EdgeData}
      (h : Arising g) (e : EdgeId) (n : NodeId) : Arising ((OwningGraph.setFrom e n).run g).2
  | reinterpret {NodeData EdgeData NewNodeData NewEdgeData σ : Type}
      {g : OwningGraph NodeId EdgeId NodeData EdgeData} (h : Arising g)
      (nodeOrder : HashOrder NodeId) (edgeOrder : HashOrder EdgeId)
      (nodeDataMap : NodeData → StateM σ NewNodeData)
      (edgeDataMap : EdgeData → StateM σ NewEdgeData) (s : σ) :
      Arising ((g.reinterpret nodeOrder edgeOrder nodeDataMap edgeDataMap).run s).1

/-! ## Live ids come from the counters -/

/-- Every live id was made from a value the counter has passed. -/
structure Minted (g : OwningGraph NodeId EdgeId NodeData EdgeData) : Prop where
  node_keys : g.nodes.keys = g.nodeData.keys
  node : ∀ {id}, g.IsNode id → ∃ k < g.nextNodeId, fromUsize k = id
  edge : ∀ {id}, g.IsEdge id → ∃ k < g.nextEdgeId, fromUsize k = id

omit [DecidableEq NodeId] [DecidableEq EdgeId] in
theorem empty_minted : (empty : OwningGraph NodeId EdgeId NodeData EdgeData).Minted where
  node_keys := rfl
  node h := absurd h (Finset.notMem_empty _)
  edge h := absurd h (Finset.notMem_empty _)

variable {g : OwningGraph NodeId EdgeId NodeData EdgeData}

omit [DecidableEq NodeId] [DecidableEq EdgeId] in
/-- The incident sets and the edge records may change as they like. -/
theorem Minted.congr (hg : g.Minted) {nodes : HashMap NodeId (RawNode EdgeId)}
    (edges : HashMap EdgeId (RawEdge NodeId)) (hkeys : nodes.keys = g.nodes.keys) :
    ({ g with nodes := nodes, edges := edges } :
      OwningGraph NodeId EdgeId NodeData EdgeData).Minted :=
  ⟨hkeys.trans hg.node_keys, hg.node, hg.edge⟩

/-- Writing an entry that is there. -/
theorem keys_insert_of_get? {K V : Type} [DecidableEq K] {m : HashMap K V} {k : K} {v : V}
    (h : m.get? k = some v) (w : V) : (m.insert k w).keys = m.keys := by
  rw [HashMap.keys_insert, Finset.insert_eq_of_mem (HashMap.mem_keys_of_get? h)]

theorem mem_keys_of_remove {K V : Type} [DecidableEq K] {m : HashMap K V} {k k' : K}
    (h : k' ∈ (m.remove k).keys) : k' ∈ m.keys := by
  rw [HashMap.keys_remove] at h
  exact Finset.mem_of_mem_erase h

theorem addEdgeId_minted (n : NodeId) (e : EdgeId) :
    Method.Keeps Minted
      (OwningGraph.addEdgeId n e :
        Method Panic (OwningGraph NodeId EdgeId NodeData EdgeData) Unit) := by
  intro g hg
  rw [OwningGraph.addEdgeId, Method.run_bind_get]
  cases hraw : g.nodes.get? n with
  | none => exact hg
  | some raw => exact hg.congr g.edges (keys_insert_of_get? hraw _)

theorem removeEdgeId_minted (n : NodeId) (e : EdgeId) :
    Method.Keeps Minted
      (OwningGraph.removeEdgeId n e :
        Method Panic (OwningGraph NodeId EdgeId NodeData EdgeData) Unit) := by
  intro g hg
  rw [OwningGraph.removeEdgeId, Method.run_bind_get]
  cases hraw : g.nodes.get? n with
  | none => exact hg
  | some raw => exact hg.congr g.edges (keys_insert_of_get? hraw _)

omit [DecidableEq NodeId] in
theorem setFrom_minted (e : EdgeId) (n : NodeId) :
    Method.Keeps Minted
      (OwningGraph.setFrom e n :
        Method Panic (OwningGraph NodeId EdgeId NodeData EdgeData) Unit) :=
  .bind .get fun _ => .bind (.liftM _) fun _ => .modify fun _ hg => hg.congr _ rfl

theorem removeEdge_minted (e : EdgeId) :
    Method.Keeps Minted
      (OwningGraph.removeEdge e :
        Method Panic (OwningGraph NodeId EdgeId NodeData EdgeData) Unit) :=
  .bind .get fun _ => .bind (.liftM _) fun edge =>
    .bind (.modify fun _ hg => hg.congr _ rfl) fun _ =>
      .bind (.modify fun _ hg =>
        { node_keys := hg.node_keys
          node := hg.node
          edge := fun h => hg.edge (mem_keys_of_remove h) })
        fun _ => .bind (removeEdgeId_minted edge.fromId e) fun _ =>
          removeEdgeId_minted edge.toId e

omit [DecidableEq EdgeId] in
theorem makeNode_minted (data : NodeData) :
    Method.Keeps Minted
      (OwningGraph.makeNode data :
        Method Panic (OwningGraph NodeId EdgeId NodeData EdgeData) NodeId) := by
  intro g hg
  refine ⟨?_, ?_, hg.edge⟩
  · show (g.nodes.insert _ _).keys = (g.nodeData.insert _ _).keys
    rw [HashMap.keys_insert, HashMap.keys_insert, hg.node_keys]
  · intro id hid
    have hid' : id ∈ (g.nodeData.insert (fromUsize g.nextNodeId) data).keys := hid
    rw [HashMap.keys_insert, Finset.mem_insert] at hid'
    show ∃ k < g.nextNodeId + 1, fromUsize k = id
    rcases hid' with rfl | hlive
    · exact ⟨g.nextNodeId, Nat.lt_succ_self _, rfl⟩
    · obtain ⟨k, hk, rfl⟩ := hg.node hlive
      exact ⟨k, Nat.lt_succ_of_lt hk, rfl⟩

theorem makeEdge_minted (u v : NodeId) (data : EdgeData) :
    Method.Keeps Minted
      (OwningGraph.makeEdge u v data :
        Method Panic (OwningGraph NodeId EdgeId NodeData EdgeData) EdgeId) := by
  intro g hg
  have hlink : Method.Keeps Minted (do
      OwningGraph.addEdgeId u (fromUsize g.nextEdgeId)
      OwningGraph.addEdgeId v (fromUsize g.nextEdgeId)
      return fromUsize g.nextEdgeId :
        Method Panic (OwningGraph NodeId EdgeId NodeData EdgeData) EdgeId) :=
    .bind (addEdgeId_minted u _) fun _ => .bind (addEdgeId_minted v _) fun _ => .pure _
  -- The edge is recorded before its endpoints learn of it.
  refine hlink { g with
    nextEdgeId := g.nextEdgeId + 1
    edges := g.edges.insert (fromUsize g.nextEdgeId) { fromId := u, toId := v }
    edgeData := g.edgeData.insert (fromUsize g.nextEdgeId) data } ⟨hg.node_keys, hg.node, ?_⟩
  intro id hid
  have hid' : id ∈ (g.edgeData.insert (fromUsize g.nextEdgeId) data).keys := hid
  rw [HashMap.keys_insert, Finset.mem_insert] at hid'
  show ∃ k < g.nextEdgeId + 1, fromUsize k = id
  rcases hid' with rfl | hlive
  · exact ⟨g.nextEdgeId, Nat.lt_succ_self _, rfl⟩
  · obtain ⟨k, hk, rfl⟩ := hg.edge hlive
    exact ⟨k, Nat.lt_succ_of_lt hk, rfl⟩

theorem removeNode_minted (order : HashOrder EdgeId) (n : NodeId) :
    Method.Keeps Minted
      (OwningGraph.removeNode order n :
        Method Panic (OwningGraph NodeId EdgeId NodeData EdgeData) Unit) := by
  refine .bind .get fun _ => .bind (.liftM _) fun raw =>
    .bind (.forEach removeEdge_minted (order.list raw.edges)) fun _ => ?_
  -- The two maps lose the node together.
  intro g hg
  rw [Method.run_bind_get]
  cases hraw : g.nodes.get? n with
  | none => exact hg
  | some raw =>
      refine ⟨?_, fun h => hg.node (mem_keys_of_remove h), hg.edge⟩
      show (g.nodes.remove n).keys = (g.nodeData.remove n).keys
      rw [HashMap.keys_remove, HashMap.keys_remove, hg.node_keys]

theorem Call.minted (c : Call NodeId EdgeId NodeData EdgeData) :
    Method.Keeps Minted c.perform := by
  cases c with
  | makeNode data => exact .map _ (makeNode_minted data)
  | makeEdge u v data => exact .map _ (makeEdge_minted u v data)
  | removeEdge e => exact .map _ (removeEdge_minted e)
  | editEdge e u v =>
      exact .map _ <| .bind .get fun _ => .bind (.liftM _) fun edge =>
        .bind (removeEdgeId_minted edge.fromId e) fun _ =>
          .bind (removeEdgeId_minted edge.toId e) fun _ =>
            .bind (.modify fun _ hg => hg.congr _ rfl) fun _ =>
              .bind (addEdgeId_minted u e) fun _ => addEdgeId_minted v e
  | removeNode order n => exact .map _ (removeNode_minted order n)

theorem mergeNodes_minted (order : HashOrder EdgeId) (keep remove : NodeId) (directEdge : EdgeId) :
    Method.Keeps Minted
      (OwningGraph.mergeNodes order keep remove directEdge :
        Method Panic (OwningGraph NodeId EdgeId NodeData EdgeData) Unit) := by
  have hnode : ∀ n : NodeId, Method.Keeps Minted
      (getNode n : Method Panic (OwningGraph NodeId EdgeId NodeData EdgeData) Unit) :=
    fun n => .bind .get fun _ => .bind (.liftM _) fun _ => .pure ()
  have hrehome : ∀ e : EdgeId, Method.Keeps Minted
      (rehome keep remove e : Method Panic (OwningGraph NodeId EdgeId NodeData EdgeData) Unit) :=
    fun e => .bind (.bind .get fun _ => .bind (.liftM _) fun _ => .pure ()) fun _ =>
      .bind (setFrom_minted e keep) fun _ => .bind (hnode keep) fun _ =>
        .bind (addEdgeId_minted keep e) fun _ => .bind (hnode remove) fun _ =>
          removeEdgeId_minted remove e
  exact .bind (hnode keep) fun _ => .bind (removeEdgeId_minted keep directEdge) fun _ =>
    .bind (hnode remove) fun _ => .bind (removeEdgeId_minted remove directEdge) fun _ =>
      .bind (hnode remove) fun _ => .bind .get fun _ => .bind (.liftM _) fun outgoing =>
        .forEach hrehome (outgoing.map EdgeItem.edge)

/-- Every live id of every run was made from a value its counter has passed. -/
theorem Arising.minted {NodeData EdgeData : Type}
    {g : OwningGraph NodeId EdgeId NodeData EdgeData} (h : Arising g) : g.Minted := by
  induction h with
  | empty => exact empty_minted
  | call _ c ih => exact c.minted _ ih
  | mergeNodes _ order keep remove directEdge ih =>
      exact mergeNodes_minted order keep remove directEdge _ ih
  | addEdgeId _ n e ih => exact addEdgeId_minted n e _ ih
  | removeEdgeId _ n e ih => exact removeEdgeId_minted n e _ ih
  | setFrom _ e n ih => exact setFrom_minted e n _ ih
  | @reinterpret _ _ _ _ _ g _ nodeOrder edgeOrder nodeDataMap edgeDataMap s ih =>
      refine ⟨?_, fun hid => ih.node
          ((reinterpret_isNode nodeOrder edgeOrder nodeDataMap edgeDataMap s).1 hid),
        fun hid => ih.edge
          ((reinterpret_isEdge nodeOrder edgeOrder nodeDataMap edgeDataMap s).1 hid)⟩
      ext id
      exact (Finset.ext_iff.1 ih.node_keys id).trans
        (reinterpret_isNode nodeOrder edgeOrder nodeDataMap edgeDataMap s).symm

/-! ## The ids make_node and make_edge issue -/

/-- Making a node issues an id no node has, or panics with the graph as it was. -/
def NodeIssuesOwn (g : OwningGraph NodeId EdgeId NodeData EdgeData) (data : NodeData) : Prop :=
  (∃ id g', (OwningGraph.makeNode data).run g = (.ok id, g') ∧ ¬ g.IsNode id) ∨
    ∃ err, (OwningGraph.makeNode data).run g = (.error err, g)

/-- Making an edge issues an id no edge has, or panics with the graph as it was. -/
def EdgeIssuesOwn (g : OwningGraph NodeId EdgeId NodeData EdgeData) (u v : NodeId)
    (data : EdgeData) : Prop :=
  (∃ id g', (OwningGraph.makeEdge u v data).run g = (.ok id, g') ∧ ¬ g.IsEdge id) ∨
    ∃ err, (OwningGraph.makeEdge u v data).run g = (.error err, g)

omit [DecidableEq EdgeId] [Identifier EdgeId] in
theorem makeNode_run (data : NodeData) :
    (OwningGraph.makeNode data).run g = (.ok (fromUsize g.nextNodeId), { g with
      nextNodeId := g.nextNodeId + 1
      nodes := g.nodes.insert (fromUsize g.nextNodeId) { edges := ∅ }
      nodeData := g.nodeData.insert (fromUsize g.nextNodeId) data }) :=
  rfl

theorem Minted.makeEdge_run (hg : g.Minted) {u v : NodeId} (hu : g.IsNode u) (hv : g.IsNode v)
    (data : EdgeData) :
    ∃ g', (OwningGraph.makeEdge u v data).run g = (.ok (fromUsize g.nextEdgeId), g') := by
  have hu' : u ∈ g.nodes.keys := hg.node_keys ▸ hu
  have hv' : v ∈ g.nodes.keys := hg.node_keys ▸ hv
  obtain ⟨nodes, hrun, -⟩ := makeEdge_spec hu' hv' data
  exact ⟨_, hrun⟩

end OwningGraph

open Foundation OwningGraph

variable {b c : Backing} {T NodeData EdgeData : Type}

/-- Up to the largest value of the backing integer, a counter makes ids it has not made before. -/
theorem DerivedId.fromUsize_ne {k n : Nat} (hk : k < n) (hn : n ≤ b.max) :
    (fromUsize k : DerivedId b) ≠ fromUsize n := by
  intro heq
  have hraw : k % (b.max + 1) = n % (b.max + 1) := congrArg DerivedId.raw heq
  rw [Nat.mod_eq_of_lt (by omega), Nat.mod_eq_of_lt (by omega)] at hraw
  omega

/-- The counters of a graph are naturals.  A `usize` one that wraps issues the same ids. -/
theorem DerivedId.fromUsize_mod (n : Nat) :
    (fromUsize (n % (usizeMax + 1)) : DerivedId b) = fromUsize n := by
  have hdvd : b.max + 1 ∣ usizeMax + 1 := by
    cases b with
    | usize => exact Nat.dvd_refl _
    | u32 => exact Nat.pow_dvd_pow 2 (by decide : 32 ≤ 64)
  show DerivedId.ofNat b _ = DerivedId.ofNat b n
  simp only [DerivedId.ofNat, Nat.mod_mod_of_dvd n hdvd]

/-- In every run, a push or a call that makes a node or an edge issues an id of its own while its
counter fits the backing integer. -/
theorem issued_ids_apart :
    (∀ r : Registry (DerivedId b) T, r.Reachable → r.len ≤ b.max → ∀ v, r.IssuesOwn v) ∧
      ∀ g : OwningGraph (DerivedId b) (DerivedId c) NodeData EdgeData, Arising g →
        (g.nextNodeId ≤ b.max → ∀ data, g.NodeIssuesOwn data) ∧
          (g.nextEdgeId ≤ c.max → ∀ u v, g.IsNode u → g.IsNode v → ∀ data,
            g.EdgeIssuesOwn u v data) := by
  refine ⟨?_, ?_⟩
  · intro r hr hlen v
    exact hr.inv.issuesOwn (DerivedId.roundTrips_iff.2 hlen) v
  · intro g hg
    have hmint := hg.minted
    refine ⟨?_, ?_⟩
    · intro hnext data
      refine .inl ⟨_, _, makeNode_run data, fun hlive => ?_⟩
      obtain ⟨k, hk, heq⟩ := hmint.node hlive
      exact DerivedId.fromUsize_ne hk hnext heq
    · intro hnext u v hu hv data
      obtain ⟨g', hrun⟩ := hmint.makeEdge_run hu hv data
      refine .inl ⟨_, g', hrun, fun hlive => ?_⟩
      obtain ⟨k, hk, heq⟩ := hmint.edge hlive
      exact DerivedId.fromUsize_ne hk hnext heq

theorem diamondGraph_arising : Arising diamondGraph :=
  .call (.call (.call (.call (.call (.call (.call (.call (.call .empty _) _) _) _) _) _) _) _) _

/-- A registry of two elements, and the diamond with its four nodes and five edges. -/
theorem issued_ids_apart_diamondGraph :
    let r : Registry (DerivedId .u32) Nat :=
      (Registry.step false (.push 8) (Registry.step false (.push 7) Registry.empty).2).2
    r.flat = [7, 8] ∧ r.IssuesOwn 9 ∧ diamondGraph.NodeIssuesOwn () ∧
      diamondGraph.EdgeIssuesOwn (.ofNat .u32 3) (.ofNat .u32 0) () := by
  intro r
  have h := @issued_ids_apart .u32 .usize Nat Unit Unit
  have hr : r.Reachable := .step (.step .empty _ _) _ _
  obtain ⟨hnode, hedge⟩ := h.2 diamondGraph diamondGraph_arising
  refine ⟨by decide, h.1 r hr (by decide) 9, hnode (by decide) (), ?_⟩
  exact hedge (by decide) _ _ (by unfold IsNode; decide) (by unfold IsNode; decide) ()

/-- A run that makes nodes and removes none reaches every value of the counter. -/
theorem exists_arising_nodes (data : NodeData) (n : Nat) :
    ∃ g : OwningGraph (DerivedId b) (DerivedId c) NodeData EdgeData, Arising g ∧
      g.nextNodeId = n ∧ ∀ k < n, g.IsNode (fromUsize k) := by
  induction n with
  | zero => exact ⟨OwningGraph.empty, .empty, rfl, fun k hk => absurd hk (Nat.not_lt_zero k)⟩
  | succ n ih =>
      obtain ⟨g, hg, rfl, hlive⟩ := ih
      refine ⟨_, hg.call (.makeNode data), rfl, fun k hk => ?_⟩
      show fromUsize k ∈ (g.nodeData.insert (fromUsize g.nextNodeId) data).keys
      rw [HashMap.keys_insert, Finset.mem_insert]
      rcases Nat.lt_succ_iff_lt_or_eq.1 hk with hlt | rfl
      · exact .inr (hlive k hlt)
      · exact .inl rfl

/-- After `2^32` pushes, or `2^32` nodes, id 0 of a `u32` backing is issued a second time. -/
theorem issued_ids_wrap_u32 :
    (∃ r : Registry (DerivedId .u32) Nat, r.Reachable ∧ r.flat = List.replicate (2 ^ 32) 7 ∧
      ¬ r.IssuesOwn 8) ∧
      ∃ g : OwningGraph (DerivedId .u32) (DerivedId .usize) Unit Unit, Arising g ∧
        g.nextNodeId = 2 ^ 32 ∧ ¬ g.NodeIssuesOwn () := by
  have hmax : Backing.u32.max + 1 = 2 ^ 32 := rfl
  -- The counter wraps, so that identifier `2 ^ 32` is the first one again.
  have hzero : (fromUsize (2 ^ 32) : DerivedId .u32) = fromUsize 0 := by
    show DerivedId.ofNat .u32 (2 ^ 32) = DerivedId.ofNat .u32 0
    simp only [DerivedId.ofNat, hmax, Nat.mod_self, Nat.zero_mod]
  refine ⟨?_, ?_⟩
  · obtain ⟨r, hr, hflat⟩ : ∃ r : Registry (DerivedId .u32) Nat, r.Reachable ∧
        r.flat = List.replicate (2 ^ 32) 7 :=
      Registry.exists_reachable_replicate 7 (2 ^ 32) (by rw [usizeMax]; omega)
    have hlen : r.len = 2 ^ 32 := by rw [← hr.inv.flat_length, hflat, List.length_replicate]
    have hold : r.flat[intoUsize (fromUsize r.len : DerivedId .u32)]? = some 7 := by
      rw [hlen, hzero, hflat, List.getElem?_replicate]
      rfl
    -- The push succeeds, and its identifier reads the first element.
    obtain ⟨r', hrun, hindex⟩ := hr.inv.push_of_wrapped (by rw [hlen, usizeMax]; omega) hold 8
    refine ⟨r, hr, hflat, ?_⟩
    rintro (⟨id, r'', hrun', hown⟩ | ⟨e, hrun'⟩)
    · rw [hrun] at hrun'
      cases hrun'
      have := hown false
      rw [hindex] at this
      cases this
    · rw [hrun] at hrun'
      cases hrun'
  · obtain ⟨g, hg, hnext, hlive⟩ :
        ∃ g : OwningGraph (DerivedId .u32) (DerivedId .usize) Unit Unit, Arising g ∧
          g.nextNodeId = 2 ^ 32 ∧ ∀ k < 2 ^ 32, g.IsNode (fromUsize k) :=
      exists_arising_nodes () (2 ^ 32)
    refine ⟨g, hg, hnext, ?_⟩
    rintro (⟨id, g', hrun, hfresh⟩ | ⟨e, hrun⟩)
    · rw [makeNode_run] at hrun
      cases hrun
      refine hfresh ?_
      rw [hnext, hzero]
      exact hlive 0 (by omega)
    · rw [makeNode_run] at hrun
      cases hrun

end Jstd
