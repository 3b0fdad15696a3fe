import Mathlib.Data.Set.Function
import Jstd.OwningGraph.Basic

/-!
# The four maps of OwningGraph stay in step

`Consistent` says what the maps owe each other.  Each operation is described once by what it does to
the maps and to the incident sets; that it keeps `Consistent` then follows without looking at the
operation again, for self-loops and overlapping endpoints like for any others.
-/

namespace Jstd
namespace OwningGraph

open Foundation

variable {NodeId EdgeId NodeData EdgeData : Type} [DecidableEq NodeId]

/-! ## Incident sets -/

/-- The incident set of a node; a node that does not exist has none. -/
def incident (nodes : HashMap NodeId (RawNode EdgeId)) (n : NodeId) : Finset EdgeId :=
  match nodes.get? n with
  | some raw => raw.edges
  | none => ∅

theorem incident_of_get? {nodes : HashMap NodeId (RawNode EdgeId)} {n : NodeId}
    {raw : RawNode EdgeId} (h : nodes.get? n = some raw) : incident nodes n = raw.edges := by
  simp [incident, h]

theorem incident_insert (nodes : HashMap NodeId (RawNode EdgeId)) (n m : NodeId)
    (raw : RawNode EdgeId) :
    incident (nodes.insert n raw) m = if m = n then raw.edges else incident nodes m := by
  unfold incident
  rw [HashMap.get?_insert]
  by_cases h : m = n
  · simp [h]
  · simp [h]

theorem incident_remove (nodes : HashMap NodeId (RawNode EdgeId)) (n m : NodeId) :
    incident (nodes.remove n) m = if m = n then ∅ else incident nodes m := by
  unfold incident
  rw [HashMap.get?_remove]
  by_cases h : m = n
  · simp [h]
  · simp [h]

variable [DecidableEq EdgeId]

theorem addEdgeId_spec {g : OwningGraph NodeId EdgeId NodeData EdgeData} {n : NodeId}
    (hn : n ∈ g.nodes.keys) (e : EdgeId) :
    ∃ nodes, (addEdgeId n e).run g = (.ok (), { g with nodes := nodes }) ∧
      nodes.keys = g.nodes.keys ∧
      ∀ m e', e' ∈ incident nodes m ↔ e' ∈ incident g.nodes m ∨ (m = n ∧ e' = e) := by
  obtain ⟨raw, hraw⟩ := HashMap.exists_of_mem_keys hn
  refine ⟨g.nodes.insert n { edges := insert e raw.edges }, ?_, ?_, ?_⟩
  · simp only [addEdgeId, Method.run_bind_get, hraw, unwrap, Method.run_bind_liftM_ok,
      Method.run_modify]
  · rw [HashMap.keys_insert, Finset.insert_eq_of_mem hn]
  · intro m e'
    rw [incident_insert]
    by_cases h : m = n
    · subst h
      simp [incident_of_get? hraw, or_comm]
    · simp [h]

theorem removeEdgeId_spec {g : OwningGraph NodeId EdgeId NodeData EdgeData} {n : NodeId}
    (hn : n ∈ g.nodes.keys) (e : EdgeId) :
    ∃ nodes, (removeEdgeId n e).run g = (.ok (), { g with nodes := nodes }) ∧
      nodes.keys = g.nodes.keys ∧
      ∀ m e', e' ∈ incident nodes m ↔ e' ∈ incident g.nodes m ∧ ¬ (m = n ∧ e' = e) := by
  obtain ⟨raw, hraw⟩ := HashMap.exists_of_mem_keys hn
  refine ⟨g.nodes.insert n { edges := raw.edges.erase e }, ?_, ?_, ?_⟩
  · simp only [removeEdgeId, Method.run_bind_get, hraw, unwrap, Method.run_bind_liftM_ok,
      Method.run_modify]
  · rw [HashMap.keys_insert, Finset.insert_eq_of_mem hn]
  · intro m e'
    rw [incident_insert]
    by_cases h : m = n
    · subst h
      simp [incident_of_get? hraw, and_comm]
    · simp [h]

/-- An edge leaves the incident sets of both its endpoints. -/
theorem unlink_spec {g : OwningGraph NodeId EdgeId NodeData EdgeData} {u v : NodeId}
    (hu : u ∈ g.nodes.keys) (hv : v ∈ g.nodes.keys) (e : EdgeId) :
    ∃ nodes, (removeEdgeId u e).run g = (.ok (), { g with nodes := nodes }) ∧
      ∃ nodes', (removeEdgeId v e).run { g with nodes := nodes } =
          (.ok (), { g with nodes := nodes' }) ∧
        nodes'.keys = g.nodes.keys ∧
        ∀ m e', e' ∈ incident nodes' m ↔
          e' ∈ incident g.nodes m ∧ ¬ ((m = u ∨ m = v) ∧ e' = e) := by
  obtain ⟨nodes, hrun, hkeys, hinc⟩ := removeEdgeId_spec hu e
  obtain ⟨nodes', hrun', hkeys', hinc'⟩ :=
    removeEdgeId_spec (g := { g with nodes := nodes }) (by rw [hkeys]; exact hv) e
  refine ⟨nodes, hrun, nodes', hrun', hkeys'.trans hkeys, ?_⟩
  intro m e'
  rw [hinc', hinc]
  tauto

/-- An edge joins the incident sets of both its endpoints. -/
theorem link_spec {g : OwningGraph NodeId EdgeId NodeData EdgeData} {u v : NodeId}
    (hu : u ∈ g.nodes.keys) (hv : v ∈ g.nodes.keys) (e : EdgeId) :
    ∃ nodes, (addEdgeId u e).run g = (.ok (), { g with nodes := nodes }) ∧
      ∃ nodes', (addEdgeId v e).run { g with nodes := nodes } =
          (.ok (), { g with nodes := nodes' }) ∧
        nodes'.keys = g.nodes.keys ∧
        ∀ m e', e' ∈ incident nodes' m ↔
          e' ∈ incident g.nodes m ∨ ((m = u ∨ m = v) ∧ e' = e) := by
  obtain ⟨nodes, hrun, hkeys, hinc⟩ := addEdgeId_spec hu e
  obtain ⟨nodes', hrun', hkeys', hinc'⟩ :=
    addEdgeId_spec (g := { g with nodes := nodes }) (by rw [hkeys]; exact hv) e
  refine ⟨nodes, hrun, nodes', hrun', hkeys'.trans hkeys, ?_⟩
  intro m e'
  rw [hinc', hinc]
  tauto

omit [DecidableEq EdgeId] in
theorem mem_keys_of_incident {nodes : HashMap NodeId (RawNode EdgeId)} {n : NodeId} {e : EdgeId}
    (h : e ∈ incident nodes n) : n ∈ nodes.keys := by
  unfold incident at h
  split at h
  · rename_i raw hraw
    exact HashMap.mem_keys_of_get? hraw
  · exact absurd h (Finset.notMem_empty e)

/-- `remove_edge` takes the edge out of its two maps and of its endpoints' sets. -/
theorem removeEdge_spec {g : OwningGraph NodeId EdgeId NodeData EdgeData} {e : EdgeId}
    {edge : RawEdge NodeId} (he : g.edges.get? e = some edge) (hu : edge.fromId ∈ g.nodes.keys)
    (hv : edge.toId ∈ g.nodes.keys) :
    ∃ nodes, (removeEdge e).run g = (.ok (), { g with
        edges := g.edges.remove e, edgeData := g.edgeData.remove e, nodes := nodes }) ∧
      nodes.keys = g.nodes.keys ∧
      ∀ m e', e' ∈ incident nodes m ↔
        e' ∈ incident g.nodes m ∧ ¬ ((m = edge.fromId ∨ m = edge.toId) ∧ e' = e) := by
  obtain ⟨nodes, hrun, nodes', hrun', hkeys, hinc⟩ := unlink_spec
    (g := { g with edges := g.edges.remove e, edgeData := g.edgeData.remove e }) hu hv e
  refine ⟨nodes', ?_, hkeys, hinc⟩
  simp only [OwningGraph.removeEdge, Method.run_bind_get, he, unwrap, Method.run_bind_liftM_ok,
    Method.run_bind_modify]
  rw [Method.run_bind_of_ok hrun]
  exact hrun'

/-- `remove_node` takes out the edges in the node's set, and then the node.  All it needs is that
those edges are live, and that both ends of each are there. -/
theorem removeNode_spec {g : OwningGraph NodeId EdgeId NodeData EdgeData}
    (order : HashOrder EdgeId) {n : NodeId} (hn : n ∈ g.nodes.keys)
    (hlive : ∀ e ∈ incident g.nodes n, ∃ edge, g.edges.get? e = some edge ∧
      edge.fromId ∈ g.nodes.keys ∧ edge.toId ∈ g.nodes.keys) :
    ∃ g', (removeNode order n).run g = (.ok (), g') ∧
      g'.nodes.keys = g.nodes.keys.erase n ∧ g'.nodeData = g.nodeData.remove n ∧
      (∀ e, g'.edges.get? e = if e ∈ incident g.nodes n then none else g.edges.get? e) ∧
      (∀ e, e ∈ g'.edgeData.keys ↔ e ∈ g.edgeData.keys ∧ e ∉ incident g.nodes n) ∧
      (∀ m e, e ∈ incident g'.nodes m ↔ m ≠ n ∧ e ∈ incident g.nodes m ∧
        ¬ (e ∈ incident g.nodes n ∧
          ∃ edge, g.edges.get? e = some edge ∧ (m = edge.fromId ∨ m = edge.toId))) ∧
      g'.nextNodeId = g.nextNodeId ∧ g'.nextEdgeId = g.nextEdgeId := by
  obtain ⟨raw, hraw⟩ := HashMap.exists_of_mem_keys hn
  have hedges : ∀ e, e ∈ order.list raw.edges ↔ e ∈ incident g.nodes n := by
    intro e
    rw [incident_of_get? hraw]
    exact order.mem_list
  -- The worklist was read before the loop; what it names stays live until its turn.
  obtain ⟨g₁, hloop, hdata, hkeys, hleft, hleft', hinc, hnext, hnext'⟩ := Method.forEach_induction
    OwningGraph.removeEdge
    (fun done (s : OwningGraph NodeId EdgeId NodeData EdgeData) =>
      s.nodeData = g.nodeData ∧ s.nodes.keys = g.nodes.keys ∧
        (∀ e, s.edges.get? e = if e ∈ done then none else g.edges.get? e) ∧
        (∀ e, e ∈ s.edgeData.keys ↔ e ∈ g.edgeData.keys ∧ e ∉ done) ∧
        (∀ m e, e ∈ incident s.nodes m ↔ e ∈ incident g.nodes m ∧ ¬ (e ∈ done ∧
          ∃ edge, g.edges.get? e = some edge ∧ (m = edge.fromId ∨ m = edge.toId))) ∧
        s.nextNodeId = g.nextNodeId ∧ s.nextEdgeId = g.nextEdgeId)
    (order.list raw.edges) (s := g) ⟨rfl, rfl, by simp, by simp, by simp, rfl, rfl⟩ (by
      rintro done e rest s hsplit ⟨hdata, hkeys, hleft, hleft', hinc, hnext, hnext'⟩
      have hnodup := order.nodup raw.edges
      rw [hsplit] at hnodup
      have hdone : e ∉ done := by
        intro hmem
        exact (List.nodup_append.1 hnodup).2.2 e hmem e List.mem_cons_self rfl
      obtain ⟨edge, hedge, hu, hv⟩ := hlive e ((hedges e).1 (by rw [hsplit]; simp))
      obtain ⟨nodes, hrun, hkeys', hinc'⟩ := removeEdge_spec
        (show s.edges.get? e = some edge by rw [hleft, if_neg hdone, hedge])
        (by rw [hkeys]; exact hu) (by rw [hkeys]; exact hv)
      refine ⟨_, hrun, hdata, hkeys'.trans hkeys, ?_, ?_, ?_, hnext, hnext'⟩
      · intro e'
        show (s.edges.remove e).get? e' = _
        rw [HashMap.get?_remove, hleft]
        by_cases h : e' = e
        · simp [h]
        · simp [h]
      · intro e'
        show e' ∈ (s.edgeData.remove e).keys ↔ _
        rw [HashMap.keys_remove, Finset.mem_erase, hleft', List.mem_append, List.mem_singleton]
        tauto
      · intro m e'
        rw [hinc', hinc, List.mem_append, List.mem_singleton]
        by_cases h : e' = e
        · subst h
          simp only [hedge, Option.some.injEq, exists_eq_left', hdone]
          tauto
        · simp only [h, and_false, not_false_eq_true, and_true, or_false])
  have hn₁ : n ∈ g₁.nodes.keys := by
    rw [hkeys]
    exact hn
  obtain ⟨raw₁, hraw₁⟩ := HashMap.exists_of_mem_keys hn₁
  refine ⟨{ g₁ with nodes := g₁.nodes.remove n, nodeData := g₁.nodeData.remove n }, ?_, ?_,
    by rw [hdata], ?_, ?_, ?_, hnext, hnext'⟩
  · simp only [OwningGraph.removeNode, Method.run_bind_get, indexMap, hraw,
      Method.run_bind_liftM_ok]
    rw [Method.run_bind_of_ok hloop]
    simp only [Method.run_bind_get, hraw₁, unwrap, Method.run_bind_liftM_ok,
      Method.run_bind_modify, Method.run_modify]
  · show (g₁.nodes.remove n).keys = _
    rw [HashMap.keys_remove, hkeys]
  · intro e
    show g₁.edges.get? e = _
    rw [hleft]
    simp only [hedges]
  · intro e
    show e ∈ g₁.edgeData.keys ↔ _
    rw [hleft', hedges]
  · intro m e
    show e ∈ incident (g₁.nodes.remove n) m ↔ _
    rw [incident_remove]
    by_cases h : m = n
    · simp [h]
    · rw [if_neg h, hinc, hedges]
      exact (and_iff_right h).symm

/-! ## The invariant -/

variable [Identifier NodeId] [Identifier EdgeId]

/-- What the four maps and the two counters owe each other. -/
structure Consistent (g : OwningGraph NodeId EdgeId NodeData EdgeData) : Prop where
  node_keys : g.nodes.keys = g.nodeData.keys
  edge_keys : g.edges.keys = g.edgeData.keys
  endpoints : ∀ {e : EdgeId} {edge : RawEdge NodeId}, g.edges.get? e = some edge →
    g.IsNode edge.fromId ∧ g.IsNode edge.toId
  node_issued : ∀ {n : NodeId}, g.IsNode n → ∃ k < g.nextNodeId, n = fromUsize k
  edge_issued : ∀ {e : EdgeId}, g.IsEdge e → ∃ k < g.nextEdgeId, e = fromUsize k
  /-- An edge is in the incident set of a node if and only if it is live and the node is one of its
  endpoints. -/
  incident_iff : ∀ (n : NodeId) (e : EdgeId), e ∈ incident g.nodes n ↔
    ∃ edge, g.edges.get? e = some edge ∧ (n = edge.fromId ∨ n = edge.toId)

variable {g : OwningGraph NodeId EdgeId NodeData EdgeData}

theorem empty_consistent : (empty : OwningGraph NodeId EdgeId NodeData EdgeData).Consistent where
  node_keys := rfl
  edge_keys := rfl
  endpoints := by
    intro e edge h
    simp [empty] at h
  node_issued := by
    intro n h
    simp [IsNode, empty, HashMap.mem_keys_iff] at h
  edge_issued := by
    intro e h
    simp [IsEdge, empty, HashMap.mem_keys_iff] at h
  incident_iff := by
    intro n e
    simp [incident, empty]

theorem Consistent.exists_edge (hg : g.Consistent) {e : EdgeId} (he : g.IsEdge e) :
    ∃ edge, g.edges.get? e = some edge :=
  HashMap.exists_of_mem_keys (by rw [hg.edge_keys]; exact he)

theorem Consistent.mem_nodes (hg : g.Consistent) {n : NodeId} (hn : g.IsNode n) :
    n ∈ g.nodes.keys := by
  rw [hg.node_keys]
  exact hn

/-- The next id of a counter is not in use while the identifier type keeps the ids issued apart. -/
theorem Consistent.fresh_node (hg : g.Consistent)
    (hinj : Set.InjOn (fromUsize : Nat → NodeId) {k | k < g.nextNodeId + 1}) :
    ¬ g.IsNode (fromUsize g.nextNodeId) := by
  intro h
  obtain ⟨k, hk, heq⟩ := hg.node_issued h
  have : g.nextNodeId = k :=
    hinj (Nat.lt_succ_self g.nextNodeId) (Nat.lt_succ_of_lt hk) heq
  omega

theorem Consistent.fresh_edge (hg : g.Consistent)
    (hinj : Set.InjOn (fromUsize : Nat → EdgeId) {k | k < g.nextEdgeId + 1}) :
    ¬ g.IsEdge (fromUsize g.nextEdgeId) := by
  intro h
  obtain ⟨k, hk, heq⟩ := hg.edge_issued h
  have : g.nextEdgeId = k :=
    hinj (Nat.lt_succ_self g.nextEdgeId) (Nat.lt_succ_of_lt hk) heq
  omega

/-! ## The operations -/

theorem Consistent.makeNode (hg : g.Consistent) (data : NodeData) :
    ∃ g', (makeNode data).run g = (.ok (fromUsize g.nextNodeId), g') ∧
      g'.nextNodeId = g.nextNodeId + 1 ∧ g'.nextEdgeId = g.nextEdgeId ∧
      (¬ g.IsNode (fromUsize g.nextNodeId) → g'.Consistent) := by
  refine ⟨_, rfl, rfl, rfl, fun hfresh => ?_⟩
  -- The id is not in use, so no edge can name it yet.
  have hnone : incident g.nodes (fromUsize g.nextNodeId) = ∅ := by
    unfold incident
    cases h : g.nodes.get? (fromUsize g.nextNodeId) with
    | none => rfl
    | some raw =>
        have hmem := HashMap.mem_keys_of_get? h
        rw [hg.node_keys] at hmem
        exact absurd hmem hfresh
  constructor
  · show (g.nodes.insert _ _).keys = (g.nodeData.insert _ _).keys
    rw [HashMap.keys_insert, HashMap.keys_insert, hg.node_keys]
  · exact hg.edge_keys
  · intro e edge h
    obtain ⟨hfrom, hto⟩ := hg.endpoints h
    simp only [IsNode, HashMap.keys_insert, Finset.mem_insert]
    exact ⟨.inr hfrom, .inr hto⟩
  · intro n hn
    simp only [IsNode, HashMap.keys_insert, Finset.mem_insert] at hn
    rcases hn with rfl | hn
    · exact ⟨g.nextNodeId, Nat.lt_succ_self _, rfl⟩
    · obtain ⟨k, hk, heq⟩ := hg.node_issued hn
      exact ⟨k, Nat.lt_succ_of_lt hk, heq⟩
  · exact hg.edge_issued
  · intro n e
    show e ∈ incident (g.nodes.insert _ _) n ↔ _
    rw [incident_insert, ← hg.incident_iff]
    by_cases h : n = fromUsize g.nextNodeId
    · rw [if_pos h, h, hnone]
    · rw [if_neg h]

omit [Identifier NodeId] in
/-- `make_edge` writes its two entries and joins the incident sets of both endpoints, whether or not
the id is in use. -/
theorem makeEdge_spec {u v : NodeId} (hu : u ∈ g.nodes.keys) (hv : v ∈ g.nodes.keys)
    (data : EdgeData) :
    ∃ nodes, (OwningGraph.makeEdge u v data).run g = (.ok (fromUsize g.nextEdgeId), { g with
        nextEdgeId := g.nextEdgeId + 1
        edges := g.edges.insert (fromUsize g.nextEdgeId) { fromId := u, toId := v }
        edgeData := g.edgeData.insert (fromUsize g.nextEdgeId) data
        nodes := nodes }) ∧
      nodes.keys = g.nodes.keys ∧
      ∀ m e', e' ∈ incident nodes m ↔
        e' ∈ incident g.nodes m ∨ ((m = u ∨ m = v) ∧ e' = fromUsize g.nextEdgeId) := by
  obtain ⟨nodes, hrun, nodes', hrun', hkeys, hinc⟩ := link_spec
    (g := { g with
      nextEdgeId := g.nextEdgeId + 1
      edges := g.edges.insert (fromUsize g.nextEdgeId) { fromId := u, toId := v }
      edgeData := g.edgeData.insert (fromUsize g.nextEdgeId) data })
    hu hv (fromUsize g.nextEdgeId)
  refine ⟨nodes', ?_, hkeys, hinc⟩
  simp only [OwningGraph.makeEdge, Method.run_bind_get, Method.run_bind_modify]
  rw [Method.run_bind_of_ok hrun, Method.run_bind_of_ok hrun']
  rfl

theorem Consistent.makeEdge (hg : g.Consistent) {u v : NodeId} (hu : g.IsNode u)
    (hv : g.IsNode v) (data : EdgeData) :
    ∃ g', (makeEdge u v data).run g = (.ok (fromUsize g.nextEdgeId), g') ∧
      g'.nextNodeId = g.nextNodeId ∧ g'.nextEdgeId = g.nextEdgeId + 1 ∧
      (¬ g.IsEdge (fromUsize g.nextEdgeId) → g'.Consistent) := by
  obtain ⟨nodes', hrun, hkeys, hinc⟩ := makeEdge_spec (hg.mem_nodes hu) (hg.mem_nodes hv) data
  refine ⟨_, hrun, rfl, rfl, fun hfresh => ?_⟩
  -- The number is fresh, so no live edge is overwritten and no incidence is lost.
  have hlookup : g.edges.get? (fromUsize g.nextEdgeId) = none := by
    cases h : g.edges.get? (fromUsize g.nextEdgeId) with
    | none => rfl
    | some edge =>
        have hmem := HashMap.mem_keys_of_get? h
        rw [hg.edge_keys] at hmem
        exact absurd hmem hfresh
  constructor
  · exact hkeys.trans hg.node_keys
  · show (g.edges.insert _ _).keys = (g.edgeData.insert _ _).keys
    rw [HashMap.keys_insert, HashMap.keys_insert, hg.edge_keys]
  · intro e edge h
    change (g.edges.insert _ _).get? e = some edge at h
    rw [HashMap.get?_insert] at h
    split at h
    · cases h
      exact ⟨hu, hv⟩
    · exact hg.endpoints h
  · exact hg.node_issued
  · intro e he
    simp only [IsEdge, HashMap.keys_insert, Finset.mem_insert] at he
    rcases he with rfl | he
    · exact ⟨g.nextEdgeId, Nat.lt_succ_self _, rfl⟩
    · obtain ⟨k, hk, heq⟩ := hg.edge_issued he
      exact ⟨k, Nat.lt_succ_of_lt hk, heq⟩
  · intro n e
    show e ∈ incident nodes' n ↔ ∃ edge, (g.edges.insert _ _).get? e = some edge ∧ _
    rw [hinc, hg.incident_iff, HashMap.get?_insert]
    by_cases h : e = fromUsize g.nextEdgeId
    · subst h
      simp [hlookup]
    · simp [h]

theorem Consistent.removeEdge (hg : g.Consistent) {e : EdgeId} {edge : RawEdge NodeId}
    (he : g.edges.get? e = some edge) :
    ∃ g', (removeEdge e).run g = (.ok (), g') ∧ g'.Consistent ∧ g'.nodeData = g.nodeData ∧
      g'.edges = g.edges.remove e ∧ g'.nextNodeId = g.nextNodeId ∧
      g'.nextEdgeId = g.nextEdgeId := by
  obtain ⟨hu, hv⟩ := hg.endpoints he
  obtain ⟨nodes', hrun, hkeys, hinc⟩ :=
    removeEdge_spec he (hg.mem_nodes hu) (hg.mem_nodes hv)
  refine ⟨_, hrun, ?_, rfl, rfl, rfl, rfl⟩
  constructor
  · exact hkeys.trans hg.node_keys
  · show (g.edges.remove _).keys = (g.edgeData.remove _).keys
    rw [HashMap.keys_remove, HashMap.keys_remove, hg.edge_keys]
  · intro e' edge' h
    change (g.edges.remove e).get? e' = some edge' at h
    rw [HashMap.get?_remove] at h
    split at h
    · cases h
    · exact hg.endpoints h
  · exact hg.node_issued
  · intro e' he'
    simp only [IsEdge, HashMap.keys_remove, Finset.mem_erase] at he'
    exact hg.edge_issued he'.2
  · intro n e'
    show e' ∈ incident nodes' n ↔ ∃ edge, (g.edges.remove e).get? e' = some edge ∧ _
    rw [hinc]
    show e' ∈ incident g.nodes n ∧ _ ↔ _
    rw [hg.incident_iff, HashMap.get?_remove]
    -- The removed edge leaves every incident set; the others stay where they are.
    by_cases h : e' = e
    · subst h
      simp [he]
      tauto
    · simp [h]

/-- `edit_edge` moves the edge, whether or not its old and new endpoints overlap. -/
theorem Consistent.editEdge (hg : g.Consistent) {e : EdgeId} {edge : RawEdge NodeId}
    (he : g.edges.get? e = some edge) {u v : NodeId} (hu : g.IsNode u) (hv : g.IsNode v) :
    ∃ g', (editEdge e u v).run g = (.ok (), g') ∧ g'.Consistent ∧
      g'.nextNodeId = g.nextNodeId ∧ g'.nextEdgeId = g.nextEdgeId := by
  obtain ⟨hu₀, hv₀⟩ := hg.endpoints he
  obtain ⟨nodes₀, hrun₀, nodes₁, hrun₁, hkeys₁, hinc₁⟩ :=
    unlink_spec (hg.mem_nodes hu₀) (hg.mem_nodes hv₀) e
  obtain ⟨nodes₂, hrun₂, nodes₃, hrun₃, hkeys₃, hinc₃⟩ := link_spec
    (g := { g with nodes := nodes₁, edges := g.edges.insert e { fromId := u, toId := v } })
    (by show u ∈ nodes₁.keys; rw [hkeys₁]; exact hg.mem_nodes hu)
    (by show v ∈ nodes₁.keys; rw [hkeys₁]; exact hg.mem_nodes hv) e
  refine ⟨{ g with nodes := nodes₃, edges := g.edges.insert e { fromId := u, toId := v } },
    ?_, ?_, rfl, rfl⟩
  · simp only [OwningGraph.editEdge, Method.run_bind_get, he, unwrap, Method.run_bind_liftM_ok]
    rw [Method.run_bind_of_ok hrun₀, Method.run_bind_of_ok hrun₁, Method.run_bind_modify,
      Method.run_bind_of_ok hrun₂]
    exact hrun₃
  · have hlive : e ∈ g.edges.keys := HashMap.mem_keys_of_get? he
    constructor
    · exact (hkeys₃.trans hkeys₁).trans hg.node_keys
    · show (g.edges.insert _ _).keys = g.edgeData.keys
      rw [HashMap.keys_insert, Finset.insert_eq_of_mem hlive, hg.edge_keys]
    · intro e' edge' h
      change (g.edges.insert _ _).get? e' = some edge' at h
      rw [HashMap.get?_insert] at h
      split at h
      · cases h
        exact ⟨hu, hv⟩
      · exact hg.endpoints h
    · exact hg.node_issued
    · exact hg.edge_issued
    · intro n e'
      show e' ∈ incident nodes₃ n ↔ ∃ edge, (g.edges.insert _ _).get? e' = some edge ∧ _
      rw [hinc₃]
      show e' ∈ incident nodes₁ n ∨ _ ↔ _
      -- The old ends are unlinked before the new ones are linked; they may coincide.
      rw [hinc₁, hg.incident_iff, HashMap.get?_insert]
      by_cases h : e' = e
      · subst h
        simp [he]
        tauto
      · simp [h]

/-- In a consistent graph `remove_node` takes out the edges the node is an endpoint of. -/
theorem Consistent.removeNode (hg : g.Consistent) (order : HashOrder EdgeId) {n : NodeId}
    (hn : g.IsNode n) :
    ∃ g', (removeNode order n).run g = (.ok (), g') ∧ g'.Consistent ∧
      (∀ e, g'.edges.get? e = if e ∈ incident g.nodes n then none else g.edges.get? e) ∧
      g'.nodeData = g.nodeData.remove n ∧ g'.nextNodeId = g.nextNodeId ∧
      g'.nextEdgeId = g.nextEdgeId := by
  obtain ⟨g', hrun, hkeys, hdata, hleft, hleft', hinc, hnext, hnext'⟩ :=
    removeNode_spec order (hg.mem_nodes hn) (by
      intro e he
      obtain ⟨edge, hedge, -⟩ := (hg.incident_iff n e).1 he
      obtain ⟨hu, hv⟩ := hg.endpoints hedge
      exact ⟨edge, hedge, hg.mem_nodes hu, hg.mem_nodes hv⟩)
  -- An edge that is left has neither end at the node.
  have hends : ∀ {e edge}, g'.edges.get? e = some edge →
      g.edges.get? e = some edge ∧ n ≠ edge.fromId ∧ n ≠ edge.toId := by
    intro e edge h
    rw [hleft] at h
    split at h
    · cases h
    · rename_i hnot
      refine ⟨h, ?_, ?_⟩
      · intro heq
        exact hnot ((hg.incident_iff n e).2 ⟨edge, h, .inl heq⟩)
      · intro heq
        exact hnot ((hg.incident_iff n e).2 ⟨edge, h, .inr heq⟩)
  have hnode : ∀ m, g'.IsNode m ↔ m ≠ n ∧ g.IsNode m := by
    intro m
    rw [IsNode, hdata, HashMap.keys_remove, Finset.mem_erase, IsNode]
  refine ⟨g', hrun, ?_, hleft, hdata, hnext, hnext'⟩
  constructor
  · rw [hkeys, hdata, HashMap.keys_remove, hg.node_keys]
  · ext e
    rw [hleft', ← hg.edge_keys, HashMap.mem_keys_iff, HashMap.mem_keys_iff, hleft]
    by_cases h : e ∈ incident g.nodes n
    · simp [h]
    · simp [h]
  · intro e edge h
    obtain ⟨hedge, hfrom, hto⟩ := hends h
    rw [hnode, hnode]
    exact ⟨⟨hfrom.symm, (hg.endpoints hedge).1⟩, ⟨hto.symm, (hg.endpoints hedge).2⟩⟩
  · intro m hm
    rw [hnext]
    exact hg.node_issued ((hnode m).1 hm).2
  · intro e he
    rw [hnext']
    exact hg.edge_issued ((hleft' e).1 he).1
  · intro m e
    rw [hinc]
    constructor
    · rintro ⟨hm, he, hnot⟩
      obtain ⟨edge, hedge, hend⟩ := (hg.incident_iff m e).1 he
      refine ⟨edge, ?_, hend⟩
      rw [hleft, if_neg fun h => hnot ⟨h, edge, hedge, hend⟩, hedge]
    · rintro ⟨edge, h, hend⟩
      obtain ⟨hedge, hfrom, hto⟩ := hends h
      refine ⟨?_, (hg.incident_iff m e).2 ⟨edge, hedge, hend⟩, ?_⟩
      · rintro rfl
        exact hend.elim hfrom hto
      · rintro ⟨hmem, -⟩
        rw [hleft, if_pos hmem] at h
        cases h

section

variable {NewNodeData NewEdgeData σ : Type} (nodeOrder : HashOrder NodeId)
  (edgeOrder : HashOrder EdgeId) (nodeDataMap : NodeData → StateM σ NewNodeData)
  (edgeDataMap : EdgeData → StateM σ NewEdgeData) (s : σ)

omit [Identifier NodeId] [Identifier EdgeId] in
theorem reinterpret_isNode {n : NodeId} :
    ((g.reinterpret nodeOrder edgeOrder nodeDataMap edgeDataMap).run s).1.IsNode n ↔
      g.IsNode n := by
  refine (HashMap.mem_keys_mapValues nodeDataMap g.nodeData n _ s).trans ?_
  rw [nodeOrder.mem_list, and_self_iff]
  rfl

omit [Identifier NodeId] [Identifier EdgeId] in
theorem reinterpret_isEdge {e : EdgeId} :
    ((g.reinterpret nodeOrder edgeOrder nodeDataMap edgeDataMap).run s).1.IsEdge e ↔
      g.IsEdge e := by
  refine (HashMap.mem_keys_mapValues edgeDataMap g.edgeData e _ _).trans ?_
  rw [edgeOrder.mem_list, and_self_iff]
  rfl

/-- `reinterpret` keeps everything but the payloads. -/
theorem Consistent.reinterpret (hg : g.Consistent) :
    ((g.reinterpret nodeOrder edgeOrder nodeDataMap edgeDataMap).run s).1.Consistent where
  node_keys := by
    ext n
    show n ∈ g.nodes.keys ↔ _
    rw [hg.node_keys]
    exact (reinterpret_isNode nodeOrder edgeOrder nodeDataMap edgeDataMap s).symm
  edge_keys := by
    ext e
    show e ∈ g.edges.keys ↔ _
    rw [hg.edge_keys]
    exact (reinterpret_isEdge nodeOrder edgeOrder nodeDataMap edgeDataMap s).symm
  endpoints := by
    intro e edge h
    rw [reinterpret_isNode, reinterpret_isNode]
    exact hg.endpoints h
  node_issued := by
    intro n hn
    rw [reinterpret_isNode] at hn
    exact hg.node_issued hn
  edge_issued := by
    intro e he
    rw [reinterpret_isEdge] at he
    exact hg.edge_issued he
  incident_iff := hg.incident_iff

end

end OwningGraph
end Jstd
