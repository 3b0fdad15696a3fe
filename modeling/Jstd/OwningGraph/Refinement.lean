import Jstd.OwningGraph.Handles
import Jstd.OwningGraph.Issue

/-!
# OwningGraph refines a labelled graph

A labelled graph and two counters say what each method is for: `Edit.apply` refuses an edit that
names a node or an edge that is not there, and knows nothing of incident sets, of the two maps for
each kind of id, or of the order in which a hash set yields its ids.

The stored graph panics exactly where the labelled graph refuses, returns the same ids, and shows
the labelled graph after every edit, for graphs whose payload types change on the way as well.
-/

namespace Jstd
namespace OwningGraph

open Foundation

variable {NodeId EdgeId NodeData EdgeData : Type} [DecidableEq NodeId] [DecidableEq EdgeId]

/-! ## The abstract machine -/

/-- A labelled graph, and the numbers of the next ids. -/
structure Plan (NodeId EdgeId NodeData EdgeData : Type) where
  graph : LabelledGraph NodeId EdgeId NodeData EdgeData
  nextNodeId : Nat
  nextEdgeId : Nat

/-- The methods that mutate, and writes to a payload through a handle. -/
inductive Edit (NodeId EdgeId NodeData EdgeData : Type)
  | call (c : Call NodeId EdgeId NodeData EdgeData)
  | writeNode (id : NodeId) (f : NodeData → NodeData)
  | writeEdge (id : EdgeId) (f : EdgeData → EdgeData)

/-- What an edit returns; a write says whether there was a handle. -/
inductive Outcome (NodeId EdgeId : Type)
  | issued (out : Issued NodeId EdgeId)
  | found (b : Bool)

namespace Plan

variable [Identifier NodeId] [Identifier EdgeId]

def empty : Plan NodeId EdgeId NodeData EdgeData where
  graph := .empty
  nextNodeId := 0
  nextEdgeId := 0

/-- The payloads mapped. -/
def map {NewNodeData NewEdgeData : Type} (f : NodeData → NewNodeData) (h : EdgeData → NewEdgeData)
    (a : Plan NodeId EdgeId NodeData EdgeData) : Plan NodeId EdgeId NewNodeData NewEdgeData where
  graph := a.graph.map f h
  nextNodeId := a.nextNodeId
  nextEdgeId := a.nextEdgeId

/-- An edge put between two nodes, unless one of them is not there. -/
def link (a : Plan NodeId EdgeId NodeData EdgeData) (e : EdgeId) (link : Link NodeId EdgeData) :
    Option (LabelledGraph NodeId EdgeId NodeData EdgeData) :=
  if h : (a.graph.node link.source).isSome ∧ (a.graph.node link.target).isSome then
    some (a.graph.putEdge e link (by
      rintro n (rfl | rfl)
      · exact h.1
      · exact h.2))
  else
    none

/-- What a call is for; `none` when it names an id that is not there. -/
def call (a : Plan NodeId EdgeId NodeData EdgeData) :
    Call NodeId EdgeId NodeData EdgeData →
      Option (Issued NodeId EdgeId × Plan NodeId EdgeId NodeData EdgeData)
  | .makeNode data =>
      let id : NodeId := fromUsize a.nextNodeId
      some (.node id,
        { a with graph := a.graph.putNode id data, nextNodeId := a.nextNodeId + 1 })
  | .makeEdge u v data =>
      let id : EdgeId := fromUsize a.nextEdgeId
      (a.link id ⟨u, v, data⟩).map fun graph =>
        (.edge id, { a with graph := graph, nextEdgeId := a.nextEdgeId + 1 })
  | .removeEdge e =>
      (a.graph.edge e).map fun _ => (.nothing, { a with graph := a.graph.eraseEdge e })
  | .editEdge e u v =>
      (a.graph.edge e).bind fun old =>
        (a.link e ⟨u, v, old.label⟩).map fun graph => (.nothing, { a with graph := graph })
  | .removeNode _ n =>
      (a.graph.node n).map fun _ => (.nothing, { a with graph := a.graph.eraseNode n })

/-- What an edit is for. -/
def apply (a : Plan NodeId EdgeId NodeData EdgeData) :
    Edit NodeId EdgeId NodeData EdgeData →
      Option (Outcome NodeId EdgeId × Plan NodeId EdgeId NodeData EdgeData)
  | .call c => (a.call c).map fun p => (.issued p.1, p.2)
  | .writeNode n f =>
      match a.graph.node n with
      | none => some (.found false, a)
      | some data => some (.found true, { a with graph := a.graph.putNode n (f data) })
  | .writeEdge e f =>
      match h : a.graph.edge e with
      | none => some (.found false, a)
      | some old => some (.found true, { a with
          graph := a.graph.putEdge e { old with label := f old.label } fun n hn =>
            a.graph.ends h n hn })

end Plan

variable [Identifier NodeId] [Identifier EdgeId]

/-- What the source does. -/
def Edit.perform : Edit NodeId EdgeId NodeData EdgeData →
    Method Panic (OwningGraph NodeId EdgeId NodeData EdgeData) (Outcome NodeId EdgeId)
  | .call c => Outcome.issued <$> c.perform
  | .writeNode n f => Outcome.found <$> OwningGraph.writeNode n f
  | .writeEdge e f => Outcome.found <$> OwningGraph.writeEdge e f

/-- Runs of edits from the empty graph, side by side; `reinterpret` may come in between. -/
inductive Follows : {NodeData EdgeData : Type} → OwningGraph NodeId EdgeId NodeData EdgeData →
    Plan NodeId EdgeId NodeData EdgeData → Prop
  | empty {NodeData EdgeData : Type} :
      Follows (OwningGraph.empty : OwningGraph NodeId EdgeId NodeData EdgeData) .empty
  | edit {NodeData EdgeData : Type} {g : OwningGraph NodeId EdgeId NodeData EdgeData}
      {a a' : Plan NodeId EdgeId NodeData EdgeData} (h : Follows g a)
      (c : Edit NodeId EdgeId NodeData EdgeData) {out : Outcome NodeId EdgeId}
      (happly : a.apply c = some (out, a')) : Follows (c.perform.run g).2 a'
  | reinterpret {NodeData EdgeData NewNodeData NewEdgeData : Type}
      {g : OwningGraph NodeId EdgeId NodeData EdgeData}
      {a : Plan NodeId EdgeId NodeData EdgeData} (h : Follows g a)
      (nodeOrder : HashOrder NodeId) (edgeOrder : HashOrder EdgeId)
      (f : NodeData → NewNodeData) (k : EdgeData → NewEdgeData) :
      Follows ((g.reinterpret nodeOrder edgeOrder (fun d => (pure (f d) : StateM Unit _))
        (fun d => (pure (k d) : StateM Unit _))).run ()).1 (a.map f k)

/-- The stored graph holds the labelled one, and the counters are those of the plan. -/
structure Implements (g : OwningGraph NodeId EdgeId NodeData EdgeData)
    (a : Plan NodeId EdgeId NodeData EdgeData) : Prop where
  holds : g.Holds a.graph
  nextNodeId : a.nextNodeId = g.nextNodeId
  nextEdgeId : a.nextEdgeId = g.nextEdgeId

/-! ## Where the source panics -/

section

omit [Identifier NodeId] [Identifier EdgeId]

variable {g : OwningGraph NodeId EdgeId NodeData EdgeData} {n u v : NodeId} {e : EdgeId}

theorem get?_of_notMem {K V : Type} [DecidableEq K] {m : HashMap K V} {k : K} (h : k ∉ m.keys) :
    m.get? k = none := by
  rw [Option.eq_none_iff_forall_not_mem]
  intro v hv
  exact h (HashMap.mem_keys_of_get? hv)

theorem addEdgeId_dead (hn : n ∉ g.nodes.keys) :
    (addEdgeId n e).run g = (.error .unwrapNone, g) := by
  simp only [addEdgeId, Method.run_bind_get, get?_of_notMem hn, unwrap,
    Method.run_bind_liftM_error]

/-- An edge cannot be linked to two nodes unless both are there: one call or the other panics. -/
theorem link_dead (h : ¬ (u ∈ g.nodes.keys ∧ v ∈ g.nodes.keys)) :
    ∃ p g', (addEdgeId u e).run g = (.error p, g') ∨
      ∃ g₁, (addEdgeId u e).run g = (.ok (), g₁) ∧ (addEdgeId v e).run g₁ = (.error p, g') := by
  by_cases hu : u ∈ g.nodes.keys
  · obtain ⟨nodes, hrun, hkeys, -⟩ := addEdgeId_spec hu e
    have hv : v ∉ nodes.keys := by
      rw [hkeys]
      exact fun hv => h ⟨hu, hv⟩
    exact ⟨_, _, .inr ⟨_, hrun, addEdgeId_dead hv⟩⟩
  · exact ⟨_, _, .inl (addEdgeId_dead hu)⟩

theorem makeEdge_dead [Identifier EdgeId] (h : ¬ (u ∈ g.nodes.keys ∧ v ∈ g.nodes.keys))
    (data : EdgeData) : ∃ p g', (OwningGraph.makeEdge u v data).run g = (.error p, g') := by
  obtain ⟨p, g', hrun | ⟨g₁, hrun, hrun'⟩⟩ := link_dead (u := u) (v := v)
    (e := fromUsize g.nextEdgeId)
    (g := { g with
      nextEdgeId := g.nextEdgeId + 1
      edges := g.edges.insert (fromUsize g.nextEdgeId) { fromId := u, toId := v }
      edgeData := g.edgeData.insert (fromUsize g.nextEdgeId) data }) h
  · refine ⟨p, g', ?_⟩
    simp only [OwningGraph.makeEdge, Method.run_bind_get, Method.run_bind_modify]
    exact Method.run_bind_of_error hrun _
  · refine ⟨p, g', ?_⟩
    simp only [OwningGraph.makeEdge, Method.run_bind_get, Method.run_bind_modify]
    rw [Method.run_bind_of_ok hrun]
    exact Method.run_bind_of_error hrun' _

theorem removeEdge_dead (he : e ∉ g.edges.keys) :
    (OwningGraph.removeEdge e).run g = (.error .unwrapNone, g) := by
  simp only [OwningGraph.removeEdge, Method.run_bind_get, get?_of_notMem he, unwrap,
    Method.run_bind_liftM_error]

theorem editEdge_dead (he : e ∉ g.edges.keys) :
    (OwningGraph.editEdge e u v).run g = (.error .unwrapNone, g) := by
  simp only [OwningGraph.editEdge, Method.run_bind_get, get?_of_notMem he, unwrap,
    Method.run_bind_liftM_error]

theorem removeNode_dead (order : HashOrder EdgeId) (hn : n ∉ g.nodes.keys) :
    (OwningGraph.removeNode order n).run g = (.error .missingKey, g) := by
  simp only [OwningGraph.removeNode, Method.run_bind_get, get?_of_notMem hn, indexMap,
    Method.run_bind_liftM_error]

/-- By the time the new ends turn out to be missing, the edge has left its old ones. -/
theorem editEdge_dead_end {edge : RawEdge NodeId} (he : g.edges.get? e = some edge)
    (hu₀ : edge.fromId ∈ g.nodes.keys) (hv₀ : edge.toId ∈ g.nodes.keys)
    (h : ¬ (u ∈ g.nodes.keys ∧ v ∈ g.nodes.keys)) :
    ∃ p g', (OwningGraph.editEdge e u v).run g = (.error p, g') := by
  obtain ⟨nodes₀, hrun₀, nodes₁, hrun₁, hkeys₁, -⟩ := unlink_spec hu₀ hv₀ e
  obtain ⟨p, g', h'⟩ := link_dead (u := u) (v := v) (e := e)
    (g := { g with nodes := nodes₁, edges := g.edges.insert e { fromId := u, toId := v } })
    (by rw [← hkeys₁] at h; exact h)
  refine ⟨p, g', ?_⟩
  simp only [OwningGraph.editEdge, Method.run_bind_get, he, unwrap, Method.run_bind_liftM_ok]
  rw [Method.run_bind_of_ok hrun₀, Method.run_bind_of_ok hrun₁, Method.run_bind_modify]
  rcases h' with hrun | ⟨g₁, hrun, hrun'⟩
  · exact Method.run_bind_of_error hrun _
  · rw [Method.run_bind_of_ok hrun]
    exact hrun'

/-! ## What the maps are afterwards -/

theorem editEdge_spec {edge : RawEdge NodeId} (he : g.edges.get? e = some edge)
    (hu₀ : edge.fromId ∈ g.nodes.keys) (hv₀ : edge.toId ∈ g.nodes.keys)
    (hu : u ∈ g.nodes.keys) (hv : v ∈ g.nodes.keys) :
    ∃ nodes, (OwningGraph.editEdge e u v).run g = (.ok (), { g with
      nodes := nodes, edges := g.edges.insert e { fromId := u, toId := v } }) := by
  obtain ⟨nodes₀, hrun₀, nodes₁, hrun₁, hkeys₁, -⟩ := unlink_spec hu₀ hv₀ e
  obtain ⟨nodes₂, hrun₂, nodes₃, hrun₃, -⟩ := link_spec
    (g := { g with nodes := nodes₁, edges := g.edges.insert e { fromId := u, toId := v } })
    (hkeys₁ ▸ hu) (hkeys₁ ▸ hv) e
  refine ⟨nodes₃, ?_⟩
  simp only [OwningGraph.editEdge, Method.run_bind_get, he, unwrap, Method.run_bind_liftM_ok]
  rw [Method.run_bind_of_ok hrun₀, Method.run_bind_of_ok hrun₁, Method.run_bind_modify,
    Method.run_bind_of_ok hrun₂]
  exact hrun₃

/-- No edge has other data than in `g`. -/
def EdgeDataFrom (g s : OwningGraph NodeId EdgeId NodeData EdgeData) : Prop :=
  ∀ e b, s.edgeData.get? e = some b → g.edgeData.get? e = some b

theorem removeEdgeId_edgeData (n : NodeId) (e : EdgeId) :
    Method.Keeps (EdgeDataFrom g) (removeEdgeId n e) :=
  .bind .get fun _ => .bind (.liftM _) fun _ => .modify fun _ h => h

theorem removeEdge_edgeData (e : EdgeId) :
    Method.Keeps (EdgeDataFrom g) (OwningGraph.removeEdge e) := by
  refine .bind .get fun _ => .bind (.liftM _) fun edge => .bind (.modify fun _ h => h) fun _ =>
    .bind (.modify ?_) fun _ => .bind (removeEdgeId_edgeData edge.fromId e) fun _ =>
      removeEdgeId_edgeData edge.toId e
  intro s hs e' b hb
  change (s.edgeData.remove e).get? e' = some b at hb
  rw [HashMap.get?_remove] at hb
  split at hb
  · cases hb
  · exact hs e' b hb

theorem removeNode_edgeData (order : HashOrder EdgeId) (n : NodeId) :
    Method.Keeps (EdgeDataFrom g) (OwningGraph.removeNode order n) :=
  .bind .get fun _ => .bind (.liftM _) fun raw =>
    .bind (.forEach removeEdge_edgeData (order.list raw.edges)) fun _ => .bind .get fun _ =>
      .bind (.liftM _) fun _ => .bind (.modify fun _ h => h) fun _ => .modify fun _ h => h

end

/-! ## One edit -/

variable {g g' : OwningGraph NodeId EdgeId NodeData EdgeData}
  {a a' : Plan NodeId EdgeId NodeData EdgeData} {n u v : NodeId} {e : EdgeId}

/-- The method does on `g` what the plan asks for: it panics on a refusal, and else returns the
same and implements the plan that comes next, as long as the ids stay apart. -/
def Does {α β : Type} (m : Method Panic (OwningGraph NodeId EdgeId NodeData EdgeData) β)
    (out : α → β) (g : OwningGraph NodeId EdgeId NodeData EdgeData)
    (next : Option (α × Plan NodeId EdgeId NodeData EdgeData)) : Prop :=
  match next with
  | none => ∃ p g', m.run g = (.error p, g')
  | some (x, a') => ∃ g', m.run g = (.ok (out x), g') ∧ (g'.IdsInjective → g'.Implements a')

theorem Does.map {α β γ δ : Type}
    {m : Method Panic (OwningGraph NodeId EdgeId NodeData EdgeData) β} {out : α → β}
    {next : Option (α × Plan NodeId EdgeId NodeData EdgeData)} (h : Does m out g next)
    (f : β → δ) (k : α → γ) (out' : γ → δ) (hout : ∀ x, out' (k x) = f (out x)) :
    Does (f <$> m) out' g (next.map fun p => (k p.1, p.2)) := by
  cases next with
  | none =>
      obtain ⟨p, g', hrun⟩ := h
      exact ⟨p, g', by rw [Method.run_map, hrun, Except.map]⟩
  | some next =>
      obtain ⟨g', hrun, himpl⟩ := h
      exact ⟨g', by rw [Method.run_map, hrun, Except.map, hout], himpl⟩

namespace Implements

theorem mem_nodes_iff (h : g.Implements a) : n ∈ g.nodes.keys ↔ (a.graph.node n).isSome := by
  rw [h.holds.consistent.node_keys]
  exact h.holds.isNode_iff

theorem mem_edges_iff (h : g.Implements a) : e ∈ g.edges.keys ↔ (a.graph.edge e).isSome := by
  rw [h.holds.consistent.edge_keys]
  exact h.holds.isEdge_iff

theorem makeNode (h : g.Implements a) (data : NodeData) :
    Does (Call.makeNode data).perform id g (a.call (.makeNode data)) := by
  obtain ⟨g', hrun, -, -, hcons⟩ := h.holds.consistent.makeNode data
  have hg' := (Prod.mk.inj (hrun.symm.trans (makeNode_run data))).2
  refine ⟨g', ?_, fun hids => ?_⟩
  · rw [Call.perform, Method.run_map, hrun, Except.map, h.nextNodeId]
    rfl
  · have hinj := hids.node
    subst hg'
    refine ⟨⟨hcons (h.holds.consistent.fresh_node hinj), fun n => ?_, h.holds.edge⟩, ?_,
      h.nextEdgeId⟩
    · change (if n = fromUsize a.nextNodeId then some data else a.graph.node n) =
        (g.nodeData.insert (fromUsize g.nextNodeId) data).get? n
      rw [HashMap.get?_insert, h.nextNodeId, h.holds.node]
    · exact congrArg (· + 1) h.nextNodeId

theorem link_eq_some (h : g.Implements a) (hu : g.IsNode u) (hv : g.IsNode v) (e : EdgeId)
    (b : EdgeData) : ∃ hends, a.link e ⟨u, v, b⟩ = some (a.graph.putEdge e ⟨u, v, b⟩ hends) := by
  have hnodes : (a.graph.node u).isSome ∧ (a.graph.node v).isSome :=
    ⟨h.holds.isNode_iff.1 hu, h.holds.isNode_iff.1 hv⟩
  exact ⟨_, dif_pos hnodes⟩

omit [DecidableEq NodeId] [Identifier NodeId] [Identifier EdgeId] in
theorem link_eq_none (hnot : ¬ ((a.graph.node u).isSome ∧ (a.graph.node v).isSome)) (e : EdgeId)
    (b : EdgeData) : a.link e ⟨u, v, b⟩ = none :=
  dif_neg hnot

theorem makeEdge (h : g.Implements a) (u v : NodeId) (data : EdgeData) :
    Does (Call.makeEdge u v data).perform id g (a.call (.makeEdge u v data)) := by
  by_cases hnodes : (a.graph.node u).isSome ∧ (a.graph.node v).isSome
  · have hu : g.IsNode u := h.holds.isNode_iff.2 hnodes.1
    have hv : g.IsNode v := h.holds.isNode_iff.2 hnodes.2
    obtain ⟨g', hrun, -, -, hcons⟩ := h.holds.consistent.makeEdge hu hv data
    obtain ⟨nodes, hrun', -⟩ := makeEdge_spec (h.holds.consistent.mem_nodes hu)
      (h.holds.consistent.mem_nodes hv) data
    have hg' := (Prod.mk.inj (hrun.symm.trans hrun')).2
    obtain ⟨hends, hlink⟩ := h.link_eq_some hu hv (fromUsize a.nextEdgeId) data
    simp only [Plan.call, hlink, Option.map_some]
    refine ⟨g', ?_, fun hids => ?_⟩
    · rw [Call.perform, Method.run_map, hrun, Except.map, h.nextEdgeId]
      rfl
    · have hinj := hids.edge
      subst hg'
      refine ⟨⟨hcons (h.holds.consistent.fresh_edge hinj), h.holds.node, fun e => ?_⟩,
        h.nextNodeId, congrArg (· + 1) h.nextEdgeId⟩
      -- Both maps get the entry, and keep the others.
      change (if e = fromUsize a.nextEdgeId then some ⟨u, v, data⟩ else a.graph.edge e) =
        ((g.edges.insert (fromUsize g.nextEdgeId) _).get? e).bind fun raw =>
          ((g.edgeData.insert (fromUsize g.nextEdgeId) data).get? e).map _
      rw [HashMap.get?_insert, HashMap.get?_insert, h.nextEdgeId, h.holds.edge]
      by_cases he : e = fromUsize g.nextEdgeId
      · rw [if_pos he, if_pos he, if_pos he]
        rfl
      · rw [if_neg he, if_neg he, if_neg he]
        rfl
  · simp only [Plan.call, link_eq_none hnodes, Option.map_none]
    rw [← h.mem_nodes_iff, ← h.mem_nodes_iff] at hnodes
    obtain ⟨p, g', hrun⟩ := makeEdge_dead hnodes data
    exact ⟨p, g', by rw [Call.perform, Method.run_map, hrun, Except.map]⟩

theorem removeEdge (h : g.Implements a) (e : EdgeId) :
    Does (Call.removeEdge e).perform id g (a.call (.removeEdge e)) := by
  cases hlink : a.graph.edge e with
  | none =>
      -- `remove_edge` unwraps the record of the edge, which is not there.
      simp only [Plan.call, hlink, Option.map_none]
      have he : e ∉ g.edges.keys := by
        rw [h.mem_edges_iff, hlink]
        exact Bool.false_ne_true
      exact ⟨_, g, by rw [Call.perform, Method.run_map, removeEdge_dead he, Except.map]⟩
  | some link =>
      obtain ⟨u, v, b⟩ := link
      -- The maps lose the entry, and the incident sets of its two ends lose the id.
      simp only [Plan.call, hlink, Option.map_some]
      have hraw := h.holds.edge_eq_some_iff.1 ⟨b, hlink⟩
      obtain ⟨hu, hv⟩ := h.holds.consistent.endpoints hraw
      obtain ⟨g', hrun, hcons, -⟩ := h.holds.consistent.removeEdge hraw
      obtain ⟨nodes, hrun', -⟩ := removeEdge_spec hraw (h.holds.consistent.mem_nodes hu)
        (h.holds.consistent.mem_nodes hv)
      have hg' := (Prod.mk.inj (hrun.symm.trans hrun')).2
      refine ⟨g', by rw [Call.perform, Method.run_map, hrun, Except.map, id], fun _ => ?_⟩
      subst hg'
      refine ⟨⟨hcons, h.holds.node, fun e' => ?_⟩, h.nextNodeId, h.nextEdgeId⟩
      change (if e' = e then none else a.graph.edge e') =
        ((g.edges.remove e).get? e').bind fun raw => ((g.edgeData.remove e).get? e').map _
      rw [HashMap.get?_remove, HashMap.get?_remove, h.holds.edge]
      by_cases he : e' = e
      · rw [if_pos he, if_pos he]
        rfl
      · rw [if_neg he, if_neg he, if_neg he]
        rfl

theorem editEdge (h : g.Implements a) (e : EdgeId) (u v : NodeId) :
    Does (Call.editEdge e u v).perform id g (a.call (.editEdge e u v)) := by
  cases hlink : a.graph.edge e with
  | none =>
      simp only [Plan.call, hlink, Option.bind_none]
      have he : e ∉ g.edges.keys := by
        rw [h.mem_edges_iff, hlink]
        exact Bool.false_ne_true
      exact ⟨_, g, by rw [Call.perform, Method.run_map, editEdge_dead he, Except.map]⟩
  | some old =>
      obtain ⟨u₀, v₀, b⟩ := old
      have hraw := h.holds.edge_eq_some_iff.1 ⟨b, hlink⟩
      obtain ⟨hu₀, hv₀⟩ := h.holds.consistent.endpoints hraw
      have hu₀' := h.holds.consistent.mem_nodes hu₀
      have hv₀' := h.holds.consistent.mem_nodes hv₀
      by_cases hnodes : (a.graph.node u).isSome ∧ (a.graph.node v).isSome
      · have hu : g.IsNode u := h.holds.isNode_iff.2 hnodes.1
        have hv : g.IsNode v := h.holds.isNode_iff.2 hnodes.2
        obtain ⟨g', hrun, hcons, -⟩ := h.holds.consistent.editEdge hraw hu hv
        obtain ⟨nodes, hrun'⟩ := editEdge_spec hraw hu₀' hv₀'
          (h.holds.consistent.mem_nodes hu) (h.holds.consistent.mem_nodes hv)
        have hg' := (Prod.mk.inj (hrun.symm.trans hrun')).2
        obtain ⟨hends, hput⟩ := h.link_eq_some hu hv e b
        simp only [Plan.call, hlink, Option.bind_some, hput, Option.map_some]
        refine ⟨g', by rw [Call.perform, Method.run_map, hrun, Except.map, id], fun _ => ?_⟩
        subst hg'
        refine ⟨⟨hcons, h.holds.node, fun e' => ?_⟩, h.nextNodeId, h.nextEdgeId⟩
        change (if e' = e then some ⟨u, v, b⟩ else a.graph.edge e') =
          ((g.edges.insert e _).get? e').bind fun raw => (g.edgeData.get? e').map _
        rw [HashMap.get?_insert, h.holds.edge]
        by_cases he : e' = e
        · -- The edge keeps its data, and the map of ends is new at `e`.
          have hold := h.holds.edge e
          rw [hlink, linkAt, hraw, Option.bind_some] at hold
          obtain ⟨b', hb', heq⟩ := Option.map_eq_some_iff.1 hold.symm
          cases heq
          rw [if_pos he, if_pos he, he, hb']
          rfl
        · rw [if_neg he, if_neg he]
          rfl
      -- One end is not live: the edge has left its old ends when the call panics.
      · simp only [Plan.call, hlink, Option.bind_some, link_eq_none hnodes, Option.map_none]
        rw [← h.mem_nodes_iff, ← h.mem_nodes_iff] at hnodes
        obtain ⟨p, g', hrun⟩ := editEdge_dead_end hraw hu₀' hv₀' hnodes
        exact ⟨p, g', by rw [Call.perform, Method.run_map, hrun, Except.map]⟩

theorem removeNode (h : g.Implements a) (order : HashOrder EdgeId) (n : NodeId) :
    Does (Call.removeNode order n).perform id g (a.call (.removeNode order n)) := by
  cases hnode : a.graph.node n with
  | none =>
      simp only [Plan.call, hnode, Option.map_none]
      have hn : n ∉ g.nodes.keys := by
        rw [h.mem_nodes_iff, hnode]
        exact Bool.false_ne_true
      exact ⟨_, g, by rw [Call.perform, Method.run_map, removeNode_dead order hn, Except.map]⟩
  | some data =>
      simp only [Plan.call, hnode, Option.map_some]
      have hn : g.IsNode n := h.holds.isNode_iff.2 (by rw [hnode]; rfl)
      obtain ⟨g', hrun, hcons, hleft, hdata, hnext, hnext'⟩ :=
        h.holds.consistent.removeNode order hn
      refine ⟨g', by rw [Call.perform, Method.run_map, hrun, Except.map, id], fun _ => ?_⟩
      -- The loop takes data away, and changes none.
      have hkept := removeNode_edgeData (g := g) order n g fun _ _ hb => hb
      rw [hrun] at hkept
      refine ⟨⟨hcons, fun m => ?_, fun e => ?_⟩, ?_, ?_⟩
      · change (if m = n then none else a.graph.node m) = g'.nodeData.get? m
        rw [hdata, HashMap.get?_remove, h.holds.node]
      · change (a.graph.edge e).filter (fun link => ¬ link.Touches n) = g'.linkAt e
        by_cases he : e ∈ incident g.nodes n
        · obtain ⟨link, hlink, htouch⟩ := h.holds.mem_incident.1 he
          rw [linkAt, hleft, if_pos he, hlink, Option.filter_some, if_neg]
          · rfl
          · exact fun hnot => of_decide_eq_true hnot htouch
        · have hedge : g'.edges.get? e = g.edges.get? e := by rw [hleft, if_neg he]
          rw [linkAt, hedge]
          cases hlink : a.graph.edge e with
          | none =>
              have hdead : e ∉ g.edges.keys := by
                rw [h.mem_edges_iff, hlink]
                exact Bool.false_ne_true
              rw [get?_of_notMem hdead]
              rfl
          | some link =>
              obtain ⟨u, v, b⟩ := link
              have hraw := h.holds.edge_eq_some_iff.1 ⟨b, hlink⟩
              have hkey := HashMap.mem_keys_of_get? (hedge.trans hraw)
              rw [hcons.edge_keys] at hkey
              obtain ⟨b', hb'⟩ := HashMap.exists_of_mem_keys hkey
              have hold := h.holds.edge e
              rw [hlink, linkAt, hraw, hkept e b' hb'] at hold
              cases hold
              rw [hraw, hb', Option.filter_some, if_pos]
              · rfl
              · refine decide_eq_true fun htouch => he ?_
                exact h.holds.mem_incident.2 ⟨_, hlink, htouch⟩
      · exact h.nextNodeId.trans hnext.symm
      · exact h.nextEdgeId.trans hnext'.symm

theorem call (h : g.Implements a) (c : Call NodeId EdgeId NodeData EdgeData) :
    Does c.perform id g (a.call c) := by
  cases c with
  | makeNode data => exact h.makeNode data
  | makeEdge u v data => exact h.makeEdge u v data
  | removeEdge e => exact h.removeEdge e
  | editEdge e u v => exact h.editEdge e u v
  | removeNode order n => exact h.removeNode order n

theorem writeNode (h : g.Implements a) (n : NodeId) (f : NodeData → NodeData) :
    Does (Edit.writeNode n f).perform id g (a.apply (.writeNode n f)) := by
  cases hdata : g.nodeData.get? n with
  | none =>
      -- `get_node_mut` returns `None`, and nothing is written.
      have hnode : a.graph.node n = none := by rw [h.holds.node, hdata]
      simp only [Plan.apply, hnode]
      refine ⟨g, ?_, fun _ => h⟩
      rw [Edit.perform, Method.run_map, OwningGraph.writeNode, Method.run_bind_get,
        HashMap.containsKey, hdata]
      rfl
  | some data =>
      have hnode : a.graph.node n = some data := by rw [h.holds.node, hdata]
      have hcons := h.holds.consistent
      have hkeys : (g.nodeData.insert n (f data)).keys = g.nodeData.keys := by
        rw [HashMap.keys_insert, Finset.insert_eq_of_mem (HashMap.mem_keys_of_get? hdata)]
      simp only [Plan.apply, hnode]
      refine ⟨{ g with nodeData := g.nodeData.insert n (f data) }, ?_, fun _ => ?_⟩
      · rw [Edit.perform, Method.run_map, OwningGraph.writeNode, Method.run_bind_get,
          HashMap.containsKey, hdata]
        rfl
      · refine ⟨⟨?_, fun m => ?_, h.holds.edge⟩, h.nextNodeId, h.nextEdgeId⟩
        · -- The keys are the same, and nothing else of the map is asked for.
          have hnode : ∀ m, IsNode { g with nodeData := g.nodeData.insert n (f data) } m ↔
              g.IsNode m := fun m => by rw [IsNode, hkeys, IsNode]
          exact
            { node_keys := hcons.node_keys.trans hkeys.symm
              edge_keys := hcons.edge_keys
              endpoints := fun hedge => (hcons.endpoints hedge).imp (hnode _).2 (hnode _).2
              node_issued := fun hm => hcons.node_issued ((hnode _).1 hm)
              edge_issued := hcons.edge_issued
              incident_iff := hcons.incident_iff }
        · change (if m = n then some (f data) else a.graph.node m) =
            (g.nodeData.insert n (f data)).get? m
          rw [HashMap.get?_insert, h.holds.node]

theorem writeEdge (h : g.Implements a) (e : EdgeId) (f : EdgeData → EdgeData) :
    Does (Edit.writeEdge e f).perform id g (a.apply (.writeEdge e f)) := by
  have hcons := h.holds.consistent
  have hkey := h.holds.isEdge_iff (e := e)
  cases hdata : g.edgeData.get? e with
  -- `get_edge_mut` returns `None`, and nothing is written.
  | none =>
      have hedge : a.graph.edge e = none := by
        rw [IsEdge, HashMap.mem_keys_iff, hdata] at hkey
        exact Option.not_isSome_iff_eq_none.1 fun hsome => Bool.false_ne_true (hkey.2 hsome)
      have happly : a.apply (.writeEdge e f) = some (.found false, a) := by
        rw [Plan.apply]
        split
        · rfl
        · rename_i old hold
          rw [hedge] at hold
          cases hold
      rw [happly]
      refine ⟨g, ?_, fun _ => h⟩
      rw [Edit.perform, Method.run_map, OwningGraph.writeEdge, Method.run_bind_get,
        HashMap.containsKey, hdata]
      rfl
  | some b =>
      have hkeys : (g.edgeData.insert e (f b)).keys = g.edgeData.keys := by
        rw [HashMap.keys_insert, Finset.insert_eq_of_mem (HashMap.mem_keys_of_get? hdata)]
      obtain ⟨⟨u, v⟩, hraw⟩ := hcons.exists_edge (HashMap.mem_keys_of_get? hdata)
      have hedge : a.graph.edge e = some ⟨u, v, b⟩ := by
        rw [h.holds.edge, linkAt, hraw, hdata]
        rfl
      obtain ⟨hends, happly⟩ : ∃ hends, a.apply (.writeEdge e f) = some (.found true,
          { a with graph := a.graph.putEdge e ⟨u, v, f b⟩ hends }) := by
        rw [Plan.apply]
        split
        · rename_i hnone
          rw [hedge] at hnone
          cases hnone
        · rename_i old hold
          obtain rfl := Option.some.inj (hedge.symm.trans hold)
          exact ⟨fun n hn => a.graph.ends hedge n hn, rfl⟩
      rw [happly]
      refine ⟨{ g with edgeData := g.edgeData.insert e (f b) }, ?_, fun _ => ?_⟩
      · rw [Edit.perform, Method.run_map, OwningGraph.writeEdge, Method.run_bind_get,
          HashMap.containsKey, hdata]
        rfl
      · refine ⟨⟨?_, h.holds.node, fun e' => ?_⟩, h.nextNodeId, h.nextEdgeId⟩
        · exact
            { node_keys := hcons.node_keys
              edge_keys := hcons.edge_keys.trans hkeys.symm
              endpoints := hcons.endpoints
              node_issued := hcons.node_issued
              edge_issued := fun he => hcons.edge_issued (by rwa [IsEdge, hkeys] at he)
              incident_iff := hcons.incident_iff }
        · change (if e' = e then some ⟨u, v, f b⟩ else a.graph.edge e') =
            (g.edges.get? e').bind fun raw => ((g.edgeData.insert e (f b)).get? e').map _
          rw [HashMap.get?_insert, h.holds.edge]
          by_cases he : e' = e
          · rw [if_pos he, if_pos he, he, hraw]
            rfl
          · rw [if_neg he, if_neg he]
            rfl

/-- Every edit does what the plan says. -/
theorem perform (h : g.Implements a) (c : Edit NodeId EdgeId NodeData EdgeData) :
    Does c.perform id g (a.apply c) := by
  cases c with
  | call c => exact (h.call c).map Outcome.issued Outcome.issued id fun _ => rfl
  | writeNode n f => exact h.writeNode n f
  | writeEdge e f => exact h.writeEdge e f

theorem reinterpret {NewNodeData NewEdgeData : Type} (h : g.Implements a)
    (nodeOrder : HashOrder NodeId) (edgeOrder : HashOrder EdgeId) (f : NodeData → NewNodeData)
    (k : EdgeData → NewEdgeData) :
    ((g.reinterpret nodeOrder edgeOrder (fun d => (pure (f d) : StateM Unit _))
      (fun d => (pure (k d) : StateM Unit _))).run ()).1.Implements (a.map f k) := by
  refine ⟨⟨h.holds.consistent.reinterpret nodeOrder edgeOrder _ _ (), fun n => ?_, fun e => ?_⟩,
    h.nextNodeId, h.nextEdgeId⟩
  · refine Eq.trans ?_ (HashMap.get?_mapValues_list nodeOrder f g.nodeData n ()).symm
    exact congrArg (Option.map f) (h.holds.node n)
  · have hdata := HashMap.get?_mapValues_list edgeOrder k g.edgeData e
      ((HashMap.mapValues (fun d => (pure (f d) : StateM Unit _)) g.nodeData
        (nodeOrder.list g.nodeData.keys)).run ()).2
    refine Eq.trans ?_ (congrArg (fun b => (g.edges.get? e).bind fun raw =>
      Option.map (fun b => (⟨raw.fromId, raw.toId, b⟩ : Link NodeId NewEdgeData)) b) hdata).symm
    change (a.graph.edge e).map _ = _
    rw [h.holds.edge, linkAt]
    cases g.edges.get? e with
    | none => rfl
    | some raw =>
        cases g.edgeData.get? e with
        | none => rfl
        | some b => rfl

end Implements

/-! ## Runs -/

theorem Implements.empty :
    (OwningGraph.empty : OwningGraph NodeId EdgeId NodeData EdgeData).Implements .empty where
  holds :=
    { consistent := empty_consistent
      node := fun n => (HashMap.get?_empty n).symm
      edge := fun e => by
        change none = linkAt OwningGraph.empty e
        rw [linkAt]
        rfl }
  nextNodeId := rfl
  nextEdgeId := rfl

/-- No edit turns a counter back. -/
theorem Edit.counters (c : Edit NodeId EdgeId NodeData EdgeData) {k l : Nat} :
    Method.Keeps (CountersFrom k l) c.perform := by
  cases c with
  | call c => exact .map _ c.counters
  | writeNode n f =>
      refine .map _ (.bind .get fun s => ?_)
      split
      · exact .bind (.liftM _) fun _ => .bind (.modify fun _ h => h) fun _ => .pure _
      · exact .pure _
  | writeEdge e f =>
      refine .map _ (.bind .get fun s => ?_)
      split
      · exact .bind (.liftM _) fun _ => .bind (.modify fun _ h => h) fun _ => .pure _
      · exact .pure _

theorem IdsInjective.of_edit (c : Edit NodeId EdgeId NodeData EdgeData)
    (h : (c.perform.run g).2.IdsInjective) : g.IdsInjective := by
  obtain ⟨hnode, hedge⟩ := c.counters g ⟨Nat.le_refl _, Nat.le_refl _⟩
  exact
    { node := h.node.mono fun _ hk => Nat.lt_of_lt_of_le hk hnode
      edge := h.edge.mono fun _ hk => Nat.lt_of_lt_of_le hk hedge }

/-- What is stored at the end of a run implements the plan, by induction on the run. -/
theorem Follows.implements {NodeData EdgeData : Type}
    {g : OwningGraph NodeId EdgeId NodeData EdgeData} {a : Plan NodeId EdgeId NodeData EdgeData}
    (h : Follows g a) (hids : g.IdsInjective) : g.Implements a := by
  induction h with
  | empty => exact .empty
  | edit h c happly ih =>
      have hdoes := (ih (hids.of_edit c)).perform c
      rw [happly] at hdoes
      obtain ⟨g', hrun, himpl⟩ := hdoes
      rw [hrun] at hids ⊢
      exact himpl hids
  | reinterpret h nodeOrder edgeOrder f k ih =>
      exact (ih ⟨hids.node, hids.edge⟩).reinterpret nodeOrder edgeOrder f k

/-- After any run the views show the labelled graph of the plan; the next edit panics if the plan
refuses it, and returns what the plan says if not. -/
theorem follows_shows (h : Follows g a) (hids : g.IdsInjective) :
    g.Shows a.graph ∧ ∀ c : Edit NodeId EdgeId NodeData EdgeData,
      (a.apply c = none → ∃ p g', c.perform.run g = (.error p, g')) ∧
      ∀ out a', a.apply c = some (out, a') → ∃ g', c.perform.run g = (.ok out, g') := by
  have himpl := h.implements hids
  refine ⟨himpl.holds.shows, fun c => ⟨?_, ?_⟩⟩
  · intro hnone
    have hdoes := himpl.perform c
    rw [hnone] at hdoes
    exact hdoes
  · intro out a' hsome
    have hdoes := himpl.perform c
    rw [hsome] at hdoes
    obtain ⟨g', hrun, -⟩ := hdoes
    exact ⟨g', hrun⟩

/-- A loop, relabelled through a handle and once more by `reinterpret`. -/
theorem follows_shows_loop :
    ∃ (g : OwningGraph (DerivedId .u32) (DerivedId .usize) Nat Nat)
      (a : Plan (DerivedId .u32) (DerivedId .usize) Nat Nat),
      a.graph.edge (.ofNat .usize 0) = some ⟨.ofNat .u32 0, .ofNat .u32 0, 5⟩ ∧
      g.Shows a.graph ∧ ∀ c : Edit (DerivedId .u32) (DerivedId .usize) Nat Nat,
        (a.apply c = none → ∃ p g', c.perform.run g = (.error p, g')) ∧
        ∀ out a', a.apply c = some (out, a') → ∃ g', c.perform.run g = (.ok out, g') := by
  have hnode : Follows _ _ := .edit .empty
    (.call (.makeNode () : Call (DerivedId .u32) (DerivedId .usize) Unit Nat)) rfl
  have hloop := hnode.edit (.call (.makeEdge (.ofNat .u32 0) (.ofNat .u32 0) 3)) rfl
  have hwrite := hloop.edit (.writeEdge (.ofNat .usize 0) (· + 1)) rfl
  have hmapped := hwrite.reinterpret (byRaw .u32) (byRaw .usize) (fun _ => 0) (· + 1)
  obtain ⟨hshows, hnext⟩ :=
    follows_shows hmapped (idsInjective_of_le (by decide) (by decide))
  exact ⟨_, _, rfl, hshows, hnext⟩

end OwningGraph
end Jstd
