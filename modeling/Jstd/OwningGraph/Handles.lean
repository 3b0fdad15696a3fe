import Mathlib.Data.Set.Card
import Jstd.Foundation.LabelledGraph
import Jstd.OwningGraph.Enumeration
import Jstd.OwningGraph.Traversal

/-!
# Handles — what the views of nodes and edges show

`get_node` and `get_edge` hand out views, and everything a caller learns of a graph goes through
them and through the two enumerations.  `Shows` says that all of it is what a labelled graph has:
labels, ends, neighbours on either side, and counts.
-/

namespace Jstd

open Foundation

/-- `NodeRef`: an id, and the graph it is looked up in. -/
structure NodeRef (NodeId EdgeId NodeData EdgeData : Type) where
  id : NodeId
  graph : OwningGraph NodeId EdgeId NodeData EdgeData

/-- `EdgeRef`. -/
structure EdgeRef (NodeId EdgeId NodeData EdgeData : Type) where
  id : EdgeId
  graph : OwningGraph NodeId EdgeId NodeData EdgeData

variable {NodeId EdgeId NodeData EdgeData : Type} [DecidableEq NodeId] [DecidableEq EdgeId]

namespace NodeRef

variable (ref : NodeRef NodeId EdgeId NodeData EdgeData)

omit [DecidableEq EdgeId] in
def data : Except Panic NodeData :=
  indexMap ref.graph.nodeData ref.id

def edgeCount : Except Panic Nat := do
  let raw ← indexMap ref.graph.nodes ref.id
  return raw.edges.card

def isLeaf : Except Panic Bool := do
  let count ← edgeCount ref
  return count == 0

/-- The iterators, run to their ends. -/
def children (order : HashOrder EdgeId) : Except Panic (List (EdgeItem NodeId EdgeId)) :=
  OwningGraph.children order ref.graph ref.id

def parents (order : HashOrder EdgeId) : Except Panic (List (EdgeItem NodeId EdgeId)) :=
  OwningGraph.parents order ref.graph ref.id

def edges (order : HashOrder EdgeId) : Except Panic (List (EdgeItem NodeId EdgeId)) :=
  OwningGraph.incidentEdges order ref.graph ref.id

end NodeRef

namespace EdgeRef

variable (ref : EdgeRef NodeId EdgeId NodeData EdgeData)

def data : Except Panic EdgeData :=
  indexMap ref.graph.edgeData ref.id

def fromId : Except Panic NodeId := do
  let raw ← indexMap ref.graph.edges ref.id
  return raw.fromId

def toId : Except Panic NodeId := do
  let raw ← indexMap ref.graph.edges ref.id
  return raw.toId

def isLoop : Except Panic Bool := do
  let u ← fromId ref
  let v ← toId ref
  return u == v

end EdgeRef

namespace OwningGraph

/-- The method `get_node`. -/
def getNode? (self : OwningGraph NodeId EdgeId NodeData EdgeData) (id : NodeId) :
    Option (NodeRef NodeId EdgeId NodeData EdgeData) :=
  if self.nodeData.containsKey id then some ⟨id, self⟩ else none

/-- The method `get_edge`. -/
def getEdge? (self : OwningGraph NodeId EdgeId NodeData EdgeData) (id : EdgeId) :
    Option (EdgeRef NodeId EdgeId NodeData EdgeData) :=
  if self.edgeData.containsKey id then some ⟨id, self⟩ else none

/-- `get_node_mut`, and a write through the handle if there is one. -/
def writeNode (id : NodeId) (f : NodeData → NodeData) :
    Method Panic (OwningGraph NodeId EdgeId NodeData EdgeData) Bool := do
  let self ← get
  if self.nodeData.containsKey id then
    let data ← unwrap (self.nodeData.get? id)
    modify fun self => { self with nodeData := self.nodeData.insert id (f data) }
    return true
  else
    return false

/-- `get_edge_mut`, and a write through the handle if there is one. -/
def writeEdge (id : EdgeId) (f : EdgeData → EdgeData) :
    Method Panic (OwningGraph NodeId EdgeId NodeData EdgeData) Bool := do
  let self ← get
  if self.edgeData.containsKey id then
    let data ← unwrap (self.edgeData.get? id)
    modify fun self => { self with edgeData := self.edgeData.insert id (f data) }
    return true
  else
    return false

/-! ## What is shown -/

variable {g : OwningGraph NodeId EdgeId NodeData EdgeData}
  {G : LabelledGraph NodeId EdgeId NodeData EdgeData}

/-- The view of the node `n` of `G`. -/
structure ShowsNode (G : LabelledGraph NodeId EdgeId NodeData EdgeData) (n : NodeId) (a : NodeData)
    (ref : NodeRef NodeId EdgeId NodeData EdgeData) : Prop where
  data : ref.data = .ok a
  edgeCount : ref.edgeCount =
    .ok {e | ∃ link, G.edge e = some link ∧ link.Touches n}.ncard
  isLeaf : ∃ b, ref.isLeaf = .ok b ∧
    (b = true ↔ ∀ e link, G.edge e = some link → ¬ link.Touches n)
  children : ∀ order, Lists (ref.children order) fun e m => ∃ b, G.edge e = some ⟨n, m, b⟩
  parents : ∀ order, Lists (ref.parents order) fun e m => ∃ b, G.edge e = some ⟨m, n, b⟩
  edges : ∀ order, Lists (ref.edges order) fun e m =>
    ∃ b, G.edge e = some ⟨n, m, b⟩ ∨ G.edge e = some ⟨m, n, b⟩

/-- The view of an edge. -/
structure ShowsEdge (link : Link NodeId EdgeData)
    (ref : EdgeRef NodeId EdgeId NodeData EdgeData) : Prop where
  data : ref.data = .ok link.label
  fromId : ref.fromId = .ok link.source
  toId : ref.toId = .ok link.target
  isLoop : ref.isLoop = .ok (decide (link.source = link.target))

/-- The views are those of `G`, and there are no others. -/
structure Shows (g : OwningGraph NodeId EdgeId NodeData EdgeData)
    (G : LabelledGraph NodeId EdgeId NodeData EdgeData) : Prop where
  getNode : ∀ n, Option.Rel (ShowsNode G n) (G.node n) (g.getNode? n)
  getEdge : ∀ e, Option.Rel ShowsEdge (G.edge e) (g.getEdge? e)
  nodes : ∀ order, ∃ ids, iterNodes order g = .ok ids ∧ ids.Nodup ∧
    ∀ n, n ∈ ids ↔ (G.node n).isSome
  edges : ∀ order, ∃ ids, iterEdges order g = .ok ids ∧ ids.Nodup ∧
    ∀ e, e ∈ ids ↔ (G.edge e).isSome

/-! ## The maps behind the views -/

/-- The entries of the two edge maps at one id. -/
def linkAt (g : OwningGraph NodeId EdgeId NodeData EdgeData) (e : EdgeId) :
    Option (Link NodeId EdgeData) :=
  (g.edges.get? e).bind fun raw => (g.edgeData.get? e).map fun b => ⟨raw.fromId, raw.toId, b⟩

/-- A consistent graph whose maps hold the labelled graph. -/
structure Holds [Identifier NodeId] [Identifier EdgeId]
    (g : OwningGraph NodeId EdgeId NodeData EdgeData)
    (G : LabelledGraph NodeId EdgeId NodeData EdgeData) : Prop where
  consistent : g.Consistent
  node : ∀ n, G.node n = g.nodeData.get? n
  edge : ∀ e, G.edge e = g.linkAt e

variable [Identifier NodeId] [Identifier EdgeId]

namespace Holds

theorem edge_eq_some_iff (h : g.Holds G) {e : EdgeId} {u v : NodeId} :
    (∃ b, G.edge e = some ⟨u, v, b⟩) ↔ g.edges.get? e = some { fromId := u, toId := v } := by
  rw [h.edge, linkAt]
  constructor
  · rintro ⟨b, hb⟩
    obtain ⟨raw, hraw, hlink⟩ := Option.bind_eq_some_iff.1 hb
    obtain ⟨b', -, heq⟩ := Option.map_eq_some_iff.1 hlink
    cases heq
    exact hraw
  · intro he
    -- The edge has its data, since the two maps have the same keys.
    have hkey := HashMap.mem_keys_of_get? he
    rw [h.consistent.edge_keys] at hkey
    obtain ⟨b, hb⟩ := HashMap.exists_of_mem_keys hkey
    exact ⟨b, by rw [he, hb]; rfl⟩

theorem isNode_iff (h : g.Holds G) {n : NodeId} : g.IsNode n ↔ (G.node n).isSome := by
  rw [h.node, IsNode, HashMap.mem_keys_iff]

theorem isEdge_iff (h : g.Holds G) {e : EdgeId} : g.IsEdge e ↔ (G.edge e).isSome := by
  rw [IsEdge, Option.isSome_iff_exists]
  constructor
  · intro he
    obtain ⟨⟨u, v⟩, hraw⟩ := h.consistent.exists_edge he
    obtain ⟨b, hb⟩ := h.edge_eq_some_iff.2 hraw
    exact ⟨_, hb⟩
  · rintro ⟨⟨u, v, b⟩, hlink⟩
    rw [← h.consistent.edge_keys]
    exact HashMap.mem_keys_of_get? (h.edge_eq_some_iff.1 ⟨b, hlink⟩)

/-- The incident set is the set of edges that touch the node. -/
theorem mem_incident (h : g.Holds G) {n : NodeId} {e : EdgeId} :
    e ∈ incident g.nodes n ↔ ∃ link, G.edge e = some link ∧ link.Touches n := by
  rw [h.consistent.incident_iff]
  constructor
  · rintro ⟨⟨u, v⟩, hraw, hend⟩
    obtain ⟨b, hb⟩ := h.edge_eq_some_iff.2 hraw
    exact ⟨_, hb, hend⟩
  · rintro ⟨⟨u, v, b⟩, hlink, hend⟩
    exact ⟨_, h.edge_eq_some_iff.1 ⟨b, hlink⟩, hend⟩

theorem showsNode (h : g.Holds G) {n : NodeId} {a : NodeData} (ha : g.nodeData.get? n = some a) :
    ShowsNode G n a ⟨n, g⟩ := by
  have hn : g.IsNode n := HashMap.mem_keys_of_get? ha
  obtain ⟨raw, hraw⟩ := HashMap.exists_of_mem_keys (h.consistent.mem_nodes hn)
  -- The incident set of the node is the set of its links.
  have hset : (raw.edges : Set EdgeId) =
      {e | ∃ link, G.edge e = some link ∧ link.Touches n} := by
    ext e
    rw [Finset.mem_coe, ← incident_of_get? hraw]
    exact h.mem_incident
  have hcount : NodeRef.edgeCount ⟨n, g⟩ = .ok raw.edges.card := by
    simp only [NodeRef.edgeCount, indexMap, hraw]
    rfl
  constructor
  · simp only [NodeRef.data, indexMap, ha]
  · rw [hcount, ← hset, Set.ncard_coe_finset]
  · refine ⟨raw.edges.card == 0, by simp only [NodeRef.isLeaf, hcount]; rfl, ?_⟩
    rw [beq_iff_eq, Finset.card_eq_zero, ← Finset.coe_eq_empty, hset]
    constructor
    · intro hempty e link hlink htouch
      exact Set.notMem_empty e (hempty ▸ ⟨link, hlink, htouch⟩)
    · intro hnone
      refine Set.eq_empty_of_forall_notMem ?_
      rintro e ⟨link, hlink, htouch⟩
      exact hnone e link hlink htouch
  · intro order
    exact (h.consistent.children_spec order hn).congr fun e m => h.edge_eq_some_iff.symm
  · intro order
    exact (h.consistent.parents_spec order hn).congr fun e m => h.edge_eq_some_iff.symm
  · intro order
    refine (h.consistent.incidentEdges_spec order hn).congr fun e m => ?_
    rw [exists_or, h.edge_eq_some_iff, h.edge_eq_some_iff]
    rfl

theorem showsEdge (h : g.Holds G) {e : EdgeId} {link : Link NodeId EdgeData}
    (hlink : G.edge e = some link) : ShowsEdge link ⟨e, g⟩ := by
  obtain ⟨u, v, b⟩ := link
  have hraw := h.edge_eq_some_iff.1 ⟨b, hlink⟩
  have hdata : g.edgeData.get? e = some b := by
    rw [h.edge, linkAt, hraw, Option.bind_some] at hlink
    obtain ⟨b', hb', heq⟩ := Option.map_eq_some_iff.1 hlink
    cases heq
    exact hb'
  have hfrom : EdgeRef.fromId ⟨e, g⟩ = .ok u := by
    simp only [EdgeRef.fromId, indexMap, hraw]
    rfl
  have hto : EdgeRef.toId ⟨e, g⟩ = .ok v := by
    simp only [EdgeRef.toId, indexMap, hraw]
    rfl
  constructor
  · simp only [EdgeRef.data, indexMap, hdata]
  · exact hfrom
  · exact hto
  · simp only [EdgeRef.isLoop, hfrom, hto]
    rfl

/-- All that can be seen of the maps is the labelled graph. -/
theorem shows (h : g.Holds G) : g.Shows G where
  getNode n := by
    -- A handle is given out where there is data, which is where the labelled graph has a node.
    rw [h.node, getNode?, HashMap.containsKey]
    cases ha : g.nodeData.get? n with
    | none => exact .none
    | some a => exact .some (h.showsNode ha)
  getEdge e := by
    have hiff := h.isEdge_iff (e := e)
    rw [IsEdge, HashMap.mem_keys_iff] at hiff
    rw [getEdge?, HashMap.containsKey]
    cases hlink : G.edge e with
    | none =>
        rw [hlink, Option.isSome_none] at hiff
        rw [if_neg fun hmem => Bool.false_ne_true (hiff.1 hmem)]
        exact .none
    | some link =>
        rw [hlink] at hiff
        rw [if_pos (hiff.2 rfl)]
        exact .some (h.showsEdge hlink)
  nodes order := by
    refine ⟨_, handles_list order g.nodeData, order.nodup _, ?_⟩
    intro n
    rw [order.mem_list]
    exact h.isNode_iff
  edges order := by
    refine ⟨_, handles_list order g.edgeData, order.nodup _, ?_⟩
    intro e
    rw [order.mem_list]
    exact h.isEdge_iff

end Holds

end OwningGraph
end Jstd
