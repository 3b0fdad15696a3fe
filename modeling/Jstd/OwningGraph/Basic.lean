import Jstd.Foundation.HashMap
import Jstd.Foundation.Method
import Jstd.Identifier

/-!
# OwningGraph — nodes and edges in four hash maps

The model of `graph/owning.rs`, with the traversal iterators of `graph/node.rs`.  A node keeps one
set of incident edge ids, for the edges that leave it and those that enter it alike; an edge keeps
its endpoints.

The counters are naturals.  The order in which a hash set yields its ids is a parameter.
-/

namespace Jstd

open Foundation

structure RawNode (EdgeId : Type) where
  edges : Finset EdgeId

structure RawEdge (NodeId : Type) where
  fromId : NodeId
  toId : NodeId
  deriving DecidableEq, Repr

structure OwningGraph (NodeId EdgeId NodeData EdgeData : Type) where
  nodeData : HashMap NodeId NodeData
  edgeData : HashMap EdgeId EdgeData
  nodes : HashMap NodeId (RawNode EdgeId)
  edges : HashMap EdgeId (RawEdge NodeId)
  nextNodeId : Nat
  nextEdgeId : Nat

/-- One traversal item: the edge, and the node at its other end. -/
structure EdgeItem (NodeId EdgeId : Type) where
  edge : EdgeId
  node : NodeId
  deriving DecidableEq, Repr

namespace OwningGraph

variable {NodeId EdgeId NodeData EdgeData : Type}

/-- `Default`: no nodes, no edges, counters at zero. -/
def empty : OwningGraph NodeId EdgeId NodeData EdgeData :=
  { nodeData := .empty, edgeData := .empty, nodes := .empty, edges := .empty,
    nextNodeId := 0, nextEdgeId := 0 }

/-- The ids `get_node` finds. -/
def IsNode (self : OwningGraph NodeId EdgeId NodeData EdgeData) (id : NodeId) : Prop :=
  id ∈ self.nodeData.keys

/-- The ids `get_edge` finds. -/
def IsEdge (self : OwningGraph NodeId EdgeId NodeData EdgeData) (id : EdgeId) : Prop :=
  id ∈ self.edgeData.keys

variable [DecidableEq NodeId] [DecidableEq EdgeId]

/-! ## Node handles -/

/-- `NodeMut::add_edge_id`. -/
def addEdgeId (node : NodeId) (edge : EdgeId) :
    Method Panic (OwningGraph NodeId EdgeId NodeData EdgeData) Unit := do
  let self ← get
  let raw ← unwrap (self.nodes.get? node)
  modify fun self =>
    { self with nodes := self.nodes.insert node { edges := insert edge raw.edges } }

/-- `NodeMut::remove_edge_id`. -/
def removeEdgeId (node : NodeId) (edge : EdgeId) :
    Method Panic (OwningGraph NodeId EdgeId NodeData EdgeData) Unit := do
  let self ← get
  let raw ← unwrap (self.nodes.get? node)
  modify fun self =>
    { self with nodes := self.nodes.insert node { edges := raw.edges.erase edge } }

/-! ## Building and editing -/

section

variable [Identifier NodeId] [Identifier EdgeId]

def makeNode (data : NodeData) :
    Method Panic (OwningGraph NodeId EdgeId NodeData EdgeData) NodeId := do
  let self ← get
  let id := fromUsize self.nextNodeId
  modify fun self => { self with nextNodeId := self.nextNodeId + 1 }
  modify fun self => { self with nodes := self.nodes.insert id { edges := ∅ } }
  modify fun self => { self with nodeData := self.nodeData.insert id data }
  return id

def makeEdge (fromId toId : NodeId) (data : EdgeData) :
    Method Panic (OwningGraph NodeId EdgeId NodeData EdgeData) EdgeId := do
  let self ← get
  let id := fromUsize self.nextEdgeId
  modify fun self => { self with nextEdgeId := self.nextEdgeId + 1 }
  modify fun self => { self with edges := self.edges.insert id { fromId, toId } }
  modify fun self => { self with edgeData := self.edgeData.insert id data }
  addEdgeId fromId id
  addEdgeId toId id
  return id

end

def removeEdge (id : EdgeId) :
    Method Panic (OwningGraph NodeId EdgeId NodeData EdgeData) Unit := do
  let self ← get
  let edge ← unwrap (self.edges.get? id)
  modify fun self => { self with edges := self.edges.remove id }
  modify fun self => { self with edgeData := self.edgeData.remove id }
  removeEdgeId edge.fromId id
  removeEdgeId edge.toId id

def editEdge (id : EdgeId) (newFrom newTo : NodeId) :
    Method Panic (OwningGraph NodeId EdgeId NodeData EdgeData) Unit := do
  let self ← get
  let edge ← unwrap (self.edges.get? id)
  removeEdgeId edge.fromId id
  removeEdgeId edge.toId id
  modify fun self =>
    { self with edges := self.edges.insert id { fromId := newFrom, toId := newTo } }
  addEdgeId newFrom id
  addEdgeId newTo id

/-- `remove_node`; the worklist is the node's own set of edges, read in the order given. -/
def removeNode (order : HashOrder EdgeId) (id : NodeId) :
    Method Panic (OwningGraph NodeId EdgeId NodeData EdgeData) Unit := do
  let self ← get
  let raw ← indexMap self.nodes id
  Method.forEach removeEdge (order.list raw.edges)
  let self ← get
  let _ ← unwrap (self.nodes.get? id)
  modify fun self => { self with nodes := self.nodes.remove id }
  modify fun self => { self with nodeData := self.nodeData.remove id }

/-- `reinterpret`: the same graph with its payloads mapped, those of the nodes first. -/
def reinterpret {NewNodeData NewEdgeData σ : Type} (nodeOrder : HashOrder NodeId)
    (edgeOrder : HashOrder EdgeId) (nodeDataMap : NodeData → StateM σ NewNodeData)
    (edgeDataMap : EdgeData → StateM σ NewEdgeData)
    (self : OwningGraph NodeId EdgeId NodeData EdgeData) :
    StateM σ (OwningGraph NodeId EdgeId NewNodeData NewEdgeData) := do
  let nodeData ← self.nodeData.mapValues nodeDataMap (nodeOrder.list self.nodeData.keys)
  let edgeData ← self.edgeData.mapValues edgeDataMap (edgeOrder.list self.edgeData.keys)
  return { self with nodeData := nodeData, edgeData := edgeData }

/-! ## Traversal -/

/-- `Iterator::next` of the three modes, applied to one incident edge. -/
def childItem (node : NodeId) (id : EdgeId) (edge : RawEdge NodeId) :
    Option (EdgeItem NodeId EdgeId) :=
  if node = edge.fromId then some ⟨id, edge.toId⟩ else none

def parentItem (node : NodeId) (id : EdgeId) (edge : RawEdge NodeId) :
    Option (EdgeItem NodeId EdgeId) :=
  if node = edge.toId then some ⟨id, edge.fromId⟩ else none

def edgeItem (node : NodeId) (id : EdgeId) (edge : RawEdge NodeId) :
    Option (EdgeItem NodeId EdgeId) :=
  some ⟨id, if node = edge.fromId then edge.toId else edge.fromId⟩

/-- `Iter`, run to its end: `mode` keeps or skips each incident edge. -/
def collect (self : OwningGraph NodeId EdgeId NodeData EdgeData)
    (mode : EdgeId → RawEdge NodeId → Option (EdgeItem NodeId EdgeId)) :
    List EdgeId → Except Panic (List (EdgeItem NodeId EdgeId))
  | [] => .ok []
  | id :: ids => do
      let edge ← indexMap self.edges id
      let items ← collect self mode ids
      return (mode id edge).toList ++ items

/-- `edge_ids`, in the order the hash set yields them. -/
def edgeIds (order : HashOrder EdgeId) (self : OwningGraph NodeId EdgeId NodeData EdgeData)
    (node : NodeId) : Except Panic (List EdgeId) := do
  let raw ← indexMap self.nodes node
  return order.list raw.edges

def children (order : HashOrder EdgeId) (self : OwningGraph NodeId EdgeId NodeData EdgeData)
    (node : NodeId) : Except Panic (List (EdgeItem NodeId EdgeId)) := do
  let ids ← edgeIds order self node
  collect self (childItem node) ids

def parents (order : HashOrder EdgeId) (self : OwningGraph NodeId EdgeId NodeData EdgeData)
    (node : NodeId) : Except Panic (List (EdgeItem NodeId EdgeId)) := do
  let ids ← edgeIds order self node
  collect self (parentItem node) ids

/-- `Node::edges`: every incident edge, with the node at its other end. -/
def incidentEdges (order : HashOrder EdgeId)
    (self : OwningGraph NodeId EdgeId NodeData EdgeData) (node : NodeId) :
    Except Panic (List (EdgeItem NodeId EdgeId)) := do
  let ids ← edgeIds order self node
  collect self (edgeItem node) ids

end OwningGraph
end Jstd
