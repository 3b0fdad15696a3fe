import Jstd.OwningGraph.Merge

/-!
# nodes and edges — the order of enumeration

The trait `Graph` promises "insertion identifier order"; `OwningGraph` reads the keys of a hash map.
What comes out is every live id once, in the order of the table.
-/

namespace Jstd
namespace OwningGraph

open Foundation

variable {NodeId EdgeId NodeData EdgeData : Type} [DecidableEq NodeId] [DecidableEq EdgeId]

/-- `keys().map(|id| get(id).unwrap())`; a handle is the id it was made from. -/
def handles {K V : Type} [DecidableEq K] (m : HashMap K V) : List K → Except Panic (List K)
  | [] => .ok []
  | id :: ids => do
      let _ ← unwrap (m.get? id)
      let rest ← handles m ids
      return id :: rest

/-- The method `nodes`. -/
def iterNodes (order : HashOrder NodeId) (self : OwningGraph NodeId EdgeId NodeData EdgeData) :
    Except Panic (List NodeId) :=
  handles self.nodeData (order.list self.nodeData.keys)

/-- The method `edges`. -/
def iterEdges (order : HashOrder EdgeId) (self : OwningGraph NodeId EdgeId NodeData EdgeData) :
    Except Panic (List EdgeId) :=
  handles self.edgeData (order.list self.edgeData.keys)

theorem handles_eq {K V : Type} [DecidableEq K] {m : HashMap K V} {ids : List K}
    (h : ∀ id ∈ ids, id ∈ m.keys) : handles m ids = .ok ids := by
  induction ids with
  | nil => rfl
  | cons id ids ih =>
      obtain ⟨v, hv⟩ := HashMap.exists_of_mem_keys (h id List.mem_cons_self)
      rw [handles, hv, ih fun id' hid' => h id' (List.mem_cons_of_mem id hid')]
      rfl

/-- No lookup fails, since the keys are those of the map that is asked. -/
theorem handles_list {K V : Type} [DecidableEq K] (order : HashOrder K) (m : HashMap K V) :
    handles m (order.list m.keys) = .ok (order.list m.keys) :=
  handles_eq fun _ => order.mem_list.1

/-- Each live id exactly once, in increasing identifier order. -/
def InOrder {Id : Type} [Identifier Id] (live : Finset Id) (result : Except Panic (List Id)) :
    Prop :=
  ∃ ids, result = .ok ids ∧ (∀ id, id ∈ ids ↔ id ∈ live) ∧
    ids.Pairwise fun a b => intoUsize a < intoUsize b

theorem inOrder_handles_iff {Id V : Type} [DecidableEq Id] [Identifier Id] (m : HashMap Id V) :
    (∀ order : HashOrder Id, InOrder m.keys (handles m (order.list m.keys))) ↔
      m.keys.card ≤ 1 := by
  rw [← HashOrder.pairwise_iff_card (R := fun a b => intoUsize a < intoUsize b)
    (fun h => Nat.not_lt.2 (Nat.le_of_lt h))]
  refine forall_congr' fun order => ?_
  rw [handles_list]
  constructor
  · rintro ⟨ids, heq, -, hsorted⟩
    cases heq
    exact hsorted
  · intro hsorted
    exact ⟨_, rfl, fun id => order.mem_list, hsorted⟩

variable [Identifier NodeId] [Identifier EdgeId]

/-- The promised order holds, whatever the order of the tables, of graphs with at most one node and
at most one edge, and of no others. -/
theorem enumeration_inOrder_iff (g : OwningGraph NodeId EdgeId NodeData EdgeData) :
    (∀ nodeOrder edgeOrder, InOrder g.nodeData.keys (iterNodes nodeOrder g) ∧
        InOrder g.edgeData.keys (iterEdges edgeOrder g)) ↔
      g.nodeData.keys.card ≤ 1 ∧ g.edgeData.keys.card ≤ 1 := by
  rw [← inOrder_handles_iff g.nodeData, ← inOrder_handles_iff g.edgeData]
  constructor
  · intro h
    obtain ⟨nodeOrder, -⟩ :=
      HashOrder.exists_list g.nodeData.keys.nodup_toList Finset.mem_toList
    obtain ⟨edgeOrder, -⟩ :=
      HashOrder.exists_list g.edgeData.keys.nodup_toList Finset.mem_toList
    exact ⟨fun order => (h order edgeOrder).1, fun order => (h nodeOrder order).2⟩
  · rintro ⟨hnodes, hedges⟩ nodeOrder edgeOrder
    exact ⟨hnodes nodeOrder, hedges edgeOrder⟩

/-- Two nodes and an edge between them, in a table that yields the second node first. -/
theorem iterNodes_edgeGraph_second_first :
    Reachable edgeGraph ∧ ∃ order : HashOrder (DerivedId .u32),
      iterNodes order edgeGraph = .ok [DerivedId.ofNat .u32 1, .ofNat .u32 0] ∧
        ¬ InOrder edgeGraph.nodeData.keys (iterNodes order edgeGraph) := by
  have hkeys : edgeGraph.nodeData.keys = {DerivedId.ofNat .u32 1, .ofNat .u32 0} := by decide
  obtain ⟨order, horder⟩ := HashOrder.exists_list (s := edgeGraph.nodeData.keys)
    (l := [DerivedId.ofNat .u32 1, .ofNat .u32 0]) (by decide) (by
      intro id
      rw [hkeys, List.mem_pair, Finset.mem_insert, Finset.mem_singleton])
  have hrun : iterNodes order edgeGraph = .ok [DerivedId.ofNat .u32 1, .ofNat .u32 0] := by
    rw [iterNodes, handles_list, horder]
  refine ⟨edgeGraph_reachable, order, hrun, ?_⟩
  rw [hrun]
  rintro ⟨ids, heq, -, hsorted⟩
  cases heq
  revert hsorted
  decide

end OwningGraph
end Jstd
