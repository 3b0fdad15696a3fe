import Mathlib.Data.Finset.Card
import Jstd.Dominator.Search
import Jstd.Foundation.StackSearch
import Jstd.OwningGraph.Merge

/-!
# dfs and undirected_dfs — the iterators

The model of `DfsIter` in `graph.rs`.  A node is marked when it is popped and not when it is pushed,
so the stack may hold it many times; `StackSearch` is the invariant.  The worklist of
`reachable_from_root` is the same stack with the edges left out.
-/

namespace Jstd
namespace OwningGraph

open Foundation

variable {NodeId EdgeId NodeData EdgeData : Type} [DecidableEq NodeId] [DecidableEq EdgeId]

/-! ## The iterator -/

/-- The markers `Directed` and `Undirected`. -/
inductive Mode
  | directed
  | undirected

/-- The fields of `DfsIter` that change; the top of the stack is the head of the list. -/
structure DfsIter (NodeId EdgeId : Type) where
  visited : Finset NodeId
  stack : List (Option EdgeId × NodeId)

/-- What a node yields and how it was reached: the handles of the edge and the node are their ids. -/
abbrev Visit (NodeId EdgeId : Type) : Type :=
  Option EdgeId × NodeId

/-- The edges explored from a node: `children` or `edges`, in the order of the node's hash set. -/
def neighbors (mode : Mode) (order : NodeId → HashOrder EdgeId)
    (self : OwningGraph NodeId EdgeId NodeData EdgeData) (node : NodeId) :
    Except Panic (List (EdgeItem NodeId EdgeId)) :=
  match mode with
  | .directed => children (order node) self node
  | .undirected => incidentEdges (order node) self node

/-- `if !self.visited.contains(&child_id) { self.stack.push((Some(edge.edge_id()), child_id)) }`, for
each edge. -/
def pushItems (visited : Finset NodeId) :
    List (EdgeItem NodeId EdgeId) → List (Option EdgeId × NodeId) → List (Option EdgeId × NodeId)
  | [], stack => stack
  | item :: items, stack =>
      if item.node ∈ visited then pushItems visited items stack
      else pushItems visited items ((some item.edge, item.node) :: stack)

/-- The two `next` differ in the edges they explore: each pops until a node turns up that was not
visited before. -/
def next (mode : Mode) (order : NodeId → HashOrder EdgeId)
    (self : OwningGraph NodeId EdgeId NodeData EdgeData) (visited : Finset NodeId) :
    List (Option EdgeId × NodeId) →
      Except Panic (Option (Visit NodeId EdgeId) × DfsIter NodeId EdgeId)
  | [] => .ok (none, { visited := visited, stack := [] })
  | (edgeId, nodeId) :: stack =>
      if nodeId ∈ visited then next mode order self visited stack
      else do
        let _ ← unwrap (self.nodeData.get? nodeId)
        let items ← neighbors mode order self nodeId
        return (some (edgeId.filter fun id => self.edgeData.containsKey id, nodeId),
          { visited := insert nodeId visited
            stack := pushItems (insert nodeId visited) items stack })

/-- The iterator run until it returns `None`; `fuel` bounds the calls of `next`. -/
def drain (mode : Mode) (order : NodeId → HashOrder EdgeId)
    (self : OwningGraph NodeId EdgeId NodeData EdgeData) :
    Nat → DfsIter NodeId EdgeId → Except Panic (List (Visit NodeId EdgeId))
  | 0, _ => .error .outOfFuel
  | fuel + 1, iter =>
      match next mode order self iter.visited iter.stack with
      | .error panic => .error panic
      | .ok (none, _) => .ok []
      | .ok (some visit, iter) => do
          let visits ← drain mode order self fuel iter
          return visit :: visits

/-- The iterator as the two methods make it, run to the end. -/
def traverse (mode : Mode) (order : NodeId → HashOrder EdgeId)
    (self : OwningGraph NodeId EdgeId NodeData EdgeData) (fuel : Nat) (root : NodeId) :
    Except Panic (List (Visit NodeId EdgeId)) :=
  drain mode order self fuel { visited := ∅, stack := [(none, root)] }

def dfs (order : NodeId → HashOrder EdgeId)
    (self : OwningGraph NodeId EdgeId NodeData EdgeData) (fuel : Nat) (root : NodeId) :
    Except Panic (List (Visit NodeId EdgeId)) :=
  traverse .directed order self fuel root

def undirectedDfs (order : NodeId → HashOrder EdgeId)
    (self : OwningGraph NodeId EdgeId NodeData EdgeData) (fuel : Nat) (root : NodeId) :
    Except Panic (List (Visit NodeId EdgeId)) :=
  traverse .undirected order self fuel root

/-- `get_node(n).into_iter().flat_map(|node| node.children().map(|edge| edge.node_id()))`. -/
def childIds (order : HashOrder EdgeId) (self : OwningGraph NodeId EdgeId NodeData EdgeData)
    (n : NodeId) : List NodeId :=
  match children order self n with
  | .ok items => items.map EdgeItem.node
  | .error _ => []

/-- The graph as a `Cfg`. -/
def cfg (order : NodeId → HashOrder EdgeId)
    (self : OwningGraph NodeId EdgeId NodeData EdgeData) : Cfg NodeId where
  successors n := childIds (order n) self n

/-! ## What a mode explores -/

/-- The edge that leads from one node to another in the given mode. -/
def Arc (g : OwningGraph NodeId EdgeId NodeData EdgeData) (mode : Mode) (u : NodeId) (e : EdgeId)
    (v : NodeId) : Prop :=
  match mode with
  | .directed => g.edges.get? e = some { fromId := u, toId := v }
  | .undirected => g.edges.get? e = some { fromId := u, toId := v } ∨
      g.edges.get? e = some { fromId := v, toId := u }

variable {g : OwningGraph NodeId EdgeId NodeData EdgeData} {mode : Mode}
  {order : NodeId → HashOrder EdgeId}

omit [DecidableEq NodeId] in
theorem Arc.exists_edge {u v : NodeId} {e : EdgeId} (h : g.Arc mode u e v) :
    ∃ edge, g.edges.get? e = some edge ∧
      (u = edge.fromId ∧ v = edge.toId ∨ u = edge.toId ∧ v = edge.fromId) := by
  cases mode with
  | directed => exact ⟨_, h, .inl ⟨rfl, rfl⟩⟩
  | undirected =>
      rcases h with h | h
      · exact ⟨_, h, .inl ⟨rfl, rfl⟩⟩
      · exact ⟨_, h, .inr ⟨rfl, rfl⟩⟩

section

variable [Identifier NodeId] [Identifier EdgeId]

theorem Consistent.arc_live (hg : g.Consistent) {u v : NodeId} {e : EdgeId}
    (h : g.Arc mode u e v) : g.IsEdge e ∧ g.IsNode u ∧ g.IsNode v := by
  obtain ⟨edge, hedge, hends⟩ := h.exists_edge
  obtain ⟨hfrom, hto⟩ := hg.endpoints hedge
  have hlive := HashMap.mem_keys_of_get? hedge
  rw [hg.edge_keys] at hlive
  refine ⟨hlive, ?_⟩
  rcases hends with ⟨rfl, rfl⟩ | ⟨rfl, rfl⟩
  · exact ⟨hfrom, hto⟩
  · exact ⟨hto, hfrom⟩

theorem Consistent.incidentEdges_spec (hg : g.Consistent) (order : HashOrder EdgeId) {n : NodeId}
    (hn : g.IsNode n) : Lists (incidentEdges order g n) (g.Arc .undirected n) := by
  have hlive : ∀ e ∈ incident g.nodes n, ∃ edge, g.edges.get? e = some edge := fun e he =>
    ((hg.incident_iff n e).1 he).imp fun _ h => h.1
  refine (iter_lists order (hg.mem_nodes hn) hlive (edgeItem n) ?_).congr fun e m => ?_
  · intro e edge item h
    cases h
    rfl
  · rw [hg.incident_iff]
    constructor
    · rintro ⟨⟨edge, hedge, hend⟩, edge', hedge', h⟩
      obtain rfl := Option.some.inj (hedge.symm.trans hedge')
      obtain ⟨u, v⟩ := edge
      -- The other end is the target, unless the node is the target and not the source.
      by_cases hfrom : n = u
      · subst hfrom
        simp only [edgeItem, if_true, Option.some.injEq, EdgeItem.mk.injEq, true_and] at h
        exact .inl (by rw [hedge, h])
      · have hto : n = v := hend.resolve_left hfrom
        simp only [edgeItem, if_neg hfrom, Option.some.injEq, EdgeItem.mk.injEq, true_and] at h
        exact .inr (by rw [hedge, h, hto])
    · rintro (hedge | hedge)
      · exact ⟨⟨_, hedge, .inl rfl⟩, _, hedge, by simp [edgeItem]⟩
      · refine ⟨⟨_, hedge, .inr rfl⟩, _, hedge, ?_⟩
        -- A self-loop leads to its own node, whichever end is meant.
        by_cases hloop : n = m
        · simp [edgeItem, hloop]
        · simp [edgeItem, hloop]

/-- In a consistent graph each mode explores its arcs, each once. -/
theorem Consistent.neighbors_spec (hg : g.Consistent) (mode : Mode)
    (order : NodeId → HashOrder EdgeId) {n : NodeId} (hn : g.IsNode n) :
    Lists (neighbors mode order g n) (g.Arc mode n) := by
  cases mode with
  | directed => exact hg.children_spec (order n) hn
  | undirected => exact hg.incidentEdges_spec (order n) hn

end

/-! ## The search -/

omit [DecidableEq EdgeId] in
theorem pushItems_spec (visited : Finset NodeId) (items : List (EdgeItem NodeId EdgeId)) :
    ∀ stack, ∃ entries, pushItems visited items stack = entries ++ stack ∧
      ∀ p, p ∈ entries ↔ ∃ item ∈ items, item.node ∉ visited ∧ p = (some item.edge, item.node) := by
  induction items with
  | nil =>
      intro stack
      exact ⟨[], rfl, by simp⟩
  | cons item items ih =>
      intro stack
      rw [pushItems]
      -- Only an item whose node is new is pushed, below those that come later.
      by_cases hvisited : item.node ∈ visited
      · rw [if_pos hvisited]
        obtain ⟨entries, hpush, hmem⟩ := ih stack
        refine ⟨entries, hpush, fun p => (hmem p).trans ?_⟩
        simp [hvisited]
      · rw [if_neg hvisited]
        obtain ⟨entries, hpush, hmem⟩ := ih ((some item.edge, item.node) :: stack)
        refine ⟨entries ++ [(some item.edge, item.node)], by rw [hpush, List.append_cons], ?_⟩
        intro p
        rw [List.mem_append, hmem, List.mem_singleton]
        constructor
        · rintro (⟨item', hitem', h⟩ | rfl)
          · exact ⟨item', List.mem_cons_of_mem item hitem', h⟩
          · exact ⟨item, List.mem_cons_self, hvisited, rfl⟩
        · rintro ⟨item', hitem', hnot, rfl⟩
          rcases List.mem_cons.1 hitem' with rfl | hitem'
          · exact .inr rfl
          · exact .inl ⟨item', hitem', hnot, rfl⟩

section

variable [Identifier NodeId] [Identifier EdgeId] {root : NodeId}

/-- An entry whose node is new is yielded as it stands, and what it pushes are the arcs to nodes that
are still new. -/
theorem Consistent.next_visit (hg : g.Consistent) (mode : Mode)
    (order : NodeId → HashOrder EdgeId) (entry : Visit NodeId EdgeId)
    (stack : List (Visit NodeId EdgeId)) {visited : Finset NodeId} (hnode : g.IsNode entry.2)
    (hedge : ∀ e, entry.1 = some e → g.IsEdge e) (hnew : entry.2 ∉ visited) :
    ∃ entries, next mode order g visited (entry :: stack) =
        .ok (some entry, { visited := insert entry.2 visited, stack := entries ++ stack }) ∧
      ∀ p, p ∈ entries ↔
        ∃ e, p.1 = some e ∧ g.Arc mode entry.2 e p.2 ∧ p.2 ∉ insert entry.2 visited := by
  obtain ⟨edgeId, nodeId⟩ := entry
  obtain ⟨data, hdata⟩ := HashMap.exists_of_mem_keys hnode
  obtain ⟨items, hitems, -, hlists⟩ := hg.neighbors_spec mode order hnode
  obtain ⟨entries, hpush, hmem⟩ := pushItems_spec (insert nodeId visited) items stack
  -- The edge is live, so `get_edge` finds it.
  have hfilter : edgeId.filter (fun id => g.edgeData.containsKey id) = edgeId := by
    cases edgeId with
    | none => rfl
    | some e => exact Option.filter_some_pos (HashMap.mem_keys_iff.1 (hedge e rfl))
  refine ⟨entries, ?_, ?_⟩
  · rw [next, if_neg hnew, hdata, hitems, hfilter, ← hpush]
    rfl
  · rintro ⟨a, v⟩
    rw [hmem]
    constructor
    · rintro ⟨⟨e, w⟩, hitem, hnot, heq⟩
      cases heq
      exact ⟨e, rfl, (hlists e w).1 hitem, hnot⟩
    · rintro ⟨e, rfl, harc, hnot⟩
      exact ⟨⟨e, v⟩, (hlists e v).2 harc, hnot, rfl⟩

/-- One call of `next`: the traversal is over, or it goes on with one more node. -/
theorem Consistent.next_spec (hg : g.Consistent) (mode : Mode)
    (order : NodeId → HashOrder EdgeId) {visits stack : List (Visit NodeId EdgeId)}
    (h : StackSearch (g.Arc mode) root visits stack) :
    (∃ iter, next mode order g (visits.map Prod.snd).toFinset stack = .ok (none, iter) ∧
        Traverses (g.Arc mode) root visits) ∨
      ∃ entry rest, g.IsNode entry.2 ∧
        next mode order g (visits.map Prod.snd).toFinset stack =
          .ok (some entry,
            { visited := ((visits ++ [entry]).map Prod.snd).toFinset, stack := rest }) ∧
        StackSearch (g.Arc mode) root (visits ++ [entry]) rest := by
  -- Entries whose node is visited are popped one after the other.
  induction stack with
  | nil => exact .inl ⟨_, rfl, h.finish⟩
  | cons entry stack ih =>
      by_cases hvisited : entry.2 ∈ visits.map Prod.snd
      · rw [next, if_pos (List.mem_toFinset.2 hvisited)]
        exact ih (h.skip hvisited)
      · -- The first entry whose node is new: an arc leads to the node, so both are live.
        obtain ⟨e, u, he, harc⟩ := h.arc_of_mem List.mem_cons_self
        obtain ⟨hedge, -, hnode⟩ := hg.arc_live harc
        obtain ⟨entries, hnext, hmem⟩ := hg.next_visit mode order entry stack hnode
          (fun e' he' => Option.some.inj (he.symm.trans he') ▸ hedge)
          (fun hin => hvisited (List.mem_toFinset.1 hin))
        have hset : insert entry.2 (visits.map Prod.snd).toFinset =
            ((visits ++ [entry]).map Prod.snd).toFinset := by
          ext v
          simp
        rw [hset] at hnext hmem
        refine .inr ⟨entry, entries ++ stack, hnode, hnext, h.visit hvisited ⟨?_, ?_⟩⟩
        · intro p hp
          exact ((hmem p).1 hp).imp fun _ h => ⟨h.1, h.2.1⟩
        · intro e w harc hw
          exact ⟨(some e, w), (hmem _).2 ⟨e, rfl, harc, fun hin => hw (List.mem_toFinset.1 hin)⟩, rfl⟩

theorem Consistent.drain_spec (hg : g.Consistent) (mode : Mode)
    (order : NodeId → HashOrder EdgeId) (n : Nat) :
    ∀ {visits stack : List (Visit NodeId EdgeId)}, StackSearch (g.Arc mode) root visits stack →
      (∀ v ∈ visits.map Prod.snd, g.IsNode v) → g.nodeData.keys.card < n + visits.length →
      ∃ rest, Traverses (g.Arc mode) root (visits ++ rest) ∧
        ∀ fuel, n ≤ fuel →
          drain mode order g fuel
            { visited := (visits.map Prod.snd).toFinset, stack := stack } = .ok rest := by
  induction n with
  | zero =>
      intro visits stack h hlive hcard
      -- More visits than nodes, and each node once.
      have hsub : (visits.map Prod.snd).toFinset ⊆ g.nodeData.keys := fun v hv =>
        hlive v (List.mem_toFinset.1 hv)
      have hle := Finset.card_le_card hsub
      rw [List.toFinset_card_of_nodup h.once, List.length_map] at hle
      omega
  | succ n ih =>
      intro visits stack h hlive hcard
      -- Each call ends the traversal, or spends one unit of fuel on one more node.
      rcases hg.next_spec mode order h with ⟨iter, hnext, hdone⟩ |
        ⟨entry, stack', hnode, hnext, h'⟩
      · refine ⟨[], by rw [List.append_nil]; exact hdone, fun fuel hfuel => ?_⟩
        obtain ⟨fuel, rfl⟩ := Nat.exists_eq_add_of_le' (Nat.le_trans (Nat.le_add_left 1 n) hfuel)
        simp only [drain, hnext]
      · obtain ⟨rest, hdone, hrun⟩ := ih h' (by
          intro v hv
          rw [List.map_append, List.mem_append] at hv
          rcases hv with hv | hv
          · exact hlive v hv
          · rw [List.mem_singleton.1 hv]
            exact hnode) (by
          rw [List.length_append, List.length_singleton]
          omega)
        refine ⟨entry :: rest, by rw [List.append_cons]; exact hdone, fun fuel hfuel => ?_⟩
        obtain ⟨fuel, rfl⟩ := Nat.exists_eq_add_of_le' (Nat.le_trans (Nat.le_add_left 1 n) hfuel)
        simp only [drain, hnext, hrun fuel (Nat.le_of_succ_le_succ hfuel)]
        rfl

/-- Each iterator ends without a panic after at most one call for each node and one more, and what it
yields is a depth-first traversal. -/
theorem Consistent.traverse_spec (hg : g.Consistent) (mode : Mode)
    (order : NodeId → HashOrder EdgeId) (hroot : g.IsNode root) :
    ∃ visits, Traverses (g.Arc mode) root visits ∧
      ∀ fuel, g.nodeData.keys.card < fuel → traverse mode order g fuel root = .ok visits := by
  obtain ⟨entries, hnext, hmem⟩ := hg.next_visit mode order (none, root) [] hroot (by simp)
    (Finset.notMem_empty root)
  -- The first call visits the root.
  have hstart : StackSearch (g.Arc mode) root [(none, root)] entries := by
    refine .start ⟨?_, ?_⟩
    · intro p hp
      exact ((hmem p).1 hp).imp fun _ h => ⟨h.1, h.2.1⟩
    · intro e w harc hw
      refine ⟨(some e, w), (hmem _).2 ⟨e, rfl, harc, ?_⟩, rfl⟩
      simpa using hw
  obtain ⟨rest, hdone, hrun⟩ := hg.drain_spec mode order g.nodeData.keys.card hstart
    (by simpa using hroot) (Nat.lt_succ_self _)
  refine ⟨(none, root) :: rest, hdone, fun fuel hfuel => ?_⟩
  obtain ⟨fuel, rfl⟩ := Nat.exists_eq_add_of_le' (Nat.one_le_of_lt hfuel)
  rw [List.append_nil] at hnext
  have hset : ([((none, root) : Visit NodeId EdgeId)].map Prod.snd).toFinset = insert root ∅ := by
    simp
  rw [hset] at hrun
  simp only [traverse, drain, hnext, hrun fuel (Nat.le_of_lt_succ hfuel)]
  rfl

end

/-! ## The worklist of reachable_from_root -/

omit [DecidableEq EdgeId] in
theorem pushItems_nodes (visited : Finset NodeId) (items : List (EdgeItem NodeId EdgeId)) :
    ∀ stack, (pushItems visited items stack).map Prod.snd =
      Dominator.pushUnvisited visited (items.map EdgeItem.node) (stack.map Prod.snd) := by
  induction items with
  | nil =>
      intro stack
      rfl
  | cons item items ih =>
      intro stack
      rw [pushItems, List.map_cons, Dominator.pushUnvisited]
      split
      · exact ih stack
      · exact ih _

theorem drain_skip {entry : Visit NodeId EdgeId} {stack : List (Visit NodeId EdgeId)}
    {visited : Finset NodeId} (hvisited : entry.2 ∈ visited) (fuel : Nat) :
    drain mode order g fuel { visited := visited, stack := entry :: stack } =
      drain mode order g fuel { visited := visited, stack := stack } := by
  cases fuel with
  | zero => rfl
  | succ fuel => simp only [drain, next, if_pos hvisited]

/-- What a traversal that returned did with the first new node of its stack. -/
theorem drain_visit {entry : Visit NodeId EdgeId} {stack visits : List (Visit NodeId EdgeId)}
    {visited : Finset NodeId} {n : Nat} (hnew : entry.2 ∉ visited)
    (h : drain mode order g n { visited := visited, stack := entry :: stack } = .ok visits) :
    ∃ items n' rest, neighbors mode order g entry.2 = .ok items ∧
      visits.map Prod.snd = entry.2 :: rest.map Prod.snd ∧
      drain mode order g n'
        { visited := insert entry.2 visited
          stack := pushItems (insert entry.2 visited) items stack } = .ok rest := by
  obtain ⟨edgeId, nodeId⟩ := entry
  cases n with
  | zero => cases h
  | succ n =>
      rw [drain] at h
      simp only [next, if_neg hnew] at h
      -- A call that returned has found the node and its neighbours.
      cases hdata : g.nodeData.get? nodeId with
      | none =>
          rw [hdata] at h
          cases h
      | some data =>
          rw [hdata] at h
          cases hitems : neighbors mode order g nodeId with
          | error panic =>
              rw [hitems] at h
              cases h
          | ok items =>
              rw [hitems] at h
              simp only [unwrap, Bind.bind, Except.bind, Pure.pure, Except.pure] at h
              split at h
              · cases h
              · rename_i rest hrest
                cases h
                exact ⟨items, n, rest, rfl, rfl, hrest⟩

/-- With the edges left out, the two loops pop and push alike. -/
theorem visitStack_eq {fuel : Nat} :
    ∀ (stack : List (Visit NodeId EdgeId)) {visited : Finset NodeId} {found nodes : List NodeId},
      Dominator.visitStack (g.cfg order) fuel (stack.map Prod.snd) visited found = .ok nodes →
      ∀ {n : Nat} {visits : List (Visit NodeId EdgeId)},
        drain .directed order g n { visited := visited, stack := stack } = .ok visits →
        nodes = found ++ visits.map Prod.snd := by
  induction fuel with
  | zero =>
      intro stack visited found nodes h
      cases h
  | succ fuel ih =>
      intro stack visited found nodes h n visits hdrain
      cases stack with
      | nil =>
          cases h
          cases n with
          | zero => cases hdrain
          | succ n =>
              cases hdrain
              exact (List.append_nil _).symm
      | cons entry stack =>
          rw [List.map_cons, Dominator.visitStack] at h
          -- The induction is on the turns of the worklist; `next` may take several in one call.
          by_cases hvisited : entry.2 ∈ visited
          · rw [if_pos hvisited] at h
            rw [drain_skip hvisited] at hdrain
            exact ih stack h hdrain
          · rw [if_neg hvisited] at h
            obtain ⟨items, n', rest, hitems, hvisits, hrest⟩ := drain_visit hvisited hdrain
            have hsucc : (g.cfg order).successors entry.2 = items.map EdgeItem.node := by
              rw [neighbors] at hitems
              simp only [cfg, childIds, hitems]
            rw [hsucc, ← pushItems_nodes] at h
            rw [ih _ h hrest, hvisits, List.append_assoc]
            rfl

section

variable [Identifier NodeId] [Identifier EdgeId] {root : NodeId}

/-- A dead id has no children. -/
theorem Consistent.childIds_dead (hg : g.Consistent) (order : HashOrder EdgeId) {n : NodeId}
    (hn : ¬ g.IsNode n) : childIds order g n = [] := by
  have hmissing : g.nodes.get? n = none := by
    rw [Option.eq_none_iff_forall_not_mem]
    intro raw hraw
    have hlive := HashMap.mem_keys_of_get? hraw
    rw [hg.node_keys] at hlive
    exact hn hlive
  simp [childIds, children, edgeIds, indexMap, hmissing, Bind.bind, Except.bind]

theorem Consistent.mem_childIds (hg : g.Consistent) (order : HashOrder EdgeId) {u v : NodeId} :
    v ∈ childIds order g u ↔ ∃ e, g.Arc .directed u e v := by
  by_cases hu : g.IsNode u
  · obtain ⟨items, hrun, -, hlists⟩ := hg.children_spec order hu
    simp only [childIds, hrun, List.mem_map]
    constructor
    · rintro ⟨⟨e, w⟩, hitem, rfl⟩
      exact ⟨e, (hlists e w).1 hitem⟩
    · rintro ⟨e, harc⟩
      exact ⟨⟨e, v⟩, (hlists e v).2 harc, rfl⟩
  · constructor
    · rw [hg.childIds_dead order hu]
      intro hv
      cases hv
    · rintro ⟨e, harc⟩
      exact absurd (hg.arc_live harc).2.1 hu

/-- Both iterators are depth-first traversals of what they can reach, and `reachable_from_root`
yields the nodes of the directed one in the same order. -/
theorem Consistent.dfs_traverses (hg : g.Consistent) (hroot : g.IsNode root)
    (order : NodeId → HashOrder EdgeId) :
    (∃ visits, (∀ fuel, g.nodeData.keys.card < fuel → dfs order g fuel root = .ok visits) ∧
        Traverses (g.Arc .directed) root visits ∧
        ∃ enough, ∀ fuel, enough < fuel →
          Dominator.reachableFromRoot fuel (g.cfg order) root = .ok (visits.map Prod.snd)) ∧
      ∃ visits, (∀ fuel, g.nodeData.keys.card < fuel →
          undirectedDfs order g fuel root = .ok visits) ∧
        Traverses (g.Arc .undirected) root visits := by
  obtain ⟨visits, hdone, hrun⟩ := hg.traverse_spec .directed order hroot
  obtain ⟨undirected, hdone', hrun'⟩ := hg.traverse_spec .undirected order hroot
  refine ⟨⟨visits, hrun, hdone, ?_⟩, undirected, hrun', hdone'⟩
  -- The visits are the nodes that `reachable_from_root` looks for.
  have hreach : ∀ n, n ∈ (visits.map Prod.snd).toFinset ↔ (g.cfg order).Reachable root n := by
    intro n
    rw [List.mem_toFinset, hdone.mem_iff]
    constructor
    · exact Relation.ReflTransGen.mono (fun u _ h => (hg.mem_childIds (order u)).2 h) _ _
    · exact Relation.ReflTransGen.mono (fun u _ h => (hg.mem_childIds (order u)).1 h) _ _
  refine ⟨1 + Dominator.pendingEdges (g.cfg order) (visits.map Prod.snd).toFinset ∅, ?_⟩
  intro fuel hfuel
  obtain ⟨nodes, hnodes, -, -⟩ :=
    Dominator.reachableFromRoot_spec (g.cfg order) root hreach fuel hfuel
  rw [hnodes, visitStack_eq [(none, root)] hnodes (hrun _ (Nat.lt_succ_self _))]
  rfl

/-- The diamond from its top, and from its bottom without directions: node 1 is on the stack twice
before it is visited. -/
theorem dfs_traverses_diamondGraph :
    (∃ visits, dfs (fun _ => byRaw .usize) diamondGraph 11 (.ofNat .u32 0) = .ok visits ∧
        Traverses (diamondGraph.Arc .directed) (DerivedId.ofNat .u32 0) visits) ∧
      ∃ visits, undirectedDfs (fun _ => byRaw .usize) diamondGraph 11 (.ofNat .u32 3) = .ok visits ∧
        Traverses (diamondGraph.Arc .undirected) (DerivedId.ofNat .u32 3) visits := by
  have htop : diamondGraph.IsNode (.ofNat .u32 0) := by
    unfold IsNode
    decide
  have hbottom : diamondGraph.IsNode (.ofNat .u32 3) := by
    unfold IsNode
    decide
  obtain ⟨⟨visits, hrun, hdone, -⟩, -⟩ :=
    diamondGraph_consistent.dfs_traverses htop fun _ => byRaw .usize
  obtain ⟨-, back, hrun', hdone'⟩ :=
    diamondGraph_consistent.dfs_traverses hbottom fun _ => byRaw .usize
  exact ⟨⟨visits, hrun 11 (by decide), hdone⟩, back, hrun' 11 (by decide), hdone'⟩

end

end OwningGraph
end Jstd
