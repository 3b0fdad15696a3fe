import Jstd.OwningGraph.Runs
import Jstd.Parse.Grammar

/-!
# The graph a text denotes

`Denotes` says what graph some statements stand for: one node for each name, in the order of first
mention, and one edge for each arrow.  `Built` is the invariant of the loop of `parse`; mentioning a
name is the statement of a node without a payload, so the two ends of an arrow are two such
statements before the edge is made.
-/

namespace Jstd
namespace Parse

open Foundation

/-! ## Statements -/

/-- The names of a statement, source before target. -/
def Statement.mentions : Statement → List Str
  | .node name _ => [name]
  | .edge source target _ => [source, target]

/-- The payload a statement gives to a name. -/
def Statement.payloadOf (name : Str) : Statement → Option Str
  | .node name' payload => if name' = name then payload else none
  | .edge _ _ _ => none

def Statement.arrow? : Statement → Option (Str × Str × Str)
  | .node _ _ => none
  | .edge source target text => some (source, target, text)

/-- The distinct names, in the order of their first mention. -/
def names (statements : List Statement) : List Str :=
  (statements.flatMap Statement.mentions).eraseDups

/-- The last payload given to a name, or else the name. -/
def nodeText (statements : List Statement) (name : Str) : Str :=
  (statements.filterMap (Statement.payloadOf name)).getLast?.getD name

/-- The arrows, each with its ends and its text. -/
def arrows (statements : List Statement) : List (Str × Str × Str) :=
  statements.filterMap Statement.arrow?

variable {NodeId EdgeId : Type} [DecidableEq NodeId] [DecidableEq EdgeId] [Identifier NodeId]
  [Identifier EdgeId]

/-- The graph has a node for each name and an edge for each arrow, numbered in order, and nothing
else. -/
structure Denotes (statements : List Statement) (g : OwningGraph NodeId EdgeId Str Str) : Prop where
  consistent : g.Consistent
  apart : g.IdsInjective
  nodeCount : g.nextNodeId = (names statements).length
  edgeCount : g.nextEdgeId = (arrows statements).length
  node : ∀ {k name}, (names statements)[k]? = some name →
    g.nodeData.get? (fromUsize k) = some (nodeText statements name)
  node_only : ∀ {id}, g.IsNode id → ∃ k < (names statements).length, id = fromUsize k
  edge : ∀ {k source target text}, (arrows statements)[k]? = some (source, target, text) →
    g.edgeData.get? (fromUsize k) = some text ∧
      ∃ i j, (names statements)[i]? = some source ∧ (names statements)[j]? = some target ∧
        g.edges.get? (fromUsize k) = some { fromId := fromUsize i, toId := fromUsize j }
  edge_only : ∀ {id}, g.IsEdge id → ∃ k < (arrows statements).length, id = fromUsize k

/-! ## One more statement -/

variable {statements : List Statement} {name : Str}

theorem mem_names : name ∈ names statements ↔ ∃ s ∈ statements, name ∈ s.mentions := by
  rw [names, List.mem_eraseDups, List.mem_flatMap]

theorem names_node (payload : Option Str) :
    names (statements ++ [.node name payload]) =
      if name ∈ names statements then names statements else names statements ++ [name] := by
  have hmentions : (statements ++ [Statement.node name payload]).flatMap Statement.mentions =
      statements.flatMap Statement.mentions ++ [name] := by
    simp [Statement.mentions]
  rw [names, hmentions, List.eraseDups_append, ← names]
  by_cases h : name ∈ names statements
  · rw [if_pos h]
    rw [names, List.mem_eraseDups] at h
    simp only [List.removeAll, List.filter_cons, List.elem_eq_true_of_mem h, Bool.not_true,
      Bool.false_eq_true, if_false, List.filter_nil, List.eraseDups_nil, List.append_nil]
  · rw [if_neg h]
    rw [names, List.mem_eraseDups] at h
    have helem : List.elem name (statements.flatMap Statement.mentions) = false := by
      rw [Bool.eq_false_iff]
      exact fun hin => h (List.mem_of_elem_eq_true hin)
    simp only [List.removeAll, List.filter_cons, helem, Bool.not_false, if_true, List.filter_nil]
    rfl

/-- An arrow mentions its two ends. -/
theorem names_edge (source target text : Str) :
    names (statements ++ [.edge source target text]) =
      names (statements ++ [.node source none] ++ [.node target none]) := by
  simp [names, Statement.mentions]

theorem nodeText_node (payload : Option Str) (m : Str) :
    nodeText (statements ++ [.node name payload]) m =
      if name = m then payload.getD (nodeText statements m) else nodeText statements m := by
  by_cases h : name = m
  · cases payload with
    | none => simp [nodeText, Statement.payloadOf]
    | some payload => simp [nodeText, Statement.payloadOf, h]
  · simp [nodeText, Statement.payloadOf, h]

theorem nodeText_edge (source target text m : Str) :
    nodeText (statements ++ [.edge source target text]) m = nodeText statements m := by
  simp [nodeText, Statement.payloadOf]

/-- A name not mentioned has no payload. -/
theorem nodeText_of_notMem (h : name ∉ names statements) : nodeText statements name = name := by
  have hnil : statements.filterMap (Statement.payloadOf name) = [] := by
    rw [List.filterMap_eq_nil_iff]
    intro s hs
    -- A statement that gave it a payload would have mentioned it.
    cases s with
    | edge source target text => rfl
    | node name' payload =>
        rw [Statement.payloadOf, if_neg]
        rintro rfl
        exact h (mem_names.2 ⟨_, hs, List.mem_singleton_self _⟩)
  rw [nodeText, hnil]
  rfl

theorem arrows_node (payload : Option Str) :
    arrows (statements ++ [.node name payload]) = arrows statements := by
  simp [arrows, Statement.arrow?]

theorem arrows_edge (source target text : Str) :
    arrows (statements ++ [.edge source target text]) =
      arrows statements ++ [(source, target, text)] := by
  simp [arrows, Statement.arrow?]

end Parse

/-! ## Replacing a payload -/

namespace OwningGraph

open Foundation

variable {NodeId EdgeId NodeData EdgeData : Type} [DecidableEq NodeId] [DecidableEq EdgeId]
  [Identifier NodeId] [Identifier EdgeId]

omit [DecidableEq EdgeId] [Identifier NodeId] [Identifier EdgeId] in
theorem setNodeData_run {g : OwningGraph NodeId EdgeId NodeData EdgeData} {id : NodeId}
    (hid : g.IsNode id) (data : NodeData) :
    (setNodeData id data).run g = (.ok (), { g with nodeData := g.nodeData.insert id data }) := by
  obtain ⟨old, hold⟩ := HashMap.exists_of_mem_keys hid
  simp only [setNodeData, Method.run_bind_get, hold, unwrap, Method.run_bind_liftM_ok,
    Method.run_modify]

/-- A payload may be replaced. -/
theorem Consistent.setNodeData {g : OwningGraph NodeId EdgeId NodeData EdgeData}
    (hg : g.Consistent) {id : NodeId} (hid : g.IsNode id) (data : NodeData) :
    ({ g with nodeData := g.nodeData.insert id data } :
      OwningGraph NodeId EdgeId NodeData EdgeData).Consistent := by
  have hkeys : (g.nodeData.insert id data).keys = g.nodeData.keys := by
    rw [HashMap.keys_insert, Finset.insert_eq_of_mem hid]
  constructor
  · exact hg.node_keys.trans hkeys.symm
  · exact hg.edge_keys
  · intro e edge h
    simp only [IsNode, hkeys]
    exact hg.endpoints h
  · intro n hn
    rw [IsNode, hkeys] at hn
    exact hg.node_issued hn
  · exact hg.edge_issued
  · exact hg.incident_iff

end OwningGraph

/-! ## One more node, one more edge -/

namespace Parse

open Foundation

variable {NodeId EdgeId : Type} [DecidableEq NodeId] [DecidableEq EdgeId] [Identifier NodeId]
  [Identifier EdgeId] {statements : List Statement} {g : OwningGraph NodeId EdgeId Str Str}
  {name : Str}

/-- The last position of a list with one more element, and the others. -/
theorem getElem?_concat_cases {α : Type} {l : List α} {a x : α} {k : Nat}
    (h : (l ++ [a])[k]? = some x) : l[k]? = some x ∨ k = l.length ∧ x = a := by
  rcases Nat.lt_or_ge k l.length with hlt | hge
  · rw [List.getElem?_append_left hlt] at h
    exact .inl h
  · have hk := (List.getElem?_eq_some_iff.1 h).1
    rw [List.length_append, List.length_singleton] at hk
    obtain rfl : k = l.length := by omega
    rw [List.getElem?_concat_length, Option.some.injEq] at h
    exact .inr ⟨rfl, h.symm⟩

theorem getElem?_concat_of_some {α : Type} {l : List α} {x : α} {k : Nat} (h : l[k]? = some x)
    (a : α) : (l ++ [a])[k]? = some x := by
  rw [List.getElem?_append_left (List.getElem?_eq_some_iff.1 h).1, h]

/-- The graph `make_node` leaves. -/
def withNode (g : OwningGraph NodeId EdgeId Str Str) (data : Str) :
    OwningGraph NodeId EdgeId Str Str :=
  { g with
    nextNodeId := g.nextNodeId + 1
    nodes := g.nodes.insert (fromUsize g.nextNodeId) { edges := ∅ }
    nodeData := g.nodeData.insert (fromUsize g.nextNodeId) data }

/-- A new name gets the next node id. -/
theorem Denotes.addName (h : Denotes statements g) (hname : name ∉ names statements)
    (payload : Option Str) (hids : (withNode g (payload.getD name)).IdsInjective) :
    Denotes (statements ++ [.node name payload]) (withNode g (payload.getD name)) := by
  obtain ⟨hcons, -, hnode, hedge, hnodes, hnodeOnly, hedges, hedgeOnly⟩ := h
  obtain ⟨g', hrun, -, -, hcons'⟩ := hcons.makeNode (payload.getD name)
  cases hrun
  have hnames : names (statements ++ [.node name payload]) = names statements ++ [name] := by
    rw [names_node, if_neg hname]
  have hcount : (withNode g (payload.getD name)).nextNodeId =
      (names statements ++ [name]).length := by
    rw [List.length_append, ← hnode]
    rfl
  constructor
  · exact hcons' (hcons.fresh_node hids.node)
  · exact hids
  · rw [hnames]
    exact hcount
  · rw [arrows_node]
    exact hedge
  · intro k m hm
    rw [hnames] at hm
    show (g.nodeData.insert _ _).get? (fromUsize k) = _
    rw [nodeText_node]
    rcases getElem?_concat_cases hm with hm | ⟨rfl, rfl⟩
    · -- An older node keeps its text, since its id is another one.
      have hlt : k < g.nextNodeId := by
        rw [hnode]
        exact (List.getElem?_eq_some_iff.1 hm).1
      have hk : (fromUsize k : NodeId) ≠ fromUsize g.nextNodeId := by
        intro heq
        have := hids.node (Nat.lt_succ_of_lt hlt) (Nat.lt_succ_self _) heq
        omega
      have hne : ¬ name = m := by
        rintro rfl
        exact hname (List.mem_of_getElem? hm)
      rw [HashMap.get?_insert, if_neg hk, if_neg hne]
      exact hnodes hm
    · rw [← hnode, HashMap.get?_insert_self, if_pos rfl, nodeText_of_notMem hname]
  -- Every live id was one before, or it is the new one.
  · intro id hid
    rw [hnames, ← hcount]
    change id ∈ (g.nodeData.insert _ _).keys at hid
    rw [HashMap.keys_insert, Finset.mem_insert] at hid
    rcases hid with rfl | hid
    · exact ⟨_, Nat.lt_succ_self _, rfl⟩
    · obtain ⟨k, hk, rfl⟩ := hnodeOnly hid
      rw [← hnode] at hk
      exact ⟨k, Nat.lt_succ_of_lt hk, rfl⟩
  · intro k source target text hk
    rw [arrows_node] at hk
    obtain ⟨htext, i, j, hi, hj, hends⟩ := hedges hk
    rw [hnames]
    exact ⟨htext, i, j, getElem?_concat_of_some hi name, getElem?_concat_of_some hj name, hends⟩
  · rw [arrows_node]
    exact hedgeOnly

/-- The graph `make_edge` leaves, with the incident sets it has written. -/
def withEdge (g : OwningGraph NodeId EdgeId Str Str) (u v : NodeId) (text : Str)
    (nodes : HashMap NodeId (RawNode EdgeId)) : OwningGraph NodeId EdgeId Str Str :=
  { g with
    nextEdgeId := g.nextEdgeId + 1
    edges := g.edges.insert (fromUsize g.nextEdgeId) { fromId := u, toId := v }
    edgeData := g.edgeData.insert (fromUsize g.nextEdgeId) text
    nodes := nodes }

/-- An arrow between known names gets the next edge id. -/
theorem Denotes.addArrow (h : Denotes statements g) {i j : Nat} {source target text : Str}
    (hi : (names statements)[i]? = some source) (hj : (names statements)[j]? = some target)
    {nodes : HashMap NodeId (RawNode EdgeId)} {id : EdgeId}
    (hrun : (OwningGraph.makeEdge (fromUsize i) (fromUsize j) text).run g =
      (.ok id, withEdge g (fromUsize i) (fromUsize j) text nodes))
    (hids : (withEdge g (fromUsize i) (fromUsize j) text nodes).IdsInjective)
    {statements' : List Statement} (hnames : names statements' = names statements)
    (htext : ∀ m, nodeText statements' m = nodeText statements m)
    (harrows : arrows statements' = arrows statements ++ [(source, target, text)]) :
    Denotes statements' (withEdge g (fromUsize i) (fromUsize j) text nodes) := by
  obtain ⟨hcons, -, hnode, hedge, hnodes, hnodeOnly, hedges, hedgeOnly⟩ := h
  have hlive : ∀ {k : Nat} {m : Str}, (names statements)[k]? = some m →
      g.IsNode (fromUsize k) := fun hk => HashMap.mem_keys_of_get? (hnodes hk)
  obtain ⟨g', hrun', -, -, hcons'⟩ := hcons.makeEdge (hlive hi) (hlive hj) text
  cases hrun.symm.trans hrun'
  have hcount : (withEdge g (fromUsize i) (fromUsize j) text nodes).nextEdgeId =
      (arrows statements').length := by
    rw [harrows, List.length_append, ← hedge]
    rfl
  rw [← hnames] at hnode hnodes hnodeOnly hedges hi hj
  constructor
  · exact hcons' (hcons.fresh_edge hids.edge)
  · exact hids
  · exact hnode
  · exact hcount
  · intro k m hm
    rw [htext]
    exact hnodes hm
  · exact hnodeOnly
  · intro k source' target' text' hk
    rw [harrows] at hk
    show (g.edgeData.insert _ _).get? (fromUsize k) = _ ∧
      ∃ i j, _ ∧ _ ∧ (g.edges.insert _ _).get? (fromUsize k) = _
    -- An older edge keeps its entries, since its id is another one.
    rcases getElem?_concat_cases hk with hk | ⟨rfl, heq⟩
    · have hlt : k < g.nextEdgeId := by
        rw [hedge]
        exact (List.getElem?_eq_some_iff.1 hk).1
      have hne : (fromUsize k : EdgeId) ≠ fromUsize g.nextEdgeId := by
        intro heq
        have := hids.edge (Nat.lt_succ_of_lt hlt) (Nat.lt_succ_self _) heq
        omega
      rw [HashMap.get?_insert, if_neg hne, HashMap.get?_insert, if_neg hne]
      exact hedges hk
    · cases heq
      rw [← hedge, HashMap.get?_insert_self, HashMap.get?_insert_self]
      exact ⟨rfl, i, j, hi, hj, rfl⟩
  · intro id hid
    rw [← hcount]
    change id ∈ (g.edgeData.insert _ _).keys at hid
    rw [HashMap.keys_insert, Finset.mem_insert] at hid
    rcases hid with rfl | hid
    · exact ⟨_, Nat.lt_succ_self _, rfl⟩
    · obtain ⟨k, hk, rfl⟩ := hedgeOnly hid
      rw [← hedge] at hk
      exact ⟨k, Nat.lt_succ_of_lt hk, rfl⟩

end Parse

/-! ## The invariant of the loop -/

namespace Parser

open Foundation Parse

variable {NodeId EdgeId : Type} [DecidableEq NodeId] [DecidableEq EdgeId] [Identifier NodeId]
  [Identifier EdgeId]

/-- The name table and the graph after some statements.  The table holds whatever the ids are; the
graph is as it should be as long as the ids issued are apart. -/
structure Built (statements : List Statement) (parser : Parser NodeId EdgeId) : Prop where
  node_keys : parser.graph.nodes.keys = parser.graph.nodeData.keys
  live : ∀ {name id}, parser.nodeIds.get? name = some id → parser.graph.IsNode id
  known : ∀ {k name}, (names statements)[k]? = some name →
    parser.nodeIds.get? name = some (fromUsize k)
  unknown : ∀ {name}, name ∉ names statements → parser.nodeIds.get? name = none
  nodeCount : parser.graph.nextNodeId = (names statements).length
  edgeCount : parser.graph.nextEdgeId = (arrows statements).length
  denotes : parser.graph.IdsInjective → Denotes statements parser.graph

variable (NodeId EdgeId) in
theorem built_nil :
    Built [] ({ graph := .empty, nodeIds := .empty } : Parser NodeId EdgeId) where
  node_keys := rfl
  live h := by
    rw [HashMap.get?_empty] at h
    cases h
  known h := by cases h
  unknown _ := HashMap.get?_empty _
  nodeCount := rfl
  edgeCount := rfl
  denotes hids :=
    { consistent := OwningGraph.empty_consistent
      apart := hids
      nodeCount := rfl
      edgeCount := rfl
      node := fun h => by cases h
      node_only := fun h => absurd h (Finset.notMem_empty _)
      edge := fun h => by cases h
      edge_only := fun h => absurd h (Finset.notMem_empty _) }

namespace Built

variable {statements : List Statement} {self : Parser NodeId EdgeId} {name : Str}

/-- Only the names, their texts and the arrows matter. -/
theorem congr (h : Built statements self) {statements' : List Statement}
    (hnames : names statements' = names statements)
    (htext : ∀ m, nodeText statements' m = nodeText statements m)
    (harrows : arrows statements' = arrows statements) : Built statements' self := by
  obtain ⟨hkeys, hlive, hknown, hunknown, hnodeCount, hedgeCount, hdenotes⟩ := h
  rw [← hnames] at hknown hunknown hnodeCount
  rw [← harrows] at hedgeCount
  refine ⟨hkeys, hlive, hknown, hunknown, hnodeCount, hedgeCount, fun hids => ?_⟩
  obtain ⟨hcons, hapart, hnode, hedge, hnodes, hnodeOnly, hedges, hedgeOnly⟩ := hdenotes hids
  rw [← hnames] at hnodes hnode hnodeOnly hedges
  rw [← harrows] at hedge hedges hedgeOnly
  refine ⟨hcons, hapart, hnode, hedge, fun hm => ?_, hnodeOnly, hedges, hedgeOnly⟩
  rw [htext]
  exact hnodes hm

/-- A known name is mentioned again. -/
theorem mention (h : Built statements self) (hname : name ∈ names statements) :
    Built (statements ++ [.node name none]) self := by
  refine h.congr ?_ (fun m => ?_) (arrows_node none)
  · rw [names_node, if_pos hname]
  · rw [nodeText_node, Option.getD_none, ite_self]

/-- A known name gets another payload. -/
theorem setPayload (h : Built statements self) {k : Nat}
    (hk : (names statements)[k]? = some name) (payload : Str) :
    Built (statements ++ [.node name (some payload)])
      { self with graph := { self.graph with
          nodeData := self.graph.nodeData.insert (fromUsize k) payload } } := by
  have hid : self.graph.IsNode (fromUsize k) := h.live (h.known hk)
  have hkeys : (self.graph.nodeData.insert (fromUsize k) payload).keys =
      self.graph.nodeData.keys := by
    rw [HashMap.keys_insert, Finset.insert_eq_of_mem hid]
  have hnames : names (statements ++ [.node name (some payload)]) = names statements := by
    rw [names_node, if_pos (List.mem_of_getElem? hk)]
  refine ⟨h.node_keys.trans hkeys.symm, ?_, ?_, ?_, ?_, ?_, fun hids => ?_⟩
  · intro m id hm
    rw [OwningGraph.IsNode, hkeys]
    exact h.live hm
  · rw [hnames]
    exact h.known
  · rw [hnames]
    exact h.unknown
  · rw [hnames]
    exact h.nodeCount
  · rw [arrows_node]
    exact h.edgeCount
  · obtain ⟨hcons, hapart, hnode, hedge, hnodes, hnodeOnly, hedges, hedgeOnly⟩ :=
      h.denotes ⟨hids.node, hids.edge⟩
    constructor
    · exact hcons.setNodeData hid payload
    · exact hids
    · rw [hnames]
      exact hnode
    · rw [arrows_node]
      exact hedge
    · intro i m hm
      rw [hnames] at hm
      show (self.graph.nodeData.insert (fromUsize k) payload).get? (fromUsize i) = _
      -- The node of the name has the new payload, and every other node its old one.
      by_cases heq : m = name
      · subst heq
        have hi : (fromUsize i : NodeId) = fromUsize k :=
          Option.some.inj ((h.known hm).symm.trans (h.known hk))
        rw [hi, HashMap.get?_insert_self, nodeText_node, if_pos rfl, Option.getD_some]
      · -- Another name has another number, and so another id.
        have hi : (fromUsize i : NodeId) ≠ fromUsize k := by
          intro hids'
          have hlt : ∀ {j : Nat} {m : Str}, (names statements)[j]? = some m →
              j < self.graph.nextNodeId := fun hj => by
            rw [hnode]
            exact (List.getElem?_eq_some_iff.1 hj).1
          rw [hids.node (hlt hm) (hlt hk) hids'] at hm
          exact heq (Option.some.inj (hm.symm.trans hk))
        rw [HashMap.get?_insert, if_neg hi, nodeText_node, if_neg (Ne.symm heq)]
        exact hnodes hm
    · intro id hid'
      rw [hnames]
      rw [OwningGraph.IsNode, hkeys] at hid'
      exact hnodeOnly hid'
    · rw [hnames, arrows_node]
      exact hedges
    · rw [arrows_node]
      exact hedgeOnly

/-- A new name gets the next id, in the graph and in the table. -/
theorem addName (h : Built statements self) (hname : name ∉ names statements)
    (payload : Option Str) :
    Built (statements ++ [.node name payload])
      { graph := withNode self.graph (payload.getD name)
        nodeIds := self.nodeIds.insert name (fromUsize self.graph.nextNodeId) } := by
  have hnames : names (statements ++ [.node name payload]) = names statements ++ [name] := by
    rw [names_node, if_neg hname]
  refine ⟨?_, ?_, ?_, ?_, ?_, ?_, fun hids => ?_⟩
  · show (self.graph.nodes.insert _ _).keys = (self.graph.nodeData.insert _ _).keys
    rw [HashMap.keys_insert, HashMap.keys_insert, h.node_keys]
  · intro m id hm
    show id ∈ (self.graph.nodeData.insert _ _).keys
    change (self.nodeIds.insert name _).get? m = some id at hm
    rw [HashMap.keys_insert, Finset.mem_insert]
    rw [HashMap.get?_insert] at hm
    split at hm
    · cases hm
      exact .inl rfl
    · exact .inr (h.live hm)
  -- A name keeps the id the table had for it; the new one has the next.
  · intro k m hm
    rw [hnames] at hm
    show (self.nodeIds.insert name _).get? m = _
    rcases getElem?_concat_cases hm with hold | ⟨rfl, rfl⟩
    · have hne : m ≠ name := by
        rintro rfl
        exact hname (List.mem_of_getElem? hold)
      rw [HashMap.get?_insert, if_neg hne]
      exact h.known hold
    · rw [HashMap.get?_insert_self, h.nodeCount]
  · intro m hm
    rw [hnames, List.mem_append, List.mem_singleton, not_or] at hm
    show (self.nodeIds.insert name _).get? m = _
    rw [HashMap.get?_insert, if_neg hm.2]
    exact h.unknown hm.1
  · rw [hnames, List.length_append, ← h.nodeCount]
    rfl
  · rw [arrows_node]
    exact h.edgeCount
  · have hbefore : self.graph.IdsInjective :=
      ⟨hids.node.mono fun k hk => Nat.lt_succ_of_lt hk, hids.edge⟩
    exact (h.denotes hbefore).addName hname payload hids

/-- An arrow between known names is made, whether or not the ids are apart. -/
theorem addArrow (h : Built statements self) {i j : Nat} {source target : Str}
    (hi : (names statements)[i]? = some source) (hj : (names statements)[j]? = some target)
    (text : Str) {statements' : List Statement} (hnames : names statements' = names statements)
    (htext : ∀ m, nodeText statements' m = nodeText statements m)
    (harrows : arrows statements' = arrows statements ++ [(source, target, text)]) :
    ∃ id self', (onGraph (OwningGraph.makeEdge (fromUsize i) (fromUsize j) text)).run self =
        (.ok id, self') ∧ Built statements' self' := by
  have hends : ∀ {k : Nat} {m : Str}, (names statements)[k]? = some m →
      (fromUsize k : NodeId) ∈ self.graph.nodes.keys := by
    intro k m hk
    rw [h.node_keys]
    exact h.live (h.known hk)
  obtain ⟨nodes, hrun, hkeys, -⟩ := OwningGraph.makeEdge_spec (hends hi) (hends hj) text
  refine ⟨_, _, Method.run_focus_of_ok hrun, hkeys.trans h.node_keys, h.live, ?_, ?_, ?_, ?_,
    fun hids => ?_⟩
  · rw [hnames]
    exact h.known
  · rw [hnames]
    exact h.unknown
  · rw [hnames]
    exact h.nodeCount
  · rw [harrows, List.length_append, ← h.edgeCount]
    rfl
  · have hbefore : self.graph.IdsInjective :=
      ⟨hids.node, hids.edge.mono fun k hk => Nat.lt_succ_of_lt hk⟩
    exact (h.denotes hbefore).addArrow hi hj hrun hids hnames htext harrows

end Built

end Parser
end Jstd
